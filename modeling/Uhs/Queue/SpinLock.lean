import Uhs.Queue.Spsc
import Uhs.Support.Atomic

/-!
# Queues under a spin lock

The posting functions of `nvm_worker.cpp` take the spin lock of a queue around
`mix_enqueue`, and the one worker of the queue calls `mix_dequeue` without it.
The lock makes one producer of all the posters, so that the queue is a bounded
list on which every operation takes effect at one instant.
-/

namespace Uhs

open Support

/-- An operation of a poster or of the worker. -/
inductive QueueOp (α : Type*)
  | enqueue (task : α)
  | dequeue

/-- What it returns: the number of tasks enqueued, or the task dequeued. -/
inductive QueueReply (α : Type*)
  | num (n : ℕ)
  | took (task : Option α)

/-- A list of at most `C` tasks. -/
def fifoStep {α : Type*} (C : ℕ) (queue : List α) :
    QueueOp α → List α × QueueReply α
  | .enqueue task =>
      if queue.length < C then (queue ++ [task], .num 1) else (queue, .num 0)
  | .dequeue =>
      match queue with
      | [] => ([], .took none)
      | task :: rest => (rest, .took (some task))

/-- Where a poster stands.  A poster that retries is in
`mix_post_task_to_buffer` or `mix_post_small_task_to_buffer`, one that does not
in `mix_post_task_to_metadata`. -/
inductive PosterPc (α : Type*)
  | idle
  /-- before `pthread_spin_lock` -/
  | lock (retry : Bool) (task : α)
  /-- before `mix_enqueue` -/
  | enqueue (retry : Bool) (task : α)
  /-- in `mix_enqueue`, which enqueues `len` tasks -/
  | copying (retry : Bool) (task : α) (len : ℕ)
  /-- before `pthread_spin_unlock` -/
  | unlock (num : ℕ)

/-- A queue with its lock, its posters and what they and the worker have
called and got. -/
structure LockedQueue (κ α : Type*) where
  queue : Spsc α
  holder : Option κ
  posters : κ → PosterPc α
  history : List (HistoryEvent (Option κ) (QueueOp α) (QueueReply α))

/-- The steps of the posters and of the worker. -/
inductive LockedStep (κ α : Type*)
  | call (k : κ) (retry : Bool) (task : α)
  | acquire (k : κ)
  | readOut (k : κ)
  | copyIn (k : κ)
  | publishIn (k : κ)
  | release (k : κ)
  | readIn
  | copyOut
  | publishOut

namespace LockedQueue

variable {κ α : Type*} [DecidableEq κ]

def setPoster (s : LockedQueue κ α) (k : κ) (pc : PosterPc α) :
    LockedQueue κ α :=
  { s with posters := Function.update s.posters k pc }

/-- One step; `none` where the party waits or stands elsewhere. -/
def step (s : LockedQueue κ α) : LockedStep κ α → Option (LockedQueue κ α)
  | .call k retry task =>
      match s.posters k with
      | .idle =>
          some { s.setPoster k (.lock retry task) with
            history := s.history ++ [.call (some k) (.enqueue task)] }
      | _ => none
  | .acquire k =>
      match s.posters k, s.holder with
      | .lock retry task, none =>
          some { s.setPoster k (.enqueue retry task) with holder := some k }
      | _, _ => none
  | .readOut k =>
      match s.posters k with
      | .enqueue retry task =>
          (s.queue.step (.readOut (fun _ => task) 1)).map fun queue =>
            { s.setPoster k (.copying retry task queue.producer.len) with
              queue := queue }
      | _ => none
  | .copyIn k =>
      match s.posters k with
      | .copying _ _ _ =>
          (s.queue.step .copyIn).map fun queue => { s with queue := queue }
      | _ => none
  | .publishIn k =>
      match s.posters k with
      | .copying retry task len =>
          (s.queue.step .publishIn).map fun queue =>
            { s.setPoster k
                (if retry && len == 0 then .enqueue retry task
                  else .unlock len) with
              queue := queue }
      | _ => none
  | .release k =>
      match s.posters k with
      | .unlock num =>
          some { s.setPoster k .idle with
            holder := none
            history := s.history ++ [.ret (some k) (.num num)] }
      | _ => none
  | .readIn =>
      (s.queue.step (.readIn 1)).map fun queue =>
        { s with
          queue := queue
          history := s.history ++
            match queue.consumer with
            | .idle => [.call none .dequeue, .ret none (.took none)]
            | .copy .. => [.call none .dequeue] }
  | .copyOut =>
      (s.queue.step .copyOut).map fun queue => { s with queue := queue }
  | .publishOut =>
      (s.queue.step .publishOut).map fun queue =>
        { s with
          queue := queue
          history := s.history ++
            [.ret none (.took queue.dequeued.getLast?)] }

/-- A queue after `mix_queue_init` and `pthread_spin_init`. -/
def new (mask : UInt32) (cell : ℕ → α) : LockedQueue κ α where
  queue := Spsc.new mask cell
  holder := none
  posters := fun _ => .idle
  history := []

end LockedQueue

/-- The poster holds the lock. -/
def PosterPc.Locked {α : Type*} : PosterPc α → Prop
  | .idle => False
  | .lock _ _ => False
  | _ => True

/-- The poster is in `mix_enqueue`. -/
def PosterPc.Copies {α : Type*} : PosterPc α → Prop
  | .copying _ _ _ => True
  | _ => False

namespace LockedQueue

variable {κ α : Type*} [DecidableEq κ]

/-- The queue is a list of at most `C` tasks with atomic operations, and its
posters and its worker never meet in a slot. -/
structure Safe (C : ℕ) (s : LockedQueue κ α) : Prop where
  linearizable : Linearizable (fifoStep C) [] s.history
  alone : ∀ k, (s.posters k).Locked → s.holder = some k
  slots : s.queue.Safe

/-! ## The invariant -/

/-- The tasks in the queue. -/
def contents (s : LockedQueue κ α) : List α :=
  s.queue.enqueued.drop s.queue.released

/-- What a poster has been promised.  A call that finds the queue full takes
effect when it does so, unless it will be repeated. -/
def posterPhase : PosterPc α → Phase (QueueOp α) (QueueReply α)
  | .idle => .idle
  | .lock _ task => .called (.enqueue task)
  | .enqueue _ task => .called (.enqueue task)
  | .copying retry task len =>
      if len = 0 ∧ retry = false then .done (.num 0)
      else .called (.enqueue task)
  | .unlock num => .done (.num num)

/-- What the parties have been promised. -/
def phase (s : LockedQueue κ α) :
    Option κ → Phase (QueueOp α) (QueueReply α)
  | some k => posterPhase (s.posters k)
  | none =>
      match s.queue.consumer with
      | .idle => .idle
      | .copy .. => .called .dequeue

/-- The holder of the lock is the producer of the queue. -/
structure Inv (bits : ℕ) (s : LockedQueue κ α) : Prop where
  queue : s.queue.Inv bits
  locked : ∀ k, (s.posters k).Locked → s.holder = some k
  idle : (∀ k, ¬ (s.posters k).Copies) → s.queue.producer = .idle
  copying : ∀ k retry task len, s.posters k = .copying retry task len →
    len ≤ 1 ∧ ∃ i, s.queue.producer = .copy (fun _ => task) len i
  took : ∀ len i, s.queue.consumer = .copy len i → len = 1
  atomic : Atomic (fifoStep (2 ^ bits)) [] s.history s.contents s.phase


variable {bits : ℕ} {s s' : LockedQueue κ α} {k : κ} {retry : Bool}
  {task : α} {len : ℕ} {pc : PosterPc α} {queue : Spsc α}

omit [DecidableEq κ] in
theorem length_contents (s : LockedQueue κ α) :
    s.contents.length = s.queue.enqueued.length - s.queue.released :=
  List.length_drop

theorem new_inv {mask : UInt32} (hmask : mask.toNat = 2 ^ bits - 1)
    (cell : ℕ → α) : Inv bits (new mask cell : LockedQueue κ α) where
  queue := Spsc.new_inv hmask cell
  locked := fun _ hlocked => hlocked.elim
  idle := fun _ => rfl
  copying := by
    intro k retry task len hpc
    cases hpc
  took := by
    intro len i hpc
    cases hpc
  atomic := by
    have hphase : (new mask cell : LockedQueue κ α).phase =
        fun _ => .idle := by
      funext p
      cases p <;> rfl
    rw [hphase]
    exact .nil

omit [DecidableEq κ] in
theorem phase_some (hpc : s.posters k = pc) :
    s.phase (some k) = posterPhase pc := by
  rw [phase, hpc]

theorem phase_update {x : Phase (QueueOp α) (QueueReply α)}
    (hposters : s'.posters = Function.update s.posters k pc)
    (hpc : posterPhase pc = x) : s'.phase (some k) = x := by
  rw [phase, hposters, Function.update_self, hpc]

/-- A step of one poster does not change what the others have been
promised. -/
theorem phase_of_ne (hposters : s'.posters = Function.update s.posters k pc)
    (hconsumer : s'.queue.consumer = s.queue.consumer) (q : Option κ)
    (hq : q ≠ some k) : s'.phase q = s.phase q := by
  cases q with
  | none => simp only [phase, hconsumer]
  | some j =>
      have hj : j ≠ k := fun heq => hq (congrArg some heq)
      rw [phase, phase, hposters, Function.update_of_ne hj]

/-- A step of a poster that promises nothing new. -/
theorem phase_eq (hposters : s'.posters = Function.update s.posters k pc)
    (hconsumer : s'.queue.consumer = s.queue.consumer)
    (hpc : posterPhase pc = s.phase (some k)) (q : Option κ) :
    s'.phase q = s.phase q := by
  by_cases hq : q = some k
  · rw [hq, phase_update hposters hpc]
  · exact phase_of_ne hposters hconsumer q hq

namespace Inv

theorem safe (h : Inv bits s) (hbits : bits ≤ 31) : Safe (2 ^ bits) s where
  linearizable := h.atomic.linearizable
  alone := h.locked
  slots := h.queue.safe hbits

/-- Nobody else is in `mix_enqueue`. -/
theorem not_locked_of_ne (h : Inv bits s) (hlocked : (s.posters k).Locked)
    {j : κ} (hj : j ≠ k) : ¬ (s.posters j).Locked := by
  intro hother
  have heq := (h.locked j hother).symm.trans (h.locked k hlocked)
  exact hj (Option.some.inj heq)

theorem not_copies_of_ne (h : Inv bits s) (hlocked : (s.posters k).Locked)
    {j : κ} (hj : j ≠ k) : ¬ (s.posters j).Copies := by
  intro hcopies
  refine h.not_locked_of_ne hlocked hj ?_
  cases hpc : s.posters j with
  | copying retry task len => trivial
  | idle | lock | enqueue | unlock =>
      rw [hpc] at hcopies
      exact hcopies.elim

/-- The number of tasks that a poster finds room for. -/
theorem toNat_clamp_unused (h : Inv bits s) (hbits : bits ≤ 31) :
    (clamp 1 (mixQueueUnused s.queue.mask s.queue.inCount
      s.queue.outCount)).toNat =
        if s.contents.length < 2 ^ bits then 1 else 0 := by
  have hconsumer := h.queue.consumer
  have hproducer := h.queue.producer
  have hfree := toNat_mixQueueUnused (p := s.queue.enqueued.length)
    (q := s.queue.released) h.queue.mask hbits (by omega) (by omega)
  rw [← h.queue.inCount, ← h.queue.outCount] at hfree
  rw [toNat_clamp, hfree, length_contents]
  change min 1 _ = _
  split_ifs <;> omega

/-- A poster moves on under the lock, or takes or leaves it. -/
theorem movePoster (h : Inv bits s) (hqueue : s'.queue = s.queue)
    (hposters : s'.posters = Function.update s.posters k pc)
    (hcopies : ¬ (s.posters k).Copies) (hpc : ¬ pc.Copies)
    (hlocked : pc.Locked → s'.holder = some k)
    (hholder : ∀ j, j ≠ k → (s.posters j).Locked → s'.holder = some j)
    (hatomic : Atomic (fifoStep (2 ^ bits)) [] s'.history s'.contents
      s'.phase) : Inv bits s' where
  queue := hqueue ▸ h.queue
  locked := by
    intro j hj
    rw [hposters] at hj
    by_cases hjk : j = k
    · subst hjk
      rw [Function.update_self] at hj
      exact hlocked hj
    · rw [Function.update_of_ne hjk] at hj
      exact hholder j hjk hj
  idle := by
    intro hnone
    rw [hqueue]
    apply h.idle
    intro j
    by_cases hjk : j = k
    · subst hjk
      exact hcopies
    · have hj := hnone j
      rwa [hposters, Function.update_of_ne hjk] at hj
  copying := by
    intro j retry task len hj
    rw [hposters] at hj
    by_cases hjk : j = k
    · subst hjk
      rw [Function.update_self] at hj
      rw [hj] at hpc
      exact absurd trivial hpc
    · rw [Function.update_of_ne hjk] at hj
      rw [hqueue]
      exact h.copying j retry task len hj
  took := by
    rw [hqueue]
    exact h.took
  atomic := hatomic

/-- A poster enters or leaves `mix_enqueue`, which changes the queue. -/
theorem moveQueue (h : Inv bits s) (hqueue : s'.queue.Inv bits)
    (hlocked : (s.posters k).Locked) (hholder : s'.holder = s.holder)
    (hposters : s'.posters = Function.update s.posters k pc)
    (hconsumer : s'.queue.consumer = s.queue.consumer)
    (hcopying : ∀ retry task len, pc = .copying retry task len →
      len ≤ 1 ∧ ∃ i, s'.queue.producer = .copy (fun _ => task) len i)
    (hidle : ¬ pc.Copies → s'.queue.producer = .idle)
    (hatomic : Atomic (fifoStep (2 ^ bits)) [] s'.history s'.contents
      s'.phase) : Inv bits s' where
  queue := hqueue
  locked := by
    intro j hj
    rw [hholder]
    by_cases hjk : j = k
    · subst hjk
      exact h.locked j hlocked
    · rw [hposters, Function.update_of_ne hjk] at hj
      exact h.locked j hj
  idle := by
    intro hnone
    have hk := hnone k
    rw [hposters, Function.update_self] at hk
    exact hidle hk
  copying := by
    intro j retry task len hj
    rw [hposters] at hj
    by_cases hjk : j = k
    · subst hjk
      rw [Function.update_self] at hj
      exact hcopying retry task len hj
    · rw [Function.update_of_ne hjk] at hj
      have hnot := h.not_copies_of_ne hlocked hjk
      rw [hj] at hnot
      exact absurd trivial hnot
  took := by
    rw [hconsumer]
    exact h.took
  atomic := hatomic

/-! ## Posters -/

theorem call (h : Inv bits s) (hpc : s.posters k = .idle) (retry : Bool)
    (task : α) :
    Inv bits { s.setPoster k (.lock retry task) with
      history := s.history ++ [.call (some k) (.enqueue task)] } := by
  refine h.movePoster (k := k) rfl rfl (by rw [hpc]; exact id) id
    (fun hlocked => hlocked.elim) (fun j _ hj => h.locked j hj) ?_
  exact h.atomic.call_of_eq (phase_some hpc) (phase_update rfl rfl)
    (phase_of_ne rfl rfl)

theorem acquire (h : Inv bits s) (hpc : s.posters k = .lock retry task)
    (hholder : s.holder = none) :
    Inv bits { s.setPoster k (.enqueue retry task) with
      holder := some k } := by
  refine h.movePoster (k := k) rfl rfl (by rw [hpc]; exact id) id
    (fun _ => rfl) ?_ ?_
  · intro j _ hj
    have hheld := h.locked j hj
    rw [hholder] at hheld
    cases hheld
  · exact h.atomic.congr rfl (phase_eq rfl rfl (phase_some hpc).symm)

theorem release (h : Inv bits s) {num : ℕ}
    (hpc : s.posters k = .unlock num) :
    Inv bits { s.setPoster k .idle with
      holder := none
      history := s.history ++ [.ret (some k) (.num num)] } := by
  refine h.movePoster (k := k) rfl rfl (by rw [hpc]; exact id) id
    (fun hlocked => hlocked.elim) ?_ ?_
  · intro j hjk hj
    refine absurd hj (h.not_locked_of_ne ?_ hjk)
    rw [hpc]
    trivial
  · exact h.atomic.ret_of_eq (phase_some hpc) (phase_update rfl rfl)
      (phase_of_ne rfl rfl)

/-- The poster reads `out`.  If the queue is full then, it is so at this
instant, though the worker may make room before the call returns. -/
theorem readOut (h : Inv bits s) (hbits : bits ≤ 31)
    (hpc : s.posters k = .enqueue retry task)
    (hstep : s.queue.step (.readOut (fun _ => task) 1) = some queue) :
    Inv bits { s.setPoster k (.copying retry task queue.producer.len) with
      queue := queue } := by
  have hqueue := h.queue.step hbits hstep
  have hlocked : (s.posters k).Locked := by
    rw [hpc]
    trivial
  have hroom := h.toNat_clamp_unused hbits
  have hcalled : s.phase (some k) = .called (.enqueue task) :=
    phase_some hpc
  cases Spsc.step_moves hstep with
  | readOut _ _ hidle =>
      set len := (clamp 1 (mixQueueUnused s.queue.mask s.queue.inCount
        s.queue.outCount)).toNat with hlen
      refine h.moveQueue hqueue hlocked rfl rfl rfl ?_ ?_ ?_
      · rintro retry' task' len' heq
        cases heq
        refine ⟨?_, 0, rfl⟩
        change len ≤ 1
        split_ifs at hroom <;> omega
      · exact fun hcopies => absurd trivial hcopies
      · by_cases hfull : len = 0 ∧ retry = false
        · obtain ⟨hzero, rfl⟩ := hfull
          have hnot : ¬ s.contents.length < 2 ^ bits := by
            intro hlt
            rw [if_pos hlt] at hroom
            omega
          have hstep : fifoStep (2 ^ bits) s.contents (.enqueue task) =
              (s.contents, .num 0) := if_neg hnot
          exact h.atomic.effect_of_eq hcalled hstep
            (phase_update rfl (if_pos ⟨hzero, rfl⟩)) (phase_of_ne rfl rfl)
        · refine h.atomic.congr rfl (phase_eq rfl rfl ?_)
          rw [hcalled]
          exact if_neg hfull

theorem copyIn (h : Inv bits s) (hbits : bits ≤ 31)
    (hpc : s.posters k = .copying retry task len)
    (hstep : s.queue.step .copyIn = some queue) :
    Inv bits { s with queue := queue } := by
  have hqueue := h.queue.step hbits hstep
  have hlocked : (s.posters k).Locked := by
    rw [hpc]
    trivial
  obtain ⟨hlen, i₀, hcopying⟩ := h.copying k retry task len hpc
  cases Spsc.step_moves hstep with
  | copyIn src len' i hproducer hi =>
      rw [hcopying, ProducerPc.copy.injEq] at hproducer
      obtain ⟨rfl, rfl, rfl⟩ := hproducer
      refine h.moveQueue (k := k) hqueue hlocked rfl
        (Function.update_eq_self k s.posters).symm rfl ?_ ?_ h.atomic
      · intro retry' task' len' heq
        rw [hpc] at heq
        cases heq
        exact ⟨hlen, i₀ + 1, rfl⟩
      · intro hcopies
        rw [hpc] at hcopies
        exact absurd trivial hcopies

/-- The poster publishes its task, or repeats a call that found no room. -/
theorem publishIn (h : Inv bits s) (hbits : bits ≤ 31)
    (hpc : s.posters k = .copying retry task len)
    (hstep : s.queue.step .publishIn = some queue) :
    Inv bits { s.setPoster k (if retry && len == 0 then .enqueue retry task
        else .unlock len) with
      queue := queue } := by
  have hqueue := h.queue.step hbits hstep
  have hlocked : (s.posters k).Locked := by
    rw [hpc]
    trivial
  obtain ⟨hlen, i₀, hcopying⟩ := h.copying k retry task len hpc
  have hphase := phase_some hpc
  cases Spsc.step_moves hstep with
  | publishIn src len' i hproducer hi =>
      rw [hcopying, ProducerPc.copy.injEq] at hproducer
      obtain ⟨rfl, rfl, rfl⟩ := hproducer
      set pc : PosterPc α := if retry && len == 0 then .enqueue retry task
        else .unlock len with hpcdef
      have hnot : ¬ pc.Copies := by
        rw [hpcdef]
        split_ifs <;> exact id
      refine h.moveQueue hqueue hlocked rfl rfl rfl ?_ (fun _ => rfl) ?_
      · intro retry' task' len' heq
        rw [heq] at hnot
        exact absurd trivial hnot
      · rcases Nat.le_one_iff_eq_zero_or_eq_one.mp hlen with rfl | rfl
        · -- nothing has been enqueued
          refine h.atomic.congr ?_ (phase_eq rfl rfl ?_)
          · simp [contents, Spsc.released]
          · rw [hphase, hpcdef]
            cases retry <;> rfl
        · have hproducer := h.queue.producer
          rw [hcopying, ProducerPc.len] at hproducer
          have hconsumer := h.queue.consumer
          have hroom : s.contents.length < 2 ^ bits := by
            rw [length_contents]
            omega
          have hcalled : s.phase (some k) = .called (.enqueue task) := hphase
          have hreleased : s.queue.released ≤ s.queue.enqueued.length := by
            omega
          have hstep : fifoStep (2 ^ bits) s.contents (.enqueue task) =
              ((s.queue.enqueued ++ (List.range 1).map fun _ => task).drop
                s.queue.released, .num 1) := by
            rw [fifoStep, if_pos hroom,
              List.drop_append_of_le_length hreleased]
            rfl
          refine h.atomic.effect_of_eq hcalled hstep (phase_update rfl ?_)
            (phase_of_ne rfl rfl)
          rw [hpcdef]
          cases retry <;> rfl

/-! ## The worker -/

/-- A step of the worker leaves the posters where they are. -/
theorem moveConsumer (h : Inv bits s) (hqueue : queue.Inv bits)
    (hproducer : queue.producer = s.queue.producer)
    (htook : ∀ len i, queue.consumer = .copy len i → len = 1)
    {history : List (HistoryEvent (Option κ) (QueueOp α) (QueueReply α))}
    (hatomic : Atomic (fifoStep (2 ^ bits)) [] history
      (contents { s with queue := queue, history := history })
      (phase { s with queue := queue, history := history })) :
    Inv bits { s with queue := queue, history := history } where
  queue := hqueue
  locked := h.locked
  idle := fun hnone => hproducer.trans (h.idle hnone)
  copying := by
    intro k retry task len hpc
    rw [hproducer]
    exact h.copying k retry task len hpc
  took := htook
  atomic := hatomic

/-- The worker reads `in`. -/
theorem readIn (h : Inv bits s) (hbits : bits ≤ 31)
    (hstep : s.queue.step (.readIn 1) = some queue) :
    Inv bits { s with
      queue := queue
      history := s.history ++
        match queue.consumer with
        | .idle => [.call none .dequeue, .ret none (.took none)]
        | .copy .. => [.call none .dequeue] } := by
  have hqueue := h.queue.step hbits hstep
  have hused := h.queue.toNat_used hbits
  cases hpc : s.queue.consumer with
  | copy len i => simp only [Spsc.step, hpc, reduceCtorEq] at hstep
  | idle =>
      have hidle : s.phase none = .idle := by
        simp only [phase, hpc]
      have hcalled : Atomic (fifoStep (2 ^ bits)) []
          (s.history ++ [.call none .dequeue]) s.contents
          (Function.update s.phase none (.called .dequeue)) :=
        h.atomic.call hidle .dequeue
      simp only [Spsc.step, hpc] at hstep
      split_ifs at hstep with hempty
      · obtain rfl := Option.some.inj hstep
        have hnil : s.contents = [] := by
          rw [hempty] at hused
          exact List.length_eq_zero_iff.mp
            ((length_contents s).trans hused.symm)
        have hdequeue : fifoStep (2 ^ bits) s.contents .dequeue =
            (s.contents, .took none) := by
          rw [hnil]
          rfl
        refine h.moveConsumer hqueue rfl h.took ?_
        rw [hpc]
        have hret := hcalled.effect_ret (Function.update_self _ _ _) hdequeue
          hidle fun q hq => (Function.update_of_ne hq _ _).symm
        rw [List.append_assoc] at hret
        exact hret
      · obtain rfl := Option.some.inj hstep
        refine h.moveConsumer hqueue rfl ?_ ?_
        · intro len i heq
          obtain ⟨rfl, -⟩ := ConsumerPc.copy.inj heq
          have hne : (s.queue.inCount - s.queue.outCount).toNat ≠ 0 := by
            intro hzero
            exact hempty (UInt32.toNat.inj hzero)
          rw [toNat_clamp]
          change min 1 _ = 1
          omega
        · refine hcalled.congr ?_ fun q => ?_
          · simp [contents, Spsc.released, hpc, ConsumerPc.copied]
          · cases q with
            | none => rw [Function.update_self]; rfl
            | some k => rw [Function.update_of_ne (by simp)]; rfl

theorem copyOut (h : Inv bits s) (hbits : bits ≤ 31)
    (hstep : s.queue.step .copyOut = some queue) :
    Inv bits { s with queue := queue } := by
  have hqueue := h.queue.step hbits hstep
  have hreleased := h.queue.released_add
  cases Spsc.step_moves hstep with
  | copyOut len i hpc hi =>
      refine h.moveConsumer hqueue rfl ?_ (h.atomic.congr ?_ fun q => ?_)
      · intro len' i' heq
        obtain ⟨rfl, -⟩ := ConsumerPc.copy.inj heq
        exact h.took _ i hpc
      · rw [hpc, ConsumerPc.copied] at hreleased
        have hsame : s.queue.dequeued.length + 1 - (i + 1) =
            s.queue.released := by omega
        simp only [contents, Spsc.released, ConsumerPc.copied,
          List.length_append, List.length_singleton, hsame]
      · cases q with
        | none => simp only [phase, hpc]
        | some k => rfl

/-- The worker has copied the first task of the queue. -/
theorem publishOut (h : Inv bits s) (hbits : bits ≤ 31)
    (hstep : s.queue.step .publishOut = some queue) :
    Inv bits { s with
      queue := queue
      history := s.history ++
        [.ret none (.took queue.dequeued.getLast?)] } := by
  have hqueue := h.queue.step hbits hstep
  have hreleased := h.queue.released_add
  have hcopied := h.queue.copied_le
  cases Spsc.step_moves hstep with
  | publishOut len i hpc hi =>
      obtain rfl := h.took len i hpc
      rw [hpc, ConsumerPc.copied] at hreleased
      rw [hpc, ConsumerPc.copied, ConsumerPc.len] at hcopied
      obtain rfl : i = 1 := Nat.le_antisymm hcopied hi
      have hcalled : s.phase none = .called .dequeue := by
        simp only [phase, hpc]
      have hne : s.queue.dequeued ≠ [] := by
        intro hnil
        rw [hnil] at hreleased
        simp at hreleased
      obtain ⟨tasks, task, hlast⟩ :=
        (List.eq_nil_or_concat s.queue.dequeued).resolve_left hne
      rw [List.concat_eq_append] at hlast
      obtain ⟨rest, horder⟩ := h.queue.order
      have hlength : s.queue.released = tasks.length := by
        rw [hlast, List.length_append, List.length_singleton] at hreleased
        omega
      have hcontents : s.contents = task :: rest := by
        rw [contents, ← horder, hlast, hlength, List.append_assoc,
          List.drop_left]
        rfl
      have hdequeue : fifoStep (2 ^ bits) s.contents .dequeue =
          (rest, .took s.queue.dequeued.getLast?) := by
        rw [hcontents, hlast, List.getLast?_append_cons]
        rfl
      refine h.moveConsumer hqueue rfl ?_ ?_
      · intro len i heq
        cases heq
      · have hrest : rest =
            s.queue.enqueued.drop s.queue.dequeued.length := by
          rw [← horder, List.drop_left]
        rw [hrest] at hdequeue
        refine h.atomic.effect_ret hcalled hdequeue rfl fun q hq => ?_
        cases q with
        | none => exact absurd rfl hq
        | some k => rfl

/-! ## Runs -/

/-- Every step keeps the invariant. -/
theorem step (h : Inv bits s) (hbits : bits ≤ 31) {a : LockedStep κ α}
    (hstep : s.step a = some s') : Inv bits s' := by
  cases a with
  | call k retry task =>
      cases hpc : s.posters k with
      | idle =>
          simp only [LockedQueue.step, hpc, Option.some.injEq] at hstep
          exact hstep ▸ h.call hpc retry task
      | lock | enqueue | copying | unlock =>
          simp only [LockedQueue.step, hpc, reduceCtorEq] at hstep
  | acquire k =>
      cases hpc : s.posters k with
      | lock retry task =>
          cases hholder : s.holder with
          | none =>
              simp only [LockedQueue.step, hpc, hholder, Option.some.injEq]
                at hstep
              exact hstep ▸ h.acquire hpc hholder
          | some j =>
              simp only [LockedQueue.step, hpc, hholder, reduceCtorEq]
                at hstep
      | idle | enqueue | copying | unlock =>
          simp only [LockedQueue.step, hpc, reduceCtorEq] at hstep
  | readOut k =>
      cases hpc : s.posters k with
      | enqueue retry task =>
          simp only [LockedQueue.step, hpc, Option.map_eq_some_iff] at hstep
          obtain ⟨queue, hqueue, rfl⟩ := hstep
          exact h.readOut hbits hpc hqueue
      | idle | lock | copying | unlock =>
          simp only [LockedQueue.step, hpc, reduceCtorEq] at hstep
  | copyIn k =>
      cases hpc : s.posters k with
      | copying retry task len =>
          simp only [LockedQueue.step, hpc, Option.map_eq_some_iff] at hstep
          obtain ⟨queue, hqueue, rfl⟩ := hstep
          exact h.copyIn hbits hpc hqueue
      | idle | lock | enqueue | unlock =>
          simp only [LockedQueue.step, hpc, reduceCtorEq] at hstep
  | publishIn k =>
      cases hpc : s.posters k with
      | copying retry task len =>
          simp only [LockedQueue.step, hpc, Option.map_eq_some_iff] at hstep
          obtain ⟨queue, hqueue, rfl⟩ := hstep
          exact h.publishIn hbits hpc hqueue
      | idle | lock | enqueue | unlock =>
          simp only [LockedQueue.step, hpc, reduceCtorEq] at hstep
  | release k =>
      cases hpc : s.posters k with
      | unlock num =>
          simp only [LockedQueue.step, hpc, Option.some.injEq] at hstep
          exact hstep ▸ h.release hpc
      | idle | lock | enqueue | copying =>
          simp only [LockedQueue.step, hpc, reduceCtorEq] at hstep
  | readIn =>
      rw [LockedQueue.step, Option.map_eq_some_iff] at hstep
      obtain ⟨queue, hqueue, rfl⟩ := hstep
      exact h.readIn hbits hqueue
  | copyOut =>
      rw [LockedQueue.step, Option.map_eq_some_iff] at hstep
      obtain ⟨queue, hqueue, rfl⟩ := hstep
      exact h.copyOut hbits hqueue
  | publishOut =>
      rw [LockedQueue.step, Option.map_eq_some_iff] at hstep
      obtain ⟨queue, hqueue, rfl⟩ := hstep
      exact h.publishOut hbits hqueue

end Inv

/-- In every interleaving of any number of posters with the worker the queue is
a bounded list with atomic operations, one poster at a time is inside the lock,
and no slot is copied by two parties. -/
theorem lockedQueue_linearizable (bits : ℕ) (hbits : bits ≤ 31)
    {mask : UInt32} (hmask : mask.toNat = 2 ^ bits - 1) (cell : ℕ → α)
    (steps : List (LockedStep κ α)) :
    AllStates step (Safe (2 ^ bits)) (new mask cell) steps :=
  (allStates_of_invariant (fun _ _ _ hinv => hinv.step hbits)
    (new_inv hmask cell)).mono fun _ hinv => hinv.safe hbits

/-- Two posters contend for a queue of two slots while the worker polls it. -/
theorem lockedQueue_linearizable_contended :
    AllStates step (Safe 2) (new 1 fun i => i : LockedQueue (Fin 2) ℕ)
      [.call 0 true 7, .call 1 false 8, .acquire 1, .readOut 1, .readIn,
        .copyIn 1, .publishIn 1, .release 1, .acquire 0, .readIn, .readOut 0,
        .copyOut, .copyIn 0, .publishIn 0, .publishOut, .release 0] :=
  lockedQueue_linearizable 1 (by decide) (by decide) _ _

end LockedQueue

end Uhs
