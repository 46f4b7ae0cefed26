import Uhs.Store.Steps
import Uhs.Support.Turns

/-!
# Turns of the queues

A worker looks into its queue for the NVM zone and into its buffer queue in
turn, and takes one task at a time.  So neither queue is starved, whatever is
posted to the other.
-/

namespace Uhs

open Support

variable {T : ℕ} {σ β : Type*} [BlockDevice σ β]

/-- The queues of worker `i`: the one that is looked into when `seq` is odd,
and the other one. -/
def System.lane (s : System T σ β) (i : Fin 4) : Bool → List (IoTask β)
  | true => s.nvmQueue i
  | false => s.bufferQueue i

/-- The queue that worker `i` looks into next. -/
def System.turn (s : System T σ β) (i : Fin 4) : Bool :=
  decide (s.seq i % 2 = 1)

/-- The store with a history that no step reads: how often one worker has
looked into each of its queues, and the tasks that it has taken. -/
structure Polled (T : ℕ) (σ β : Type*) where
  system : System T σ β
  polls : Bool → ℕ
  taken : Bool → List (IoTask β)

/-- The history after a step. -/
def Polled.record (p : Polled T σ β) (i : Fin 4) :
    SystemEvent T β → (Bool → ℕ) × (Bool → List (IoTask β))
  | .worker j =>
      if j = i then
        match p.system.workers i with
        | .ready =>
            let turn := p.system.turn i
            (Function.update p.polls turn (p.polls turn + 1),
              Function.update p.taken turn
                (p.taken turn ++ (p.system.lane i turn).head?.toList))
        | _ => (p.polls, p.taken)
      else (p.polls, p.taken)
  | _ => (p.polls, p.taken)

def polledStep (i : Fin 4) (p : Polled T σ β) (event : SystemEvent T β) :
    Option (Polled T σ β) :=
  (systemStep p.system event).map fun system =>
    { system := system
      polls := (p.record i event).1
      taken := (p.record i event).2 }

def Polled.initial (s : System T σ β) : Polled T σ β :=
  ⟨s, fun _ => 0, fun _ => []⟩

/-- The two queues of worker `i` with its history. -/
def Polled.turns (p : Polled T σ β) (i : Fin 4) : Turns (IoTask β) :=
  ⟨p.system.turn i, p.system.lane i, p.polls, p.taken⟩

variable {s s' : System T σ β} {i j : Fin 4} {event : SystemEvent T β}

/-! ## One step -/

omit [BlockDevice σ β] in
theorem dispatch_seq (s : System T σ β) (i : Fin 4) (task : IoTask β) :
    (dispatch s i task).seq = s.seq := by
  unfold dispatch
  split <;> rfl

omit [BlockDevice σ β] in
theorem dispatch_lane (s : System T σ β) (i j : Fin 4) (task : IoTask β) :
    (dispatch s i task).lane j = s.lane j := by
  obtain ⟨-, hnvm, hbuffer, -⟩ := dispatch_fields s i task
  funext lane
  cases lane with
  | true => exact congrFun hnvm j
  | false => exact congrFun hbuffer j

omit [BlockDevice σ β] in
theorem workerPoll_seq (s : System T σ β) (i : Fin 4) :
    (workerPoll s i).seq =
      Function.update s.seq i ((s.seq i + 1) % 2 ^ 8) := by
  unfold workerPoll
  split
  · split
    · rfl
    · rw [dispatch_seq]
      rfl
  · split
    · rfl
    · rw [dispatch_seq]
      rfl

omit [BlockDevice σ β] in
/-- A poll takes the first task of the queue whose turn it is. -/
theorem workerPoll_lane (s : System T σ β) (i : Fin 4) :
    (workerPoll s i).lane i =
      Function.update (s.lane i) (s.turn i) (s.lane i (s.turn i)).tail := by
  funext lane
  unfold workerPoll System.turn
  by_cases hseq : s.seq i % 2 = 1
  · simp only [hseq, if_true, decide_true]
    cases hqueue : s.nvmQueue i with
    | nil => cases lane <;> simp [System.lane, hqueue]
    | cons task rest =>
        rw [dispatch_lane]
        cases lane <;> simp [System.lane, System.setNvmQueue, hqueue]
  · simp only [hseq, if_false, decide_false]
    cases hqueue : s.bufferQueue i with
    | nil => cases lane <;> simp [System.lane, hqueue]
    | cons task rest =>
        rw [dispatch_lane]
        cases lane <;> simp [System.lane, System.setBufferQueue, hqueue]

omit [BlockDevice σ β] in
/-- The other queue is next. -/
theorem workerPoll_turn (s : System T σ β) (i : Fin 4) :
    (workerPoll s i).turn i = !s.turn i := by
  rw [System.turn, workerPoll_seq, Function.update_self, System.turn]
  by_cases hseq : s.seq i % 2 = 1
  · have hnext : ¬ (s.seq i + 1) % 2 ^ 8 % 2 = 1 := by omega
    rw [decide_eq_false hnext, decide_eq_true hseq]
    rfl
  · have hnext : (s.seq i + 1) % 2 ^ 8 % 2 = 1 := by omega
    rw [decide_eq_true hnext, decide_eq_false hseq]
    rfl

omit [BlockDevice σ β] in
theorem workerPoll_lane_of_ne (hij : i ≠ j) :
    (workerPoll s j).lane i = s.lane i := by
  funext lane
  unfold workerPoll
  split
  · split
    · cases lane <;> rfl
    · rw [dispatch_lane]
      cases lane with
      | true => exact Function.update_of_ne hij _ _
      | false => rfl
  · split
    · cases lane <;> rfl
    · rw [dispatch_lane]
      cases lane with
      | true => rfl
      | false => exact Function.update_of_ne hij _ _

/-- The queues of worker `i` may grow, and its turn stays. -/
def System.Waits (s s' : System T σ β) (i : Fin 4) : Prop :=
  s'.turn i = s.turn i ∧ ∀ lane, s.lane i lane <+: s'.lane i lane

omit [BlockDevice σ β] in
theorem System.Waits.of_eq (hseq : s'.seq = s.seq)
    (hnvm : s'.nvmQueue = s.nvmQueue)
    (hbuffer : s'.bufferQueue = s.bufferQueue) : s.Waits s' i := by
  refine ⟨by rw [System.turn, hseq, System.turn], fun lane => ?_⟩
  cases lane with
  | true =>
      rw [System.lane, System.lane, hnvm]
  | false =>
      rw [System.lane, System.lane, hbuffer]

theorem ssdTransfer_seq (s : System T σ β) (c : Fin 16) (task : IoTask β) :
    (ssdTransfer s c task).seq = s.seq := by
  unfold ssdTransfer
  split
  · rfl
  · split <;> rfl

omit [BlockDevice σ β] in
/-- A post appends to one queue. -/
theorem prefix_append_update (queues : Fin 4 → List (IoTask β)) (q : Fin 4)
    (posted : List (IoTask β)) (i : Fin 4) :
    queues i <+: Function.update queues q (queues q ++ posted) i := by
  by_cases hi : i = q
  · subst hi
    rw [Function.update_self]
    exact List.prefix_append _ _
  · rw [Function.update_of_ne hi]

theorem clientStep_waits {c : Fin 16} (hstep : clientStep s c = some s') :
    s.Waits s' i := by
  cases clientStep_moves hstep with
  | @postNvm task hpc queue hqueue =>
      refine ⟨rfl, fun lane => ?_⟩
      cases lane with
      | true =>
          rcases hqueue with rfl | rfl
          · have happend := prefix_append_update s.nvmQueue
              (smallQueue task) [] i
            rwa [List.append_nil] at happend
          · exact prefix_append_update _ _ _ i
      | false => exact List.prefix_rfl
  | postSmall hpc | postSub hpc =>
      refine ⟨rfl, fun lane => ?_⟩
      cases lane with
      | true => exact List.prefix_rfl
      | false => exact prefix_append_update _ _ _ i
  | @ssd task hpc =>
      obtain ⟨-, -, -, -, hnvm, hbuffer, -⟩ := ssdTransfer_fields s c task
      exact .of_eq (ssdTransfer_seq s c task) hnvm hbuffer
  | posted hpc | wait hpc hinflight | «return» hpc =>
      exact .of_eq rfl rfl rfl

/-- Every step but a poll of worker `i` lets its tasks wait. -/
theorem systemStep_waits (hstep : systemStep s event = some s')
    (hpoll : event = .worker i → s.workers i ≠ .ready) : s.Waits s' i := by
  cases event with
  | call c request =>
      obtain ⟨-, rfl⟩ := systemStep_call_eq hstep
      exact .of_eq rfl rfl rfl
  | client c => exact clientStep_waits hstep
  | migrate j =>
      obtain ⟨-, rfl⟩ := systemStep_migrate_eq hstep
      exact .of_eq rfl rfl rfl
  | coord | thread t =>
      simp only [systemStep, Option.map_eq_some_iff] at hstep
      obtain ⟨m, -, rfl⟩ := hstep
      exact .of_eq rfl rfl rfl
  | worker j =>
      have hstep : workerStep s j = some s' := hstep
      by_cases hready : s.workers j = .ready
      · have hij : i ≠ j := by
          rintro rfl
          exact hpoll rfl hready
        simp only [workerStep, hready, Option.some.injEq] at hstep
        subst hstep
        refine ⟨?_, fun lane => ?_⟩
        · rw [System.turn, workerPoll_seq, Function.update_of_ne hij,
            System.turn]
        · rw [workerPoll_lane_of_ne hij]
      · cases workerStep_moves hstep with
        | poll hpc _ | takeNvm hpc _ _ | takeBuffer hpc _ _ =>
            exact absurd hpc hready
        | nvmRead _ _ | nvmReadEnd _ _ | nvmWrite _ _ | nvmWriteEnd _ _
        | finish _ | redirect _ => exact .of_eq rfl rfl rfl

/-- In each step worker `i` polls, or its queues may grow. -/
theorem polledStep_turns {p p' : Polled T σ β}
    (hstep : polledStep i p event = some p') :
    p'.turns i = (p.turns i).poll ∨ (p.turns i).Posts (p'.turns i) := by
  simp only [polledStep, Option.map_eq_some_iff] at hstep
  obtain ⟨system, hsystem, rfl⟩ := hstep
  by_cases hpoll : event = .worker i ∧ p.system.workers i = .ready
  · obtain ⟨rfl, hready⟩ := hpoll
    simp only [systemStep, workerStep, hready, Option.some.injEq] at hsystem
    subst hsystem
    left
    simp only [Polled.turns, Polled.record, if_true, hready, Turns.poll,
      workerPoll_turn, workerPoll_lane]
  · have hwaits := systemStep_waits hsystem fun heq hready =>
      hpoll ⟨heq, hready⟩
    have hrecord : p.record i event = (p.polls, p.taken) := by
      unfold Polled.record
      split
      · split
        · rename_i hj
          subst hj
          split
          · exact absurd ⟨rfl, ‹_›⟩ hpoll
          · rfl
        · rfl
      · rfl
    exact Or.inr
      { turn := hwaits.1
        queue := hwaits.2
        polls := congrArg Prod.fst hrecord
        taken := congrArg Prod.snd hrecord }

/-! ## Runs -/

/-- From every state of the store and in every run, the tasks in the two
queues of a worker are taken in order, and one with `k` tasks before it within
`2 * k + 2` polls of the worker. -/
theorem polls_serve (s : System T σ β) (i : Fin 4)
    (events : List (SystemEvent T β)) :
    AllStates (polledStep i) (fun p => (p.turns i).Serves (s.lane i))
      (.initial s) events := by
  refine (allStates_of_invariant
    (I := fun p => (p.turns i).Inv (s.lane i)) (fun p event p' h hstep => ?_)
    (Turns.start_inv (s.turn i) (s.lane i))).mono fun p h => h.serves
  rcases polledStep_turns hstep with hpoll | hposts
  · rw [hpoll]
    exact h.poll
  · exact h.posts hposts

end Uhs
