import Uhs.Segment.Operations
import Uhs.Store.Mutex

/-!
# Invalidation by a large write

A write of more than one block posts sub-tasks that are to clear the blocks of
its range from the buffer.  Their opcode has the write bit next to the clear
bit, so the opcode switch of a worker has no branch for them: the workers
dequeue them and leave the buffer alone.
-/

namespace Uhs

open Support

variable {T : ℕ} {σ β : Type*}

/-! ## The range of a large write and its invalidation -/

/-- A write to the SSD range of more than one block. -/
structure Request.LargeWrite (request : Request β) : Prop where
  isWrite : request.isWrite = true
  flags : request.flags = 0
  ssd : nvmThreshold ≤ request.offset
  len : 1 < request.len
  lt : request.offset - nvmThreshold + request.len ≤ 2 ^ 31

/-- Block `lba` of the SSD lies in the range of the request. -/
def Request.CoversLba (request : Request β) (lba : ℕ) : Prop :=
  request.offset - nvmThreshold ≤ lba ∧
    lba < request.offset - nvmThreshold + request.len

instance (request : Request β) : DecidablePred request.CoversLba :=
  fun _ => inferInstanceAs (Decidable (_ ∧ _))

/-- Block `lba` is mapped in the index of some segment. -/
def Buffered (m : MixMetadata) (lba : ℕ) : Prop :=
  ∃ idx, lba ∈ (m.hash idx).keys

instance (m : MixMetadata) : DecidablePred (Buffered m) :=
  fun _ => inferInstanceAs (Decidable (∃ _, _))

/-- From `s` to `s'` the buffered blocks of the range have been invalidated,
and all others have kept their mapping. -/
structure Invalidates (request : Request β) (s s' : Store σ β) : Prop where
  unmapped : ∀ lba, request.CoversLba lba → Buffered s.metaData lba →
    ¬ Buffered s'.metaData lba
  cleared : ∀ idx, ∀ kv ∈ (s.metaData.hash idx).entries,
    request.CoversLba kv.1 →
    (s'.dev.bufferMeta (s.metaData.bufferBlock idx (kv.2 : ℕ))).status = 0 ∧
      mixBitmapTestBit (s'.metaData.segments idx).bitmap kv.2 = false
  kept : ∀ idx kv, ¬ request.CoversLba kv.1 →
    (kv ∈ (s'.metaData.hash idx).entries ↔
      kv ∈ (s.metaData.hash idx).entries)

/-! ## Steps that leave the buffer alone -/

/-- What the posting functions post for a client. -/
def ClientPc.Routed : ClientPc β → Prop
  | .postNvm task => task.type = .nvm
  | .postSub task _ => workerBranch task = .skip
  | _ => True

/-- The client is not about to post a buffered write. -/
def ClientPc.Still : ClientPc β → Prop
  | .postSmall _ => False
  | _ => True

instance : DecidablePred (ClientPc.Still (β := β))
  | .idle => isTrue trivial
  | .postNvm _ => isTrue trivial
  | .postSmall _ => isFalse fun h => h
  | .postSub _ _ => isTrue trivial
  | .ssd _ => isTrue trivial
  | .wait _ => isTrue trivial
  | .returned _ => isTrue trivial

/-- The worker is outside of `redirect_write` and of `mix_migrate_segment`. -/
def WorkerPc.Still : WorkerPc β → Prop
  | .ready => True
  | .nvmRead _ _ => True
  | .nvmWrite _ _ => True
  | .finish _ _ => True
  | _ => False

instance : DecidablePred (WorkerPc.Still (β := β))
  | .ready => isTrue trivial
  | .nvmRead _ _ => isTrue trivial
  | .nvmWrite _ _ => isTrue trivial
  | .start _ => isFalse fun h => h
  | .lock _ => isFalse fun h => h
  | .migrating _ => isFalse fun h => h
  | .data _ _ => isFalse fun h => h
  | .record _ _ => isFalse fun h => h
  | .finish _ _ => isTrue trivial

/-- The queues are empty, and neither a buffered write nor a migration is
under way. -/
structure System.Settled (s : System T σ β) : Prop where
  nvmQueue : ∀ i, s.nvmQueue i = []
  bufferQueue : ∀ i, s.bufferQueue i = []
  clients : ∀ c, (s.clients c).Still
  workers : ∀ i, (s.workers i).Still

instance (s : System T σ β) : Decidable s.Settled :=
  decidable_of_iff
    ((∀ i, s.nvmQueue i = []) ∧ (∀ i, s.bufferQueue i = []) ∧
      (∀ c, (s.clients c).Still) ∧ ∀ i, (s.workers i).Still)
    ⟨fun h => ⟨h.1, h.2.1, h.2.2.1, h.2.2.2⟩,
      fun h => ⟨h.nvmQueue, h.bufferQueue, h.clients, h.workers⟩⟩

/-- The steps that follow a call: those of the parties. -/
def SystemEvent.Follows : SystemEvent T β → Prop
  | .call _ _ => False
  | .migrate _ => False
  | _ => True

instance : DecidablePred (SystemEvent.Follows (T := T) (β := β))
  | .call _ _ => isFalse fun h => h
  | .migrate _ => isFalse fun h => h
  | .client _ => isTrue trivial
  | .worker _ => isTrue trivial
  | .coord => isTrue trivial
  | .thread _ => isTrue trivial

theorem ClientPc.routed_post (task : IoTask β) :
    (ClientPc.post task).Routed := by
  unfold ClientPc.post
  split
  · assumption
  · rename_i htype
    unfold mixPostTaskToData
    split
    · trivial
    · split
      · rename_i hlarge
        exact workerBranch_clear hlarge.1 htype
      · split <;> trivial

theorem mixPostTaskToIo_len (task : IoTask β) :
    (mixPostTaskToIo task).len = task.len := by
  unfold mixPostTaskToIo
  split <;> rfl

/-- Only a request for a single block is posted to the buffer. -/
theorem ClientPc.still_post {task : IoTask β} (hlen : 1 < task.len) :
    (ClientPc.post task).Still := by
  unfold ClientPc.post
  split
  · trivial
  · unfold mixPostTaskToData
    split
    · rename_i hsmall
      have hle : task.len ≤ 1 := hsmall.2
      omega
    · split
      · trivial
      · split <;> trivial

variable {s s' : System T σ β}

section Routed

variable [BlockDevice σ β]

/-- The tasks that are being posted are routed in every reachable state. -/
theorem systemStep_routed {event : SystemEvent T β}
    (h : ∀ c, (s.clients c).Routed)
    (hstep : systemStep s event = some s') (c : Fin 16) :
    (s'.clients c).Routed := by
  have hset : ∀ {pc : ClientPc β} (d : Fin 16), pc.Routed →
      (Function.update s.clients d pc c).Routed := by
    intro pc d hpc
    by_cases hc : c = d
    · rw [hc, Function.update_self]
      exact hpc
    · rw [Function.update_of_ne hc]
      exact h c
  cases event with
  | call d request =>
      simp only [systemStep] at hstep
      split at hstep
      · cases hstep
        exact hset d (ClientPc.routed_post _)
      · cases hstep
  | client d =>
      cases clientStep_moves hstep with
      | postSub hpc =>
          have hrouted := h d
          rw [hpc] at hrouted
          exact hset d hrouted
      | @ssd task hpc =>
          change (Function.update (ssdTransfer s d task).clients d _ c).Routed
          rw [(ssdTransfer_fields s d task).1]
          exact hset d trivial
      | postNvm _ _ | postSmall _ | posted _ | wait _ _ | «return» _ =>
          exact hset d trivial
  | worker i =>
      cases workerStep_moves hstep with
      | takeNvm _ _ _ | takeBuffer _ _ _ =>
          rw [(dispatch_fields _ i _).1]
          exact h c
      | poll _ _ | nvmRead _ _ | nvmReadEnd _ _ | nvmWrite _ _
      | nvmWriteEnd _ _ | finish _ | redirect _ => exact h c
  | migrate i =>
      simp only [systemStep] at hstep
      split at hstep
      · cases hstep
        exact h c
      · cases hstep
  | coord | thread t =>
      simp only [systemStep, Option.map_eq_some_iff] at hstep
      obtain ⟨m, -, rfl⟩ := hstep
      exact h c

end Routed

/-- The tasks are for the NVM range. -/
def AllNvm (queue : List (IoTask β)) : Prop :=
  ∀ task ∈ queue, task.type = .nvm

/-- The workers have no branch for the tasks. -/
def AllSkipped (queue : List (IoTask β)) : Prop :=
  ∀ task ∈ queue, workerBranch task = .skip

/-- Nothing that is under way or in a queue touches the buffer. -/
structure StillInv (s : System T σ β) : Prop where
  mutex : MutexInv s
  routed : ∀ c, (s.clients c).Routed
  clients : ∀ c, (s.clients c).Still
  workers : ∀ i, (s.workers i).Still
  nvmQueue : ∀ i, AllNvm (s.nvmQueue i)
  bufferQueue : ∀ i, AllSkipped (s.bufferQueue i)

/-- The index, the bitmaps and the slot records are what they were. -/
structure SameBuffer (s s' : System T σ β) : Prop where
  metaData : s'.machine.store.metaData = s.machine.store.metaData
  bufferMeta : s'.machine.store.dev.bufferMeta =
    s.machine.store.dev.bufferMeta

theorem SameBuffer.of_machine_eq (h : s'.machine = s.machine) :
    SameBuffer s s' :=
  ⟨by rw [h], by rw [h]⟩

theorem StillInv.idle (h : StillInv s) : s.machine.coord = .idle := by
  refine (CoordPc.eq_idle_or_held _).resolve_right ?_
  rintro ⟨j, hheld⟩
  obtain ⟨task, htask⟩ := h.mutex.held j hheld
  have hstill := h.workers j
  rw [htask] at hstill
  exact hstill

section Update

variable {ι α : Type*} [DecidableEq ι] {f : ι → α} {P : α → Prop}

theorem forall_update (h : ∀ i, P (f i)) (i : ι) {x : α} (hx : P x) (j : ι) :
    P (Function.update f i x j) :=
  (Function.forall_update_iff f fun _ => P).mpr ⟨hx, fun j _ => h j⟩ j

end Update

theorem dispatch_still {i : Fin 4} {task : IoTask β}
    (hworkers : ∀ j, (s.workers j).Still)
    (htask : task.type = .nvm ∨ workerBranch task = .skip) :
    (∀ j, ((dispatch s i task).workers j).Still) ∧
      (dispatch s i task).machine = s.machine := by
  have hbranch : workerBranch task = .nvmRead ∨
      workerBranch task = .nvmWrite ∨ workerBranch task = .skip := by
    rcases htask with htype | hskip
    · simp only [workerBranch, htype]
      split
      · exact Or.inl rfl
      · split
        · exact Or.inr (Or.inl rfl)
        · exact Or.inr (Or.inr rfl)
    · exact Or.inr (Or.inr hskip)
  unfold dispatch
  rcases hbranch with hbranch | hbranch | hbranch <;> rw [hbranch]
  · exact ⟨forall_update hworkers i trivial, rfl⟩
  · exact ⟨forall_update hworkers i trivial, rfl⟩
  · exact ⟨hworkers, rfl⟩

variable [BlockDevice σ β]

/-- A step of a client. -/
theorem StillInv.clientStep {c : Fin 16} (h : StillInv s)
    (hmutex : MutexInv s') (hrouted : ∀ d, (s'.clients d).Routed)
    (hstep : clientStep s c = some s') : StillInv s' ∧ SameBuffer s s' := by
  obtain ⟨⟨dev, hmachine, hmeta⟩, hworkers⟩ := clientStep_aside hstep
  have hsame : SameBuffer s s' := by
    constructor
    · rw [hmachine]
      rfl
    · rw [hmachine]
      exact hmeta
  have hstill : ∀ i, (s'.workers i).Still := hworkers ▸ h.workers
  refine ⟨?_, hsame⟩
  cases clientStep_moves hstep with
  | postNvm hpc hqueue =>
      have htype := h.routed c
      rw [hpc] at htype
      refine ⟨hmutex, hrouted, forall_update h.clients c trivial, hstill,
        forall_update (P := AllNvm) h.nvmQueue _ ?_, h.bufferQueue⟩
      intro task htask
      rcases hqueue with rfl | rfl
      · exact h.nvmQueue _ task htask
      · rcases List.mem_append.mp htask with htask | htask
        · exact h.nvmQueue _ task htask
        · rw [List.mem_singleton.mp htask]
          exact htype
  | postSmall hpc =>
      have hclient := h.clients c
      rw [hpc] at hclient
      exact hclient.elim
  | postSub hpc =>
      have hskip := h.routed c
      rw [hpc] at hskip
      refine ⟨hmutex, hrouted, forall_update h.clients c trivial, hstill,
        h.nvmQueue, forall_update (P := AllSkipped) h.bufferQueue _ ?_⟩
      intro task htask
      rcases List.mem_append.mp htask with htask | htask
      · exact h.bufferQueue _ task htask
      · rw [List.mem_singleton.mp htask]
        exact (workerBranch_subTask _ _).trans hskip
  | posted _ | wait _ _ | «return» _ =>
      exact ⟨hmutex, hrouted, forall_update h.clients c trivial, hstill,
        h.nvmQueue, h.bufferQueue⟩
  | @ssd task hpc =>
      obtain ⟨hclients, -, -, -, hnvm, hbuffer, -⟩ :=
        ssdTransfer_fields s c task
      refine ⟨hmutex, hrouted, ?_, hstill, ?_, ?_⟩
      · exact forall_update (hclients ▸ h.clients) c trivial
      · exact hnvm ▸ h.nvmQueue
      · exact hbuffer ▸ h.bufferQueue

omit [BlockDevice σ β] in
/-- A worker takes a task out of its queue. -/
theorem StillInv.dispatch {i : Fin 4} {task : IoTask β}
    (h : StillInv s) (hmutex : MutexInv (dispatch s i task))
    (hrouted : ∀ c, ((dispatch s i task).clients c).Routed)
    (htask : task.type = .nvm ∨ workerBranch task = .skip) :
    StillInv (dispatch s i task) := by
  obtain ⟨hworkers, -⟩ := dispatch_still h.workers htask
  obtain ⟨hclients, hnvm, hbuffer, -⟩ := dispatch_fields s i task
  refine ⟨hmutex, hrouted, ?_, hworkers, ?_, ?_⟩
  · rw [hclients]
    exact h.clients
  · rw [hnvm]
    exact h.nvmQueue
  · rw [hbuffer]
    exact h.bufferQueue

omit [BlockDevice σ β] in
/-- A step of a worker. -/
theorem StillInv.workerStep {i : Fin 4} (h : StillInv s)
    (hmutex : MutexInv s') (hrouted : ∀ c, (s'.clients c).Routed)
    (hstep : workerStep s i = some s') : StillInv s' ∧ SameBuffer s s' := by
  cases workerStep_moves hstep with
  | poll _ _ =>
      exact ⟨⟨hmutex, hrouted, h.clients, h.workers, h.nvmQueue,
        h.bufferQueue⟩, ⟨rfl, rfl⟩⟩
  | @takeNvm _ seq task rest hqueue =>
      have hrest : ∀ j, AllNvm (Function.update s.nvmQueue i rest j) :=
        forall_update (P := AllNvm) h.nvmQueue i fun task htask =>
          h.nvmQueue i task (hqueue ▸ List.mem_cons_of_mem _ htask)
      have hpopped : StillInv
          (System.setNvmQueue { s with seq := seq } i rest) :=
        ⟨⟨h.mutex.handshake, h.mutex.held⟩, h.routed, h.clients, h.workers,
          hrest, h.bufferQueue⟩
      have htask : task.type = .nvm ∨ workerBranch task = .skip :=
        Or.inl (h.nvmQueue i task (hqueue ▸ List.mem_cons_self))
      exact ⟨hpopped.dispatch hmutex hrouted htask,
        .of_machine_eq (dispatch_still hpopped.workers htask).2⟩
  | @takeBuffer _ seq task rest hqueue =>
      have hrest : ∀ j, AllSkipped (Function.update s.bufferQueue i rest j) :=
        forall_update (P := AllSkipped) h.bufferQueue i fun task htask =>
          h.bufferQueue i task (hqueue ▸ List.mem_cons_of_mem _ htask)
      have hpopped : StillInv
          (System.setBufferQueue { s with seq := seq } i rest) :=
        ⟨⟨h.mutex.handshake, h.mutex.held⟩, h.routed, h.clients, h.workers,
          h.nvmQueue, hrest⟩
      have htask : task.type = .nvm ∨ workerBranch task = .skip :=
        Or.inr (h.bufferQueue i task (hqueue ▸ List.mem_cons_self))
      exact ⟨hpopped.dispatch hmutex hrouted htask,
        .of_machine_eq (dispatch_still hpopped.workers htask).2⟩
  | nvmRead _ _ | nvmReadEnd _ _ | nvmWrite _ _ | nvmWriteEnd _ _
  | finish _ =>
      exact ⟨⟨hmutex, hrouted, h.clients,
        forall_update h.workers i trivial, h.nvmQueue, h.bufferQueue⟩,
        ⟨rfl, rfl⟩⟩
  | redirect hmoved =>
      have hworker := h.workers i
      generalize hpc : s.workers i = pc at hworker hmoved
      cases pc with
      | ready | nvmRead _ _ | nvmWrite _ _ | finish _ _ => cases hmoved
      | start _ | lock _ | migrating _ | data _ _ | record _ _ =>
          exact hworker.elim

/-- A step of a migrate thread, which finds no migration. -/
theorem StillInv.threadStep {t : Fin T} {m : Machine T σ β} (h : StillInv s)
    (hmutex : MutexInv (s.setMachine m))
    (hstep : threadStep t s.machine = some m) :
    StillInv (s.setMachine m) ∧ SameBuffer s (s.setMachine m) := by
  have hbusy : ¬ (s.machine.threads t).Busy := by
    intro hbusy
    obtain ⟨-, -, idx, hsignalled⟩ := h.mutex.handshake.busy t hbusy
    have hactive := hsignalled.active
    rw [h.idle] at hactive
    exact hactive
  obtain ⟨hstore, -⟩ := threadStep_of_not_busy hstep hbusy
  exact ⟨⟨hmutex, h.routed, h.clients, h.workers, h.nvmQueue,
    h.bufferQueue⟩, ⟨congrArg _ hstore,
      congrArg (fun store => store.dev.bufferMeta) hstore⟩⟩

/-- One step after the call. -/
theorem StillInv.step {event : SystemEvent T β} (h : StillInv s)
    (hT : T ≤ 127) (hevent : event.Follows)
    (hstep : systemStep s event = some s') :
    StillInv s' ∧ SameBuffer s s' := by
  have hmutex := systemStep_mutexInv h.mutex hT hstep
  have hrouted := systemStep_routed h.routed hstep
  cases event with
  | call c request => exact hevent.elim
  | migrate i => exact hevent.elim
  | client c => exact h.clientStep hmutex hrouted hstep
  | worker i => exact h.workerStep hmutex hrouted hstep
  | coord =>
      simp only [systemStep, coordAdvance, h.idle, coordStep, Option.map_none]
        at hstep
      cases hstep
  | thread t =>
      simp only [systemStep, Option.map_eq_some_iff] at hstep
      obtain ⟨m, hm, rfl⟩ := hstep
      exact h.threadStep hmutex hm

/-! ## The result -/

/-- Every state after the call has the buffer of the state before it. -/
theorem StillInv.run {events : List (SystemEvent T β)} (h : StillInv s)
    (hT : T ≤ 127) (hevents : ∀ event ∈ events, event.Follows)
    (hrun : runOps systemStep s events = some s') : SameBuffer s s' := by
  induction events generalizing s with
  | nil =>
      cases hrun
      exact ⟨rfl, rfl⟩
  | cons event events ih =>
      rw [runOps, Option.bind_eq_some_iff] at hrun
      obtain ⟨s₁, hstep, hrest⟩ := hrun
      rw [List.forall_mem_cons] at hevents
      obtain ⟨hstill, hsame⟩ := h.step hT hevents.1 hstep
      have hsame' := ih hstill hevents.2 hrest
      exact ⟨hsame'.metaData.trans hsame.metaData,
        hsame'.bufferMeta.trans hsame.bufferMeta⟩

omit [BlockDevice σ β] in
/-- Without any change a range has been invalidated exactly when no block of
it was buffered. -/
theorem invalidates_of_same {request : Request β} {store store' : Store σ β}
    (hmeta : store'.metaData = store.metaData) :
    Invalidates request store store' ↔
      ∀ lba, request.CoversLba lba → ¬ Buffered store.metaData lba := by
  constructor
  · intro h lba hlba hbuffered
    exact h.unmapped lba hlba hbuffered (hmeta ▸ hbuffered)
  · intro h
    refine ⟨fun lba hlba hbuffered => absurd hbuffered (h lba hlba), ?_, ?_⟩
    · intro idx kv hkv hlba
      exact absurd ⟨idx, List.mem_map_of_mem hkv⟩ (h kv.1 hlba)
    · intro idx kv _
      rw [hmeta]

theorem System.Settled.call (h : s.Settled) (hmutex : MutexInv s)
    (hT : T ≤ 127) (hrouted : ∀ c, (s.clients c).Routed) {c : Fin 16}
    {request : Request β} (hrequest : request.LargeWrite)
    (hstep : systemStep s (.call c request) = some s') :
    StillInv s' ∧ s'.machine = s.machine := by
  have hmutex' := systemStep_mutexInv hmutex hT hstep
  have hrouted' := systemStep_routed hrouted hstep
  simp only [systemStep] at hstep
  split at hstep
  · cases hstep
    refine ⟨⟨hmutex', hrouted', ?_, h.workers, ?_, ?_⟩, rfl⟩
    · refine forall_update h.clients c (ClientPc.still_post ?_)
      rw [Request.task, mixPostTaskToIo_len]
      exact hrequest.len
    · intro i task htask
      change task ∈ s.nvmQueue i at htask
      rw [h.nvmQueue i] at htask
      exact absurd htask List.not_mem_nil
    · intro i task htask
      change task ∈ s.bufferQueue i at htask
      rw [h.bufferQueue i] at htask
      exact absurd htask List.not_mem_nil
  · cases hstep

/-- After a large write from a settled state its range has been invalidated
exactly when no block of it was buffered before, whatever the workers have
processed. -/
theorem invalidates_iff (hT : T ≤ 127) {store : Store σ β}
    {segmentIdx : Fin 4} {migrateBuf : Fin T → β} {inflight : Fin 16 → ℤ}
    {dst : Fin 16 → ℕ → β} {requests : Fin 16 → Request β}
    {before : List (SystemEvent T β)}
    (hbefore : runOps systemStep (System.initial T store segmentIdx
      migrateBuf inflight dst requests) before = some s)
    (hsettled : s.Settled) (c : Fin 16) {request : Request β}
    (hrequest : request.LargeWrite) {events : List (SystemEvent T β)}
    (hevents : ∀ event ∈ events, event.Follows)
    (hrun : runOps systemStep s (.call c request :: events) = some s') :
    Invalidates request s.machine.store s'.machine.store ↔
      ∀ lba, request.CoversLba lba →
        ¬ Buffered s.machine.store.metaData lba := by
  have hmutex := mutexInv_of_runOps hT hbefore
  have hinitial : ∀ d, ((System.initial T store segmentIdx migrateBuf
      inflight dst requests).clients d).Routed := fun _ => trivial
  have hrouted := (allStates_of_invariant
    (fun _ _ _ hinv hstep => systemStep_routed hinv hstep)
    hinitial).of_runOps hinitial hbefore
  rw [runOps, Option.bind_eq_some_iff] at hrun
  obtain ⟨s₁, hcall, hrest⟩ := hrun
  obtain ⟨hstill, hmachine⟩ := hsettled.call hmutex hT hrouted hrequest hcall
  have hsame := hstill.run hT hevents hrest
  rw [← hmachine]
  exact invalidates_of_same hsame.metaData

/-! ## Closed runs -/

/-- The system after a buffered write to block `0`. -/
def bufferedSystem : System 8 (ℕ → ℕ) ℕ :=
  (runOps systemStep freshSystem (bufferedCall 0 5)).get (by decide +kernel)

theorem runOps_bufferedSystem :
    runOps systemStep freshSystem (bufferedCall 0 5) = some bufferedSystem :=
  (Option.some_get _).symm

/-- ... and after a write to the blocks `0` and `1`. -/
def overwrittenSystem : System 8 (ℕ → ℕ) ℕ :=
  (runOps systemStep bufferedSystem
    (.call 0 (writeRequest 0 2 7) :: largeSteps)).get (by decide +kernel)

theorem runOps_overwrittenSystem :
    runOps systemStep bufferedSystem
      (.call 0 (writeRequest 0 2 7) :: largeSteps) = some overwrittenSystem :=
  (Option.some_get _).symm

theorem largeWrite_writeRequest :
    (writeRequest 0 2 7).LargeWrite :=
  ⟨rfl, rfl, by decide, by decide, by decide⟩

theorem invalidates_iff_example :
    Invalidates (writeRequest 0 2 7) bufferedSystem.machine.store
        overwrittenSystem.machine.store ↔
      ∀ lba, (writeRequest 0 2 7).CoversLba lba →
        ¬ Buffered bufferedSystem.machine.store.metaData lba :=
  invalidates_iff (by decide) runOps_bufferedSystem (by decide +kernel) 0
    largeWrite_writeRequest (by decide) runOps_overwrittenSystem

/-- Block `0` is still mapped after a write to the blocks `0` and `1` whose
sub-tasks have all been processed. -/
theorem invalidates_fails :
    runOps systemStep freshSystem (bufferedCall 0 5) = some bufferedSystem ∧
      bufferedSystem.Settled ∧ (writeRequest 0 2 7).LargeWrite ∧
      runOps systemStep bufferedSystem
        (.call 0 (writeRequest 0 2 7) :: largeSteps) =
          some overwrittenSystem ∧
      overwrittenSystem.Settled ∧
      ¬ Invalidates (writeRequest 0 2 7) bufferedSystem.machine.store
        overwrittenSystem.machine.store := by
  refine ⟨runOps_bufferedSystem, by decide +kernel, largeWrite_writeRequest,
    runOps_overwrittenSystem, by decide +kernel, fun h => ?_⟩
  exact absurd (h.unmapped 0 (by decide) (by decide +kernel))
    (by decide +kernel)

end Uhs
