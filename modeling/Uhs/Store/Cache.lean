import Uhs.Migration.Simulation
import Uhs.Store.Mutex
import Uhs.Store.Tasks

/-!
# The store as a write-back cache

Next to the invariants of the machine and of the mutex, a block is buffered in
the segment of its residue class and a worker that copies data has entered the
block.  Every step of the system is then one of the steps of the abstract
cache of cells, or a write to one block of the NVM range.
-/

namespace Uhs

open Support

variable {T : ℕ} {σ β : Type*}

/-- The worker copies the data of a block that it has entered. -/
def WorkerPc.Entered (hash : MixHash) : WorkerPc β → Prop
  | .data task slot =>
      ∃ v : ℕ, slot = v ∧ (task.offset, v) ∈ hash.entries
  | .record task slot =>
      ∃ v : ℕ, slot = v ∧ (task.offset, v) ∈ hash.entries
  | _ => True

/-- Block `lba` of the SSD lies in the range of the task. -/
def IoTask.CoversLba (task : IoTask β) (lba : ℕ) : Prop :=
  task.offset ≤ lba ∧ lba < task.offset + task.len

instance IoTask.decidableCoversLba (task : IoTask β) :
    DecidablePred task.CoversLba :=
  fun _ => inferInstanceAs (Decidable (_ ∧ _))

/-- The task that a client is about to transfer to or from the SSD. -/
def ClientPc.transfers : ClientPc β → Option (IoTask β)
  | .ssd task => some task
  | _ => none

/-- A write goes to the SSD only where no block is buffered, and a migration
is called only where it moves the data. -/
def System.MovesSafely (s : System T σ β) : SystemEvent T β → Prop
  | .client c => ∀ task, task ∈ (s.clients c).transfers →
      task.postedOp = mixWrite →
      ∀ j, ∀ kv ∈ s.machine.live j, ¬ task.CoversLba kv.1
  | .worker i => (s.workers i).Locks → Movable i s.machine.store.metaData
  | _ => True

instance (s : System T σ β) : DecidablePred s.MovesSafely
  | .call _ _ => inferInstanceAs (Decidable True)
  | .client _ => inferInstanceAs (Decidable (∀ _, _ ∈ _ → _ → _))
  | .worker _ => inferInstanceAs (Decidable (_ → _))
  | .migrate _ => inferInstanceAs (Decidable True)
  | .coord => inferInstanceAs (Decidable True)
  | .thread _ => inferInstanceAs (Decidable True)

variable [BlockDevice σ β]

/-- The invariant of the buffer. -/
structure CacheInv (s : System T σ β) : Prop where
  mutex : MutexInv s
  machine : MachineInv s.machine
  routed : ∀ i, ∀ kv ∈ s.machine.live i, kv.1 % 4 = i.val
  entered : ∀ i, (s.workers i).Entered (s.machine.store.metaData.hash i)

/-- What a step does to the cells and to the NVM range. -/
inductive DataMoves (s : System T σ β) (m : Machine T σ β) : Prop
  | evict (hcells : Cells.Evicts s.machine.cells m.cells)
      (hnvm : m.store.dev.nvm = s.machine.store.dev.nvm)
  | nvmWrite (i : Fin 4) (task : IoTask β) (n : ℕ)
      (hpc : s.workers i = .nvmWrite task n) (hn : n < task.len)
      (hcells : m.cells = s.machine.cells)
      (hnvm : m.store.dev.nvm = Function.update s.machine.store.dev.nvm
        (task.offset + n) (task.buf n))
  | claim (i : Fin 4) (task : IoTask β) (p : ℕ)
      (hpc : s.workers i = .start task ∨ s.workers i = .migrating (some task))
      (hcells : m.cells = s.machine.cells.claim task.offset p)
      (hnvm : m.store.dev.nvm = s.machine.store.dev.nvm)
  | fill (i : Fin 4) (task : IoTask β) (p : ℕ) (slot : ℤ)
      (hpc : s.workers i = .data task slot)
      (hlive : s.machine.cells.live task.offset p)
      (hcells : m.cells = s.machine.cells.fill p (task.buf 0))
      (hnvm : m.store.dev.nvm = s.machine.store.dev.nvm)
  | mark (k p : ℕ) (hcells : m.cells = s.machine.cells.mark k p)
      (hnvm : m.store.dev.nvm = s.machine.store.dev.nvm)
  | ssdWrite (c : Fin 16) (task : IoTask β) (hpc : s.clients c = .ssd task)
      (hop : task.postedOp = mixWrite)
      (hfree : ∀ k p, task.CoversLba k → ¬ s.machine.cells.live k p)
      (hcells : m.cells = s.machine.cells.write fun k =>
        if task.CoversLba k then task.buf (k - task.offset)
        else s.machine.cells.disk k)
      (hnvm : m.store.dev.nvm = s.machine.store.dev.nvm)

variable {s s' : System T σ β} {i : Fin 4} {m : Machine T σ β}

theorem DataMoves.same (hcells : m.cells = s.machine.cells)
    (hnvm : m.store.dev.nvm = s.machine.store.dev.nvm) : DataMoves s m :=
  .evict (.wait hcells) hnvm

theorem CacheInv.not_held (h : CacheInv s)
    (hpc : ∀ task, s.workers i ≠ .migrating task) :
    ¬ s.machine.coord.Held i := fun hheld => by
  obtain ⟨task, heq⟩ := h.mutex.held i hheld
  exact hpc task heq

/-- A block has one place in the buffer, and a place one block. -/
theorem CacheInv.placed (h : CacheInv s) : s.machine.cells.Placed where
  unique_place := by
    rintro k p q ⟨i, u, hu, rfl⟩ ⟨j, v, hv, rfl⟩
    have hi : k % 4 = i.val := h.routed i _ hu
    have hj : k % 4 = j.val := h.routed j _ hv
    obtain rfl : i = j := Fin.ext (hi.symm.trans hj)
    have hpair := List.inj_on_of_nodup_map (h.machine.segment i).keys_nodup
      hu hv rfl
    obtain rfl : u = v := congrArg Prod.snd hpair
    rfl
  unique_key := fun _ _ _ hj hk => h.machine.cells_unique_key hj hk

/-- A step that leaves the machine alone. -/
theorem CacheInv.aside (h : CacheInv s) (hmutex : MutexInv s')
    (hmachine : s'.machine = s.machine)
    (hentered : ∀ j, (s'.workers j).Entered
      (s.machine.store.metaData.hash j)) :
    CacheInv s' ∧ DataMoves s s'.machine := by
  refine ⟨⟨hmutex, hmachine ▸ h.machine, ?_, ?_⟩, ?_⟩
  · rw [hmachine]
    exact h.routed
  · rw [hmachine]
    exact hentered
  · rw [hmachine]
    exact .same rfl rfl

/-- A step that changes the devices and no metadata. -/
theorem CacheInv.setDev (h : CacheInv s) {dev : Devices σ β}
    (hmutex : MutexInv s') (hmachine : s'.machine = s.machine.setDev dev)
    (hinv : MachineInv (s.machine.setDev dev))
    (hentered : ∀ j, (s'.workers j).Entered
      (s.machine.store.metaData.hash j)) : CacheInv s' := by
  refine ⟨hmutex, hmachine ▸ hinv, ?_, ?_⟩
  · rw [hmachine]
    exact h.routed
  · rw [hmachine]
    exact hentered

/-! ## Steps of the migration -/

theorem CacheInv.thread (h : CacheInv s) (hT : T ≤ 127) {t : Fin T}
    (hstep : threadStep t s.machine = some m)
    (hmutex : MutexInv (s.setMachine m)) :
    CacheInv (s.setMachine m) ∧ DataMoves s m := by
  obtain ⟨hinv, hmoved⟩ := h.machine.threadStep hT hstep
  rcases hmoved with ⟨hstore, hlive⟩ | ⟨idx, hmoves⟩
  · refine ⟨⟨hmutex, hinv, fun j kv hkv => ?_, fun j => ?_⟩, .same
      (cells_congr (fun j kv => by rw [hlive j]) (by rw [hstore])
        (by rw [hstore])) (by rw [hstore])⟩
    · exact h.routed j kv (hlive j ▸ hkv)
    · change (s.workers j).Entered (m.store.metaData.hash j)
      rw [hstore]
      exact h.entered j
  · obtain ⟨gone, hgone⟩ := hmoves.transfer.exists_perm
    obtain ⟨task, hpc⟩ := h.mutex.held idx (Or.inl hmoves.active)
    refine ⟨⟨hmutex, hinv, fun j kv hkv => ?_, fun j => ?_⟩, .evict
      (hmoves.evicts h.machine) ?_⟩
    · by_cases hj : j = idx
      · subst hj
        exact h.routed j kv (hgone.mem_iff.mpr (List.mem_append_right _ hkv))
      · exact h.routed j kv (hmoves.live_ne j hj ▸ hkv)
    · change (s.workers j).Entered (m.store.metaData.hash j)
      by_cases hj : j = idx
      · rw [hj, hpc]
        trivial
      · rw [hmoves.elsewhere.hash_ne j hj]
        exact h.entered j
    · cases hmoves.transfer with
      | quiet _ hdev => rw [hdev]
      | copy _ _ _ hdev | release _ _ _ hdev =>
          rw [hdev]
          rfl

theorem CacheInv.coord (h : CacheInv s) (hT : 0 < T)
    (hstep : coordAdvance s.machine = some m)
    (hmutex : MutexInv (s.setMachine m)) :
    CacheInv (s.setMachine m) ∧ DataMoves s m := by
  obtain ⟨hinv, hunmoved⟩ := h.machine.coordAdvance hT hstep
  refine ⟨⟨hmutex, hinv, fun j kv hkv => ?_, fun j => ?_⟩,
    .same hunmoved.cells_eq (by rw [hunmoved.dev])⟩
  · exact h.routed j kv (hunmoved.live j ▸ hkv)
  · change (s.workers j).Entered (m.store.metaData.hash j)
    rw [hunmoved.hash]
    exact h.entered j

/-! ## Steps of a worker -/

theorem CacheInv.setWorker_entered (h : CacheInv s) {hash : Fin 4 → MixHash}
    {pc : WorkerPc β} (hpc : pc.Entered (hash i))
    (hhash : ∀ j, j ≠ i → hash j = s.machine.store.metaData.hash j)
    (j : Fin 4) : ((s.setWorker i pc).workers j).Entered (hash j) := by
  by_cases hj : j = i
  · subst hj
    rw [System.setWorker_self]
    exact hpc
  · rw [s.setWorker_of_ne hj, hhash j hj]
    exact h.entered j

/-- The worker enters a block. -/
theorem CacheInv.takes (h : CacheInv s) {task : IoTask β} {slot : ℕ}
    {b : Machine T σ β} (hstore : b.store = s.machine.store)
    (hthreads : b.threads = s.machine.threads)
    (htakes : Takes i task.offset slot b m) (hsegment : task.offset % 4 = i.val)
    (hpc : s.workers i = .start task ∨ s.workers i = .migrating (some task))
    (hmutex : MutexInv ((s.setMachine m).setWorker i (.data task slot))) :
    CacheInv ((s.setMachine m).setWorker i (.data task slot)) ∧
      DataMoves s m := by
  have hlive : ∀ j, b.live j = s.machine.live j :=
    fun j => live_congr hstore hthreads
  have hcells : b.cells = s.machine.cells :=
    cells_congr (fun j kv => by rw [hlive j]) (by rw [hstore])
      (by rw [hstore])
  refine ⟨⟨hmutex, htakes.inv, fun j kv hkv => ?_, ?_⟩, ?_⟩
  · by_cases hj : j = i
    · subst hj
      rcases List.mem_cons.mp (htakes.live.mem_iff.mp hkv) with rfl | hkv
      · exact hsegment
      · exact h.routed j kv (hlive j ▸ hkv)
    · change kv ∈ m.live j at hkv
      rw [htakes.live_ne j hj, hlive j] at hkv
      exact h.routed j kv hkv
  · refine h.setWorker_entered ⟨slot, rfl, htakes.mem⟩ fun j hj => ?_
    exact (htakes.elsewhere.hash_ne j hj).trans (by rw [hstore])
  · have hclaim := htakes.cells_eq
    rw [hcells] at hclaim
    exact .claim i task _ hpc hclaim (by rw [htakes.dev, hstore])

theorem CacheInv.redirect (h : CacheInv s) (htasks : TaskInv s)
    {pc : WorkerPc β}
    (hstep : redirectStep i s.machine (s.workers i) = some (m, pc))
    (hsafe : (s.workers i).Locks → Movable i s.machine.store.metaData)
    (hmutex : MutexInv ((s.setMachine m).setWorker i pc)) :
    CacheInv ((s.setMachine m).setWorker i pc) ∧ DataMoves s m := by
  have hfits := htasks.fits i
  have hentered := h.entered i
  -- what is known of the block that the worker buffers
  have hbuffers : ∀ task, (s.workers i).current = some task →
      workerBranch task = .redirectWrite → Buffers s i task :=
    fun task hcur hbranch => htasks.buffers hcur hbranch
  generalize hpc : s.workers i = cur at hstep hfits hentered hbuffers hsafe
  -- a step that leaves the data and the index alone
  have hquiet : ∀ {m : Machine T σ β} {pc : WorkerPc β},
      MachineInv m → (∀ j, m.live j = s.machine.live j) →
      m.store = s.machine.store →
      pc.Entered (s.machine.store.metaData.hash i) →
      MutexInv ((s.setMachine m).setWorker i pc) →
      CacheInv ((s.setMachine m).setWorker i pc) ∧ DataMoves s m := by
    intro m pc hinv hlive hstore hpc hmutex
    refine ⟨⟨hmutex, hinv, fun j kv hkv => h.routed j kv (hlive j ▸ hkv),
      ?_⟩, .same (cells_congr (fun j kv => by rw [hlive j]) (by rw [hstore])
        (by rw [hstore])) (by rw [hstore])⟩
    change ∀ j, ((s.setWorker i pc).workers j).Entered
      (m.store.metaData.hash j)
    rw [hstore]
    exact h.setWorker_entered hpc fun _ _ => rfl
  cases cur with
  | ready | nvmRead _ _ | nvmWrite _ _ | finish _ _ => cases hstep
  | start task =>
      have hheld := h.not_held (i := i) (by simp [hpc])
      have hblock := hbuffers task rfl hfits
      rcases h.machine.workerStart_cases hheld hblock.lt hstep with
        ⟨rfl, v, rfl, hmem⟩ | ⟨-, ⟨rfl, rfl, -⟩ | ⟨slot, rfl, htakes⟩⟩
      · exact hquiet h.machine (fun _ => rfl) rfl ⟨v, rfl, hmem⟩ hmutex
      · exact hquiet h.machine (fun _ => rfl) rfl trivial hmutex
      · exact h.takes rfl rfl htakes hblock.segment (Or.inl hpc) hmutex
  | lock task =>
      simp only [redirectStep] at hstep
      split at hstep
      · rename_i hidle
        cases hstep
        obtain ⟨hplace, hfree⟩ := hsafe trivial
        exact hquiet (h.machine.call hidle hplace hfree)
          (fun _ => live_congr rfl rfl) rfl trivial hmutex
      · cases hstep
  | migrating task =>
      simp only [redirectStep] at hstep
      split at hstep
      · rename_i hreturned
        cases task with
        | none =>
            cases hstep
            exact hquiet (h.machine.release hreturned)
              (fun _ => live_congr rfl rfl) rfl trivial hmutex
        | some task =>
            have hblock := hbuffers task rfl (hfits task rfl)
            obtain ⟨slot, rfl, htakes⟩ := h.machine.workerResume_cases
              hreturned hblock.lt hstep
            exact h.takes (b := { s.machine with coord := .idle }) rfl rfl
              htakes hblock.segment (Or.inr hpc) hmutex
      · cases hstep
  | data task slot =>
      cases hstep
      obtain ⟨v, rfl, hmem⟩ := hentered
      have hheld := h.not_held (i := i) (by simp [hpc])
      refine ⟨h.setDev hmutex rfl (h.machine.setDev hheld hmem
        (fun p hp => Function.update_of_ne hp _ _) rfl)
        (h.setWorker_entered ⟨v, rfl, hmem⟩ fun _ _ => rfl), ?_⟩
      exact .fill i task _ v hpc
        ⟨i, v, List.mem_append_left _ hmem, rfl⟩ (cells_writeData _ _) rfl
  | record task slot =>
      cases hstep
      obtain ⟨v, rfl, hmem⟩ := hentered
      have hheld := h.not_held (i := i) (by simp [hpc])
      refine ⟨h.setDev hmutex rfl (h.machine.setDev hheld hmem
        (fun _ _ => rfl) rfl)
        (h.setWorker_entered trivial fun _ _ => rfl), ?_⟩
      exact .mark task.offset _ (cells_writeMeta _ _ _) rfl

theorem CacheInv.worker (h : CacheInv s) (htasks : TaskInv s)
    (hmoves : WorkerMoves s i s')
    (hsafe : (s.workers i).Locks → Movable i s.machine.store.metaData)
    (hmutex : MutexInv s') : CacheInv s' ∧ DataMoves s s'.machine := by
  -- a step that leaves the machine alone
  have haside : ∀ {s' : System T σ β} {pc : WorkerPc β}, MutexInv s' →
      s'.machine = s.machine →
      s'.workers = Function.update s.workers i pc →
      pc.Entered (s.machine.store.metaData.hash i) →
      CacheInv s' ∧ DataMoves s s'.machine := by
    intro s' pc hmutex hmachine hworkers hpc
    refine h.aside hmutex hmachine fun j => ?_
    rw [hworkers]
    exact h.setWorker_entered hpc (fun _ _ => rfl) j
  -- a task that somebody waits for is taken out of a queue
  have htake : ∀ {r : System T σ β} {task : IoTask β},
      r.machine = s.machine → r.workers = s.workers →
      task ∈ s.pending i → MutexInv (dispatch r i task) →
      CacheInv (dispatch r i task) ∧
        DataMoves s (dispatch r i task).machine := by
    intro r task hmachine hworkers htask hmutex
    obtain ⟨pc, hdispatch, -, -, hpc⟩ := dispatch_of_awaited (r := r)
      (i := i) (htasks.posted htask).branch_cases
    rw [hdispatch] at hmutex ⊢
    refine haside hmutex hmachine (by rw [System.setWorker, hworkers]) ?_
    rcases hpc with rfl | rfl | rfl <;> trivial
  cases hmoves with
  | poll _ seq => exact h.aside hmutex rfl h.entered
  | takeNvm _ seq hqueue =>
      exact htake rfl rfl (by simp [System.pending, hqueue]) hmutex
  | takeBuffer _ seq hqueue =>
      rename_i task rest
      by_cases hskip : workerBranch task = .skip
      · have hdispatch : dispatch (System.setBufferQueue
            { s with seq := seq } i rest) i task =
            System.setBufferQueue { s with seq := seq } i rest := by
          rw [dispatch, hskip]
        rw [hdispatch] at hmutex ⊢
        exact h.aside hmutex rfl h.entered
      · exact htake rfl rfl (by simp [System.pending, hqueue, hskip]) hmutex
  | nvmRead _ _ | nvmReadEnd _ _ | nvmWriteEnd _ _ =>
      exact haside hmutex rfl rfl trivial
  | finish _ => exact haside hmutex rfl rfl trivial
  | nvmWrite hpc hn =>
      rename_i task n
      refine ⟨h.setDev hmutex rfl (h.machine.setDevAside rfl fun _ _ _ => rfl)
        (h.setWorker_entered trivial fun _ _ => rfl),
        .nvmWrite i task n hpc hn rfl ?_⟩
      exact mixNvmWrite_one s.machine.store.dev (task.buf n) (task.offset + n)
  | redirect hstep => exact h.redirect htasks hstep hsafe hmutex

/-! ## Steps of a client -/

theorem CacheInv.ssdWrite (h : CacheInv s) {c : Fin 16} {task : IoTask β}
    (hpc : s.clients c = .ssd task) (hop : task.postedOp = mixWrite)
    (hsafe : ∀ j, ∀ kv ∈ s.machine.live j, ¬ task.CoversLba kv.1)
    (hmutex : MutexInv s') (hworkers : s'.workers = s.workers)
    (hmachine : s'.machine = s.machine.setDev
      (mixSsdWrite s.machine.store.dev task.buf task.len task.offset)) :
    CacheInv s' ∧ DataMoves s s'.machine := by
  have hinv : MachineInv (s.machine.setDev
      (mixSsdWrite s.machine.store.dev task.buf task.len task.offset)) := by
    refine h.machine.setDevAside rfl ?_
    intro j kv hkv
    rw [mixSsdWrite_ssdBlock]
    exact if_neg (hsafe j kv hkv)
  refine ⟨h.setDev hmutex hmachine hinv ?_, ?_⟩
  · rw [hworkers]
    exact h.entered
  · rw [hmachine]
    refine .ssdWrite c task hpc hop ?_ ?_ rfl
    · rintro k p hk ⟨j, v, hv, -⟩
      exact hsafe j _ hv hk
    · refine Cells.ext rfl rfl rfl (funext fun k => ?_)
      exact mixSsdWrite_ssdBlock _ _ _ _ _

theorem CacheInv.client (h : CacheInv s) {c : Fin 16}
    (hmoves : ClientMoves s c s') (hsafe : s.MovesSafely (.client c))
    (hmutex : MutexInv s') : CacheInv s' ∧ DataMoves s s'.machine := by
  cases hmoves with
  | postNvm _ _ | postSmall _ | postSub _ | posted _ | wait _ _ | «return» _ =>
      exact h.aside hmutex rfl h.entered
  | ssd hpc =>
      rename_i task
      have hworkers := (ssdTransfer_fields s c task).2.2.2.1
      have hentered : ∀ j, ((ssdTransfer s c task).workers j).Entered
          (s.machine.store.metaData.hash j) := by
        rw [hworkers]
        exact h.entered
      by_cases hwrite : task.postedOp = mixWrite
      · have htransfer : (ssdTransfer s c task).machine = s.machine.setDev
            (mixSsdWrite s.machine.store.dev task.buf task.len
              task.offset) := by
          have hread : ¬ task.postedOp = mixRead := by
            rw [hwrite]
            decide
          rw [ssdTransfer, if_neg hread, if_pos hwrite]
          rfl
        refine h.ssdWrite hpc hwrite ?_ hmutex hworkers htransfer
        exact hsafe task (by rw [hpc]; rfl) hwrite
      · refine h.aside hmutex ?_ hentered
        change (ssdTransfer s c task).machine = s.machine
        rw [ssdTransfer, if_neg hwrite]
        split <;> rfl

/-! ## Every step -/

/-- Each step is one of the moves of the abstract cache. -/
theorem systemStep_cacheInv {event : SystemEvent T β} (h : CacheInv s)
    (htasks : TaskInv s) (hpos : 0 < T) (hT : T ≤ 127)
    (hsafe : s.MovesSafely event) (hstep : systemStep s event = some s') :
    CacheInv s' ∧ DataMoves s s'.machine := by
  have hmutex := systemStep_mutexInv h.mutex hT hstep
  cases event with
  | call c request =>
      simp only [systemStep] at hstep
      split at hstep
      · cases hstep
        exact h.aside hmutex rfl h.entered
      · cases hstep
  | client c => exact h.client (clientStep_moves hstep) hsafe hmutex
  | worker i => exact h.worker htasks (workerStep_moves hstep) hsafe hmutex
  | migrate i =>
      simp only [systemStep] at hstep
      split at hstep
      · cases hstep
        exact h.aside hmutex rfl
          (h.setWorker_entered trivial fun _ _ => rfl)
      · cases hstep
  | coord =>
      simp only [systemStep, Option.map_eq_some_iff] at hstep
      obtain ⟨m, hm, rfl⟩ := hstep
      exact h.coord hpos hm hmutex
  | thread t =>
      simp only [systemStep, Option.map_eq_some_iff] at hstep
      obtain ⟨m, hm, rfl⟩ := hstep
      exact h.thread hT hm hmutex

end Uhs
