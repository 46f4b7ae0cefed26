import Uhs.Store.Contents
import Uhs.Store.Crash

/-!
# Records of the buffered blocks

Next to the claims of the volatile index stand the records on the NVM.  Each
record belongs to a claim, and each claim has its record, or else its worker is
between the claim and the record.  What the records show of a block changes
only with the store of the worker that writes it, or with a write to the SSD.
-/

namespace Uhs

open Support

variable {T : ℕ} {σ β : Type*} [BlockDevice σ β] {s s' : System T σ β}
  {i j : Fin 4} {task : IoTask β} {pc : WorkerPc β} {m : Machine T σ β}

/-- A worker has claimed a slot for block `k` and has not recorded it. -/
def System.Claims (s : System T σ β) (k : ℕ) : Prop :=
  ∃ i, (s.workers i).claiming = some k

/-- What a step does to the claims, the slots, the records and the SSD. -/
inductive RecordMoves (s s' : System T σ β) : Prop
  | same (hclaims : ∀ k, s.Claims k → s'.Claims k)
      (hcells : s'.machine.cells = s.machine.cells)
  | copy {k p : ℕ} (hclaims : ∀ k, s.Claims k → s'.Claims k)
      (hlive : s.machine.cells.live k p) (hfree : ¬ s.Claims k)
      (hcells : s'.machine.cells = s.machine.cells.copy k p)
  | release {k p : ℕ} (hclaims : ∀ k, s.Claims k → s'.Claims k)
      (hlive : s.machine.cells.live k p) (hfree : ¬ s.Claims k)
      (hdisk : s.machine.cells.disk k = s.machine.cells.buffer p)
      (hcells : s'.machine.cells = s.machine.cells.release k p)
  | claim {k p : ℕ} (hclaims : ∀ k, s.Claims k → s'.Claims k)
      (hk : k < 2 ^ 32) (hkey : ∀ q, ¬ s.machine.cells.live k q)
      (hplace : ∀ j, ¬ s.machine.cells.live j p) (hclaim : s'.Claims k)
      (hcells : s'.machine.cells = s.machine.cells.claim k p)
  | fill {i : Fin 4} {task : IoTask β} {slot : ℤ} {p : ℕ}
      (hclaims : ∀ k, s.Claims k → s'.Claims k)
      (hpc : s.workers i = .data task slot)
      (hlive : s.machine.cells.live task.offset p)
      (hcells : s'.machine.cells = s.machine.cells.fill p (task.buf 0))
  | mark {i : Fin 4} {task : IoTask β} {slot ret : ℤ} {p : ℕ}
      (hclaims : ∀ k, k ≠ task.offset → s.Claims k → s'.Claims k)
      (hpc : s.workers i = .record task slot)
      (hpc' : s'.workers i = .finish task ret)
      (hlive : s.machine.cells.live task.offset p)
      (hcells : s'.machine.cells = s.machine.cells.mark task.offset p)
  | ssdWrite {c : Fin 16} {task : IoTask β}
      (hclaims : ∀ k, s.Claims k → s'.Claims k)
      (hpc : s.clients c = .ssd task) (hop : task.postedOp = mixWrite)
      (hpc' : s'.clients c = .returned task)
      (hfree : ∀ k p, task.CoversLba k → ¬ s.machine.cells.live k p)
      (hcells : s'.machine.cells = s.machine.cells.write fun k =>
        if task.CoversLba k then task.buf (k - task.offset)
        else s.machine.cells.disk k)

/-- The number of slots of a segment. -/
def System.perBlockNum (s : System T σ β) : ℕ :=
  s.machine.store.metaData.perBlockNum

/-! ## Claims -/

omit [BlockDevice σ β] in
theorem System.Claims.congr {k : ℕ} (h : s.Claims k)
    (hworkers : s'.workers = s.workers) : s'.Claims k := by
  rw [System.Claims, hworkers]
  exact h

omit [BlockDevice σ β] in
/-- The step of a worker keeps the claims of the others. -/
theorem System.Claims.setWorker {k : ℕ} (h : s.Claims k)
    (hworkers : s'.workers = Function.update s.workers i pc)
    (hclaiming : (s.workers i).claiming = some k → pc.claiming = some k) :
    s'.Claims k := by
  obtain ⟨j, hj⟩ := h
  refine ⟨j, ?_⟩
  rw [hworkers]
  by_cases hij : j = i
  · subst hij
    rw [Function.update_self]
    exact hclaiming hj
  · rw [Function.update_of_ne hij]
    exact hj

theorem WorkerPc.claiming_eq_some {k : ℕ} (h : pc.claiming = some k) :
    ∃ task slot, (pc = .data task slot ∨ pc = .record task slot) ∧
      task.offset = k := by
  cases pc with
  | data task slot => exact ⟨task, slot, Or.inl rfl, Option.some.inj h⟩
  | record task slot => exact ⟨task, slot, Or.inr rfl, Option.some.inj h⟩
  | ready | nvmRead _ _ | nvmWrite _ _ | start _ | lock _ | migrating _
  | finish _ _ => cases h

omit [BlockDevice σ β] in
/-- A worker that copies to the buffer executes a redirected write. -/
theorem TaskInv.redirects (h : TaskInv s) {task : IoTask β} {slot : ℤ}
    (hpc : s.workers i = .data task slot ∨ s.workers i = .record task slot) :
    (s.workers i).current = some task ∧
      workerBranch task = .redirectWrite := by
  have hfits := h.fits i
  rcases hpc with hpc | hpc <;>
  · rw [hpc] at hfits ⊢
    exact ⟨rfl, hfits⟩

/-- A block that a worker has claimed belongs to its segment. -/
theorem CacheInv.mod_of_claiming (h : CacheInv s) {k : ℕ}
    (hclaiming : (s.workers i).claiming = some k) : k % 4 = i.val := by
  obtain ⟨task, slot, hpc, rfl⟩ := WorkerPc.claiming_eq_some hclaiming
  have hentered := h.entered i
  have hmem : ∃ v : ℕ, (task.offset, v) ∈
      (s.machine.store.metaData.hash i).entries := by
    rcases hpc with hpc | hpc <;> rw [hpc] at hentered <;>
      exact hentered.imp fun _ hv => hv.2
  obtain ⟨v, hv⟩ := hmem
  exact h.routed i _ (List.mem_append_left _ hv)

/-! ## Steps of the migration -/

/-- What a thread of the running migration does to the cells. -/
theorem ThreadMoves.cells_cases {idx : Fin 4} {m m' : Machine T σ β}
    (hmoves : ThreadMoves idx m m') (h : MachineInv m) :
    m'.cells = m.cells ∨
      ∃ kv ∈ m.live idx,
        m'.cells = m.cells.copy kv.1
            (m.store.metaData.bufferBlock idx (kv.2 : ℕ)) ∨
          m.cells.disk kv.1 = m.cells.buffer
            (m.store.metaData.bufferBlock idx (kv.2 : ℕ)) ∧
          m'.cells = m.cells.release kv.1
            (m.store.metaData.bufferBlock idx (kv.2 : ℕ)) := by
  have hblock : ∀ (j : Fin 4) (v : ℤ), m'.store.metaData.bufferBlock j v =
      m.store.metaData.bufferBlock j v :=
    fun j v => MixMetadata.bufferBlock_congr hmoves.elsewhere.perBlockNum j v
  -- without a release the live pairs stay
  have hmem : (m.live idx).Perm (m'.live idx) →
      ∀ j kv, kv ∈ m'.live j ↔ kv ∈ m.live j := by
    intro hperm j kv
    by_cases hj : j = idx
    · subst hj
      exact hperm.mem_iff.symm
    · rw [hmoves.live_ne j hj]
  cases hmoves.transfer with
  | quiet hlive hdev =>
      exact Or.inl (cells_congr (hmem hlive) hdev
        hmoves.elsewhere.perBlockNum)
  | copy kv hkv hlive hdev =>
      refine Or.inr ⟨kv, hkv, Or.inl (Cells.ext ?_ ?_ ?_ ?_)⟩
      · funext k p
        simp only [Machine.cells, Cells.copy, hmem hlive, hblock]
      · simp only [Machine.cells, Cells.copy, hdev, mixSsdWrite_buffer]
      · simp only [Machine.cells, Cells.copy, hdev, mixSsdWrite_bufferMeta]
      · funext k
        have hiff : (kv.1 ≤ k ∧ k < kv.1 + 1) ↔ k = kv.1 := by omega
        simp only [Machine.cells, Cells.copy, hdev, mixSsdWrite_ssdBlock,
          hiff, Function.update_apply]
  | release kv hlive hssd hdev =>
      refine Or.inr ⟨kv, hlive.mem_iff.mpr List.mem_cons_self,
        Or.inr ⟨hssd, Cells.ext ?_ ?_ ?_ ?_⟩⟩
      · funext k p
        rw [Machine.cells]
        simp only [hblock]
        exact propext (h.live_release hlive hmoves.live_ne)
      · simp only [Machine.cells, Cells.release, hdev, mixBufferClear_buffer]
      · funext p
        simp only [Machine.cells, Cells.release, hdev, mixBufferClear_status,
          mixBufferClear_offset, Function.update_apply]
        split <;> simp
      · simp only [Machine.cells, Cells.release, hdev,
          mixBufferClear_ssdBlock]

/-- A thread evicts recorded blocks only: the worker of its segment waits for
it and has claimed nothing. -/
theorem CacheInv.thread_recordMoves (h : CacheInv s) (hT : T ≤ 127) {t : Fin T}
    (hstep : threadStep t s.machine = some m) :
    RecordMoves s (s.setMachine m) ∧
      (s.setMachine m).perBlockNum = s.perBlockNum := by
  have hclaims : ∀ k, s.Claims k → (s.setMachine m).Claims k :=
    fun _ hk => hk
  obtain ⟨-, ⟨hstore, hlive⟩ | ⟨idx, hmoves⟩⟩ :=
    h.machine.threadStep hT hstep
  · have hcells : m.cells = s.machine.cells :=
      cells_congr (fun j kv => by rw [hlive j]) (by rw [hstore])
        (by rw [hstore])
    exact ⟨.same hclaims hcells, by rw [System.perBlockNum, System.setMachine,
      hstore, System.perBlockNum]⟩
  · have hper : (s.setMachine m).perBlockNum = s.perBlockNum :=
      hmoves.elsewhere.perBlockNum
    obtain ⟨waiting, hpc⟩ := h.mutex.held idx (Or.inl hmoves.active)
    have hfree : ∀ kv ∈ s.machine.live idx, ¬ s.Claims kv.1 := by
      rintro kv hkv ⟨j, hj⟩
      obtain rfl : j = idx := Fin.ext
        ((h.mod_of_claiming hj).symm.trans (h.routed idx kv hkv))
      rw [hpc] at hj
      cases hj
    rcases hmoves.cells_cases h.machine with
      hsame | ⟨kv, hkv, hcopy | ⟨hdisk, hrelease⟩⟩
    · exact ⟨.same hclaims hsame, hper⟩
    · exact ⟨.copy hclaims ⟨idx, kv.2, hkv, rfl⟩ (hfree kv hkv) hcopy, hper⟩
    · exact ⟨.release hclaims ⟨idx, kv.2, hkv, rfl⟩ (hfree kv hkv) hdisk
        hrelease, hper⟩

/-! ## Steps of a worker -/

/-- The worker enters a block that was not mapped. -/
theorem CacheInv.takes_recordMoves (h : CacheInv s) {slot : ℕ}
    {b : Machine T σ β} (hstore : b.store = s.machine.store)
    (hthreads : b.threads = s.machine.threads)
    (htakes : Takes i task.offset slot b m) (hlba : task.offset < 2 ^ 32)
    (hsegment : task.offset % 4 = i.val)
    (hclaiming : (s.workers i).claiming = none) :
    RecordMoves s ((s.setMachine m).setWorker i (.data task slot)) ∧
      m.store.metaData.perBlockNum = s.perBlockNum := by
  have hlive : ∀ j, b.live j = s.machine.live j :=
    fun j => live_congr hstore hthreads
  have hcells : b.cells = s.machine.cells :=
    cells_congr (fun j kv => by rw [hlive j]) (by rw [hstore])
      (by rw [hstore])
  have hclaim := htakes.cells_eq
  have hplace := htakes.fresh_place
  rw [hcells, hstore] at hclaim hplace
  refine ⟨.claim (fun k hk => hk.setWorker rfl fun heq => ?_) hlba ?_ hplace
    ⟨i, ?_⟩ hclaim, htakes.elsewhere.perBlockNum.trans (by rw [hstore]; rfl)⟩
  · rw [hclaiming] at heq
    cases heq
  · rintro q ⟨j, v, hv, rfl⟩
    have hroute : task.offset % 4 = j.val := h.routed j _ hv
    obtain rfl : j = i := Fin.ext (hroute.symm.trans hsegment)
    refine htakes.fresh_key ?_
    rw [hlive]
    exact List.mem_map.mpr ⟨_, hv, rfl⟩
  · rw [System.setWorker_self]
    rfl

theorem CacheInv.redirect_recordMoves (h : CacheInv s) (htasks : TaskInv s)
    (hstep : redirectStep i s.machine (s.workers i) = some (m, pc)) :
    RecordMoves s ((s.setMachine m).setWorker i pc) ∧
      m.store.metaData.perBlockNum = s.perBlockNum := by
  have hfits := htasks.fits i
  have hentered := h.entered i
  -- what is known of the block that the worker buffers
  have hbuffers : ∀ task, (s.workers i).current = some task →
      workerBranch task = .redirectWrite → Buffers s i task :=
    fun task hcur hbranch => htasks.buffers hcur hbranch
  generalize hpc : s.workers i = cur at hstep hfits hentered hbuffers
  -- a step that leaves the data and the index alone
  have hquiet : ∀ {m : Machine T σ β} {pc : WorkerPc β},
      m.store = s.machine.store → m.threads = s.machine.threads →
      (s.workers i).claiming = none →
      RecordMoves s ((s.setMachine m).setWorker i pc) ∧
        m.store.metaData.perBlockNum = s.perBlockNum := by
    intro m pc hstore hthreads hclaiming
    have hlive : ∀ j, m.live j = s.machine.live j :=
      fun j => live_congr hstore hthreads
    have hcells : m.cells = s.machine.cells :=
      cells_congr (fun j kv => by rw [hlive j]) (by rw [hstore])
        (by rw [hstore])
    refine ⟨.same (fun k hk => hk.setWorker rfl fun heq => ?_) hcells,
      by rw [hstore, System.perBlockNum]⟩
    rw [hclaiming] at heq
    cases heq
  cases cur with
  | ready | nvmRead _ _ | nvmWrite _ _ | finish _ _ => cases hstep
  | start task =>
      have hheld := h.not_held (i := i) (by simp [hpc])
      have hblock := hbuffers task rfl hfits
      have hclaiming : (s.workers i).claiming = none := by
        rw [hpc]
        rfl
      rcases h.machine.workerStart_cases hheld hblock.lt hstep with
        ⟨rfl, v, rfl, hmem⟩ | ⟨-, ⟨rfl, rfl, -⟩ | ⟨slot, rfl, htakes⟩⟩
      · exact hquiet rfl rfl hclaiming
      · exact hquiet rfl rfl hclaiming
      · exact h.takes_recordMoves rfl rfl htakes hblock.lt hblock.segment
          hclaiming
  | lock task =>
      have hclaiming : (s.workers i).claiming = none := by
        rw [hpc]
        rfl
      simp only [redirectStep] at hstep
      split at hstep
      · cases hstep
        exact hquiet rfl rfl hclaiming
      · cases hstep
  | migrating task =>
      have hclaiming : (s.workers i).claiming = none := by
        rw [hpc]
        rfl
      simp only [redirectStep] at hstep
      split at hstep
      · rename_i hreturned
        cases task with
        | none =>
            cases hstep
            exact hquiet rfl rfl hclaiming
        | some task =>
            have hblock := hbuffers task rfl (hfits task rfl)
            obtain ⟨slot, rfl, htakes⟩ := h.machine.workerResume_cases
              hreturned hblock.lt hstep
            exact h.takes_recordMoves
              (b := { s.machine with coord := .idle }) rfl rfl htakes
              hblock.lt hblock.segment hclaiming
      · cases hstep
  | data task slot =>
      cases hstep
      obtain ⟨v, rfl, hmem⟩ := hentered
      refine ⟨.fill (fun k hk => hk.setWorker rfl fun heq => ?_) hpc
        ⟨i, v, List.mem_append_left _ hmem, rfl⟩ (cells_writeData _ _), rfl⟩
      rw [hpc] at heq
      exact heq
  | record task slot =>
      cases hstep
      obtain ⟨v, rfl, hmem⟩ := hentered
      refine ⟨.mark (fun k hne hk => hk.setWorker rfl fun heq => ?_) hpc
        (System.setWorker_self _ _ _)
        ⟨i, v, List.mem_append_left _ hmem, rfl⟩ (cells_writeMeta _ _ _), rfl⟩
      rw [hpc] at heq
      exact absurd (Option.some.inj heq).symm hne

theorem CacheInv.worker_recordMoves (h : CacheInv s) (htasks : TaskInv s)
    (hmoves : WorkerMoves s i s') :
    RecordMoves s s' ∧ s'.perBlockNum = s.perBlockNum := by
  -- a step that leaves the buffer alone
  have haside : ∀ {s' : System T σ β} {pc : WorkerPc β},
      s'.machine.cells = s.machine.cells → s'.perBlockNum = s.perBlockNum →
      s'.workers = Function.update s.workers i pc →
      (s.workers i).claiming = none →
      RecordMoves s s' ∧ s'.perBlockNum = s.perBlockNum := by
    intro s' pc hcells hper hworkers hclaiming
    refine ⟨.same (fun k hk => hk.setWorker hworkers fun heq => ?_) hcells,
      hper⟩
    rw [hclaiming] at heq
    cases heq
  have htake : ∀ {r : System T σ β} {task : IoTask β},
      r.machine = s.machine → r.workers = s.workers →
      s.workers i = .ready → task ∈ s.pending i →
      RecordMoves s (dispatch r i task) ∧
        (dispatch r i task).perBlockNum = s.perBlockNum := by
    intro r task hmachine hworkers hready htask
    obtain ⟨pc, hdispatch, -⟩ := dispatch_of_awaited (r := r) (i := i)
      (htasks.posted htask).branch_cases
    rw [hdispatch]
    refine haside (by rw [System.setWorker, hmachine])
      (by rw [System.perBlockNum, System.setWorker, hmachine,
        System.perBlockNum]) (by rw [System.setWorker, hworkers]) ?_
    rw [hready]
    rfl
  cases hmoves with
  | poll _ seq => exact ⟨.same (fun _ hk => hk.congr rfl) rfl, rfl⟩
  | takeNvm hpc seq hqueue =>
      exact htake rfl rfl hpc (by simp [System.pending, hqueue])
  | @takeBuffer hpc seq task rest hqueue =>
      by_cases hskip : workerBranch task = .skip
      · rw [dispatch, hskip]
        exact ⟨.same (fun _ hk => hk.congr rfl) rfl, rfl⟩
      · exact htake rfl rfl hpc (by simp [System.pending, hqueue, hskip])
  | nvmRead hpc _ | nvmReadEnd hpc _ | nvmWrite hpc _ | nvmWriteEnd hpc _
  | finish hpc =>
      refine haside rfl rfl rfl ?_
      rw [hpc]
      rfl
  | redirect hstep => exact h.redirect_recordMoves htasks hstep

/-! ## Every step -/

theorem ClientMoves.recordMoves {c : Fin 16} (hmoves : ClientMoves s c s')
    (hsafe : s.MovesSafely (.client c)) :
    RecordMoves s s' ∧ s'.perBlockNum = s.perBlockNum := by
  cases hmoves with
  | postNvm _ _ | postSmall _ | postSub _ | posted _ | wait _ _ | «return» _ =>
      exact ⟨.same (fun _ hk => hk.congr rfl) rfl, rfl⟩
  | @ssd task hpc =>
      have hworkers := (ssdTransfer_fields s c task).2.2.2.1
      have hclaims : ∀ k, s.Claims k →
          ((ssdTransfer s c task).setClient c (.returned task)).Claims k :=
        fun k hk => hk.congr hworkers
      by_cases hwrite : task.postedOp = mixWrite
      · have hread : ¬ task.postedOp = mixRead := by
          rw [hwrite]
          decide
        rw [ssdTransfer, if_neg hread, if_pos hwrite] at hclaims ⊢
        refine ⟨.ssdWrite hclaims hpc hwrite (System.setClient_self _ _ _) ?_
          (Cells.ext rfl rfl rfl (funext fun k => ?_)), rfl⟩
        · rintro k p hk ⟨j, v, hv, -⟩
          exact hsafe task (by rw [hpc]; rfl) hwrite j _ hv hk
        · exact mixSsdWrite_ssdBlock _ _ _ _ _
      · have hmachine : ((ssdTransfer s c task).setClient c
            (.returned task)).machine = s.machine := by
          change (ssdTransfer s c task).machine = s.machine
          rw [ssdTransfer, if_neg hwrite]
          split <;> rfl
        exact ⟨.same hclaims (by rw [hmachine]),
          by rw [System.perBlockNum, hmachine, System.perBlockNum]⟩

theorem systemStep_recordMoves {event : SystemEvent T β} (h : CacheInv s)
    (htasks : TaskInv s) (hpos : 0 < T) (hT : T ≤ 127)
    (hsafe : s.MovesSafely event) (hstep : systemStep s event = some s') :
    RecordMoves s s' ∧ s'.perBlockNum = s.perBlockNum := by
  cases event with
  | call c request =>
      obtain ⟨-, rfl⟩ := systemStep_call_eq hstep
      exact ⟨.same (fun _ hk => hk.congr rfl) rfl, rfl⟩
  | client c => exact (clientStep_moves hstep).recordMoves hsafe
  | worker i => exact h.worker_recordMoves htasks (workerStep_moves hstep)
  | migrate i =>
      obtain ⟨hready, rfl⟩ := systemStep_migrate_eq hstep
      refine ⟨.same (fun k hk => hk.setWorker rfl fun heq => ?_) rfl, rfl⟩
      rw [hready] at heq
      cases heq
  | coord =>
      simp only [systemStep, Option.map_eq_some_iff] at hstep
      obtain ⟨m, hm, rfl⟩ := hstep
      have hunmoved := (h.machine.coordAdvance hpos hm).2
      exact ⟨.same (fun _ hk => hk.congr rfl) hunmoved.cells_eq,
        hunmoved.perBlockNum⟩
  | thread t =>
      simp only [systemStep, Option.map_eq_some_iff] at hstep
      obtain ⟨m, hm, rfl⟩ := hstep
      exact h.thread_recordMoves hT hm

/-! ## The invariant of the records -/

/-- Each record belongs to a claim, and each claim that no worker is about to
record has its record. -/
structure RecordsInv (s : System T σ β) : Prop where
  recorded : ∀ k p, s.machine.cells.record p = some k →
    s.machine.cells.live k p
  unrecorded : ∀ k p, s.machine.cells.live k p →
    s.machine.cells.record p = some k ∨ s.Claims k
  key_lt : ∀ k p, s.machine.cells.live k p → k < 2 ^ 32

theorem RecordsInv.wf (h : RecordsInv s) (hcache : CacheInv s) :
    s.machine.cells.Wf := ⟨hcache.placed, h.recorded⟩

theorem RecordsInv.record_eq (h : RecordsInv s) {k p : ℕ}
    (hlive : s.machine.cells.live k p) (hfree : ¬ s.Claims k) :
    s.machine.cells.record p = some k :=
  (h.unrecorded k p hlive).resolve_right hfree

theorem RecordMoves.recordsInv (hmoves : RecordMoves s s') (h : RecordsInv s)
    (hcache : CacheInv s) : RecordsInv s' := by
  have hwf := h.wf hcache
  have hplaced := hcache.placed
  cases hmoves with
  | same hclaims hcells =>
      refine ⟨?_, ?_, ?_⟩ <;> rw [hcells]
      · exact h.recorded
      · exact fun k p hlive => (h.unrecorded k p hlive).imp id (hclaims k)
      · exact h.key_lt
  | copy hclaims hlive hfree hcells =>
      refine ⟨?_, ?_, ?_⟩ <;> rw [hcells]
      · exact h.recorded
      · exact fun k p hlive => (h.unrecorded k p hlive).imp id (hclaims k)
      · exact h.key_lt
  | @release k p hclaims hlive hfree hdisk hcells =>
      refine ⟨?_, ?_, ?_⟩ <;> rw [hcells]
      · exact (hwf.evicts (.release k p hlive hdisk rfl)).recorded
      · rintro j q ⟨hq, hne⟩
        refine (h.unrecorded j q hq).imp (fun hrecord => ?_) (hclaims j)
        have hqp : q ≠ p := by
          rintro rfl
          exact hne ⟨hplaced.unique_key j k q hq hlive, rfl⟩
        exact (Function.update_of_ne hqp _ _).trans hrecord
      · exact fun j q hq => h.key_lt j q hq.1
  | @claim k p hclaims hk hkey hplace hclaim hcells =>
      refine ⟨?_, ?_, ?_⟩ <;> rw [hcells]
      · exact (hwf.claim hkey hplace).recorded
      · rintro j q (hq | ⟨rfl, -⟩)
        · exact (h.unrecorded j q hq).imp id (hclaims j)
        · exact Or.inr hclaim
      · rintro j q (hq | ⟨rfl, -⟩)
        · exact h.key_lt j q hq
        · exact hk
  | fill hclaims hpc hlive hcells =>
      refine ⟨?_, ?_, ?_⟩ <;> rw [hcells]
      · exact h.recorded
      · exact fun k p hlive => (h.unrecorded k p hlive).imp id (hclaims k)
      · exact h.key_lt
  | @mark i task slot ret p hclaims hpc hpc' hlive hcells =>
      refine ⟨?_, ?_, ?_⟩ <;> rw [hcells]
      · exact (hwf.mark hlive).recorded
      · intro j q hq
        by_cases hqp : q = p
        · subst hqp
          left
          rw [hplaced.unique_key j _ q hq hlive]
          exact Function.update_self _ _ _
        · refine (h.unrecorded j q hq).imp
            (fun hrecord => (Function.update_of_ne hqp _ _).trans hrecord)
            (hclaims j ?_)
          rintro rfl
          exact hqp (hplaced.unique_place _ _ _ hq hlive)
      · exact h.key_lt
  | ssdWrite hclaims hpc hop hpc' hfree hcells =>
      refine ⟨?_, ?_, ?_⟩ <;> rw [hcells]
      · exact h.recorded
      · exact fun k p hlive => (h.unrecorded k p hlive).imp id (hclaims k)
      · exact h.key_lt

/-! ## What the records show -/

/-- What the records show of a block changes only with the store of its data,
with its record or with a write to the SSD. -/
theorem RecordMoves.persistent (hmoves : RecordMoves s s') (h : RecordsInv s)
    (hcache : CacheInv s) {k : ℕ} {x : β}
    (hx : s.machine.cells.Persistent k x) :
    s'.machine.cells.Persistent k x ∨
      (∃ i task slot, s.workers i = .data task slot ∧ task.offset = k ∧
        s'.machine.cells.Persistent k (task.buf 0)) ∨
      (∃ i task slot ret, s.workers i = .record task slot ∧
        task.offset = k ∧ s'.workers i = .finish task ret) ∨
      ∃ c task, s.clients c = .ssd task ∧ task.postedOp = mixWrite ∧
        task.CoversLba k ∧ s'.clients c = .returned task := by
  have hwf := h.wf hcache
  cases hmoves with
  | same hclaims hcells => exact Or.inl (hcells ▸ hx)
  | copy hclaims hlive hfree hcells =>
      exact Or.inl (hcells ▸ hx.copy (h.record_eq hlive hfree))
  | release hclaims hlive hfree hdisk hcells =>
      exact Or.inl (hcells ▸ hx.release (h.record_eq hlive hfree) hdisk)
  | claim hclaims hk hkey hplace hclaim hcells =>
      exact Or.inl (hcells ▸ hx.claim _ _)
  | @fill i task slot p hclaims hpc hlive hcells =>
      by_cases hk : k = task.offset
      · subst hk
        rcases hx.fill_self hwf hlive (task.buf 0) with hnew | hold
        · exact Or.inr (Or.inl ⟨i, task, slot, hpc, rfl, hcells ▸ hnew⟩)
        · exact Or.inl (hcells ▸ hold)
      · exact Or.inl (hcells ▸ hx.fill hwf hlive hk _)
  | @mark i task slot ret p hclaims hpc hpc' hlive hcells =>
      by_cases hk : k = task.offset
      · exact Or.inr (Or.inr (Or.inl ⟨i, task, slot, ret, hpc, hk.symm, hpc'⟩))
      · exact Or.inl (hcells ▸ hx.mark hwf hlive hk)
  | @ssdWrite c task hclaims hpc hop hpc' hfree hcells =>
      by_cases hk : task.CoversLba k
      · exact Or.inr (Or.inr (Or.inr ⟨c, task, hpc, hop, hk, hpc'⟩))
      · exact Or.inl (hcells ▸ hx.write fun _ => if_neg hk)

/-- What a block holds, its records show, unless a worker is about to record
it. -/
theorem RecordsInv.persistent (h : RecordsInv s) (hcache : CacheInv s) {k : ℕ}
    {x : β} (hx : s.machine.cells.Volatile k x) (hfree : ¬ s.Claims k) :
    s.machine.cells.Persistent k x :=
  hx.persistent (h.wf hcache) fun _ hlive => h.record_eq hlive hfree

end Uhs
