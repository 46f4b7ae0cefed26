import Uhs.Migration.Simulation
import Uhs.Segment.Rebuild

/-!
# Crashes between device stores

One segment, its worker and the migrate threads, one step for each store to a
device.  A crash loses the volatile metadata; a rebuild from the records on the
NVM must then find every completed write, and of the write in progress either
the old or the new data.
-/

namespace Uhs

open Support

/-- The machine with the worker of one segment.  The last field is a history
that no step reads: the data of the last completed write to each block. -/
structure CrashMachine (T : ℕ) (σ β : Type*) where
  machine : Machine T σ β
  pc : WorkerPc β
  written : ℕ → β

/-- A call of `redirect_write`, or a step of one of the parties. -/
inductive CrashEvent (T : ℕ) (β : Type*)
  | write (task : IoTask β)
  | worker
  | coord
  | thread (t : Fin T)

/-- A write is to a block below `2 ^ 32`. -/
def CrashEvent.Addressable {T : ℕ} {β : Type*} : CrashEvent T β → Prop
  | .write task => task.offset < 2 ^ 32
  | _ => True

instance {T : ℕ} {β : Type*} :
    DecidablePred (CrashEvent.Addressable (T := T) (β := β))
  | .write _ => inferInstanceAs (Decidable (_ < _))
  | .worker => inferInstanceAs (Decidable True)
  | .coord => inferInstanceAs (Decidable True)
  | .thread _ => inferInstanceAs (Decidable True)

variable {T : ℕ} {σ β : Type*} [BlockDevice σ β]

/-- One step of the worker; a write is complete once it has returned. -/
def crashWorker (idx : Fin 4) (s : CrashMachine T σ β) :
    Option (CrashMachine T σ β) :=
  match s.pc with
  | .finish task _ =>
      some { s with
        pc := .ready
        written := Function.update s.written task.offset (task.buf 0) }
  | pc => (redirectStep idx s.machine pc).map fun r =>
      { s with machine := r.1, pc := r.2 }

def crashStep (idx : Fin 4) (s : CrashMachine T σ β) :
    CrashEvent T β → Option (CrashMachine T σ β)
  | .write task =>
      match s.pc with
      | .ready => some { s with pc := .start task }
      | _ => none
  | .worker => crashWorker idx s
  | .coord => (coordAdvance s.machine).map fun m => { s with machine := m }
  | .thread t =>
      (threadStep t s.machine).map fun m => { s with machine := m }

/-- The machine before the first write. -/
def CrashMachine.initial (T : ℕ) (store : Store σ β) (segmentIdx : Fin 4)
    (migrateBuf : Fin T → β) : CrashMachine T σ β where
  machine := Machine.initial T store segmentIdx migrateBuf
  pc := .ready
  written := store.dev.ssdBlock

/-- A crash in this state recovers the last completed write of every block,
or else the write in progress. -/
def CrashConsistent (blockNum : ℕ) (migration : Fin 4 → Bool) (idx : Fin 4)
    (s : CrashMachine T σ β) : Prop :=
  ∀ lba < 2 ^ 32, ∃ x,
    recoveredBlock blockNum migration s.machine.store.dev idx lba = some x ∧
      (x = s.written lba ∨
        ∃ task, s.pc.writing = some task ∧ task.offset = lba ∧
          x = task.buf 0)

/-- The worker calls migrations only where they move the data. -/
def MigratesSafely (idx : Fin 4) (s : CrashMachine T σ β) :
    CrashEvent T β → Prop
  | .worker => s.pc.Locks → Movable idx s.machine.store.metaData
  | _ => True

instance (idx : Fin 4) (s : CrashMachine T σ β) :
    DecidablePred (MigratesSafely idx s)
  | .write _ => inferInstanceAs (Decidable True)
  | .worker => inferInstanceAs (Decidable (_ → _))
  | .coord => inferInstanceAs (Decidable True)
  | .thread _ => inferInstanceAs (Decidable True)

/-! ## The invariant -/

/-- The block whose slot is not recorded yet. -/
def WorkerPc.claiming : WorkerPc β → Option ℕ
  | .data task _ => some task.offset
  | .record task _ => some task.offset
  | _ => none

/-- How far the write in progress has come. -/
def Progress (idx : Fin 4) (m : Machine T σ β) : WorkerPc β → Prop
  | .ready => True
  | .start task => task.offset < 2 ^ 32
  | .lock task => ∀ t, task = some t → t.offset < 2 ^ 32
  | .migrating task => ∀ t, task = some t → t.offset < 2 ^ 32
  | .data task slot => task.offset < 2 ^ 32 ∧ ∃ v : ℕ, slot = v ∧
      (task.offset, v) ∈ (m.store.metaData.hash idx).entries
  | .record task slot => task.offset < 2 ^ 32 ∧ ∃ v : ℕ, slot = v ∧
      (task.offset, v) ∈ (m.store.metaData.hash idx).entries ∧
        m.store.dev.buffer (m.store.metaData.bufferBlock idx v) = task.buf 0
  | .finish task _ => m.cells.Persistent task.offset (task.buf 0)
  | _ => False

/-- The contents that the records show: those of the last completed write,
or for its block those of the write in progress. -/
def ContentsKept (m : Machine T σ β) (pc : WorkerPc β) (written : ℕ → β) :
    Prop :=
  ∀ k, m.cells.Persistent k (written k) ∨
    ∃ task, pc.writing = some task ∧ task.offset = k ∧
      m.cells.Persistent k (task.buf 0)

/-- The invariant of the crash machine. -/
structure CrashInv (idx : Fin 4) (cap : ℕ) (s : CrashMachine T σ β) :
    Prop where
  machine : MachineInv s.machine
  cap_eq : s.machine.store.metaData.perBlockNum = cap
  held : ∀ j, s.machine.coord.Held j →
    j = idx ∧ ∃ task, s.pc = .migrating task
  alone : ∀ j, j ≠ idx → s.machine.live j = []
  key_lt : ∀ kv ∈ s.machine.live idx, kv.1 < 2 ^ 32
  wf : s.machine.cells.Wf
  progress : Progress idx s.machine s.pc
  recorded : ∀ k p, s.machine.cells.live k p →
    s.machine.cells.record p = some k ∨ s.pc.claiming = some k
  contents : ContentsKept s.machine s.pc s.written

variable {idx : Fin 4} {cap : ℕ} {s s' : CrashMachine T σ β}

theorem CrashInv.not_held (h : CrashInv idx cap s)
    (hpc : ∀ task, s.pc ≠ .migrating task) (j : Fin 4) :
    ¬ s.machine.coord.Held j := fun hheld => by
  obtain ⟨-, task, heq⟩ := h.held j hheld
  exact hpc task heq

/-- A step that moves the machine without touching the data. -/
theorem CrashInv.of_cells_eq (h : CrashInv idx cap s) {m : Machine T σ β}
    (hm : MachineInv m) (hheld : ∀ j, m.coord.Held j → s.machine.coord.Held j)
    (hlive : ∀ j kv, kv ∈ m.live j ↔ kv ∈ s.machine.live j)
    (hper : m.store.metaData.perBlockNum =
      s.machine.store.metaData.perBlockNum)
    (hcells : m.cells = s.machine.cells)
    (hprogress : Progress idx m s.pc) :
    CrashInv idx cap { s with machine := m } where
  machine := hm
  cap_eq := hper.trans h.cap_eq
  held := fun j hj => h.held j (hheld j hj)
  alone := by
    intro j hj
    rw [List.eq_nil_iff_forall_not_mem]
    intro kv hkv
    rw [hlive, h.alone j hj] at hkv
    exact List.not_mem_nil hkv
  key_lt := fun kv hkv => h.key_lt kv ((hlive idx kv).mp hkv)
  wf := by rw [hcells]; exact h.wf
  progress := hprogress
  recorded := by rw [hcells]; exact h.recorded
  contents := by
    intro k
    rw [hcells]
    exact h.contents k

theorem Progress.congr {m m' : Machine T σ β} {pc : WorkerPc β}
    (h : Progress idx m pc)
    (hhash : m'.store.metaData.hash = m.store.metaData.hash)
    (hper : m'.store.metaData.perBlockNum = m.store.metaData.perBlockNum)
    (hcells : m'.cells = m.cells) : Progress idx m' pc := by
  have hbuffer : m'.store.dev.buffer = m.store.dev.buffer :=
    congrArg Cells.buffer hcells
  cases pc with
  | ready | start task | lock task | migrating task | nvmRead task i
  | nvmWrite task i => exact h
  | data task slot => simpa only [Progress, hhash] using h
  | record task slot =>
      have hblock : ∀ v : ℤ, m'.store.metaData.bufferBlock idx v =
          m.store.metaData.bufferBlock idx v :=
        fun v => MixMetadata.bufferBlock_congr hper idx v
      simpa only [Progress, hhash, hbuffer, hblock] using h
  | finish task ret => simpa only [Progress, hcells] using h

/-! ## Steps of the migration -/

theorem CrashInv.thread (h : CrashInv idx cap s) (hT : T ≤ 127) {t : Fin T}
    {m : Machine T σ β} (hstep : threadStep t s.machine = some m) :
    CrashInv idx cap { s with machine := m } := by
  obtain ⟨hm, hmoved⟩ := h.machine.threadStep hT hstep
  obtain ⟨hcoord, -⟩ := threadStep_frame hstep
  have hheld : ∀ j, m.coord.Held j → s.machine.coord.Held j := by
    intro j hj
    rwa [hcoord] at hj
  rcases hmoved with ⟨hstore, hlive⟩ | ⟨idx', hmoves⟩
  · have hcells : m.cells = s.machine.cells :=
      cells_congr (fun j kv => by rw [hlive j]) (by rw [hstore])
        (by rw [hstore])
    exact h.of_cells_eq hm hheld (fun j kv => by rw [hlive j])
      (by rw [hstore]) hcells (h.progress.congr (by rw [hstore])
        (by rw [hstore]) hcells)
  · obtain ⟨rfl, task, hpc⟩ := h.held idx' (Or.inl hmoves.active)
    have hevicts := hmoves.evicts h.machine
    have hall : ∀ k p, s.machine.cells.live k p →
        s.machine.cells.record p = some k := by
      intro k p hkp
      refine (h.recorded k p hkp).resolve_right ?_
      simp [hpc, WorkerPc.claiming]
    obtain ⟨gone, hgone⟩ := hmoves.transfer.exists_perm
    refine ⟨hm, hmoves.elsewhere.perBlockNum.trans h.cap_eq,
      fun j hj => h.held j (hheld j hj), ?_, ?_, h.wf.evicts hevicts, ?_, ?_, ?_⟩
    · intro j hj
      rw [hmoves.live_ne j hj]
      exact h.alone j hj
    · exact fun kv hkv => h.key_lt kv
        (hgone.mem_iff.mpr (List.mem_append_right _ hkv))
    · have hprogress := h.progress
      simp only [hpc] at hprogress ⊢
      exact hprogress
    · exact fun k p hkp =>
        Or.inl (Cells.recorded_evicts h.wf hall hevicts k p hkp)
    · intro k
      rcases h.contents k with hold | ⟨task', hwriting, hk, hnew⟩
      · exact Or.inl (hold.evicts h.wf hall hevicts)
      · exact Or.inr ⟨task', hwriting, hk, hnew.evicts h.wf hall hevicts⟩

theorem CrashInv.coord (h : CrashInv idx cap s) (hT : 0 < T)
    {m : Machine T σ β} (hstep : coordAdvance s.machine = some m) :
    CrashInv idx cap { s with machine := m } := by
  obtain ⟨hm, hunmoved⟩ := h.machine.coordAdvance hT hstep
  exact h.of_cells_eq hm (fun j hj => (coordAdvance_held hstep j).mp hj)
    (fun j kv => by rw [hunmoved.live j]) hunmoved.perBlockNum
    hunmoved.cells_eq
    (h.progress.congr hunmoved.hash hunmoved.perBlockNum hunmoved.cells_eq)

/-! ## Steps of the worker -/

variable {task : IoTask β}

/-- Entering a block that was not mapped. -/
theorem CrashInv.takes (h : CrashInv idx cap s) {b m : Machine T σ β}
    (hstore : b.store = s.machine.store)
    (hthreads : b.threads = s.machine.threads)
    (hwriting : s.pc.writing = some task) (hclaiming : s.pc.claiming = none)
    (hlba : task.offset < 2 ^ 32) {slot : ℕ}
    (hidle : ∀ j, ¬ m.coord.Held j)
    (htakes : Takes idx task.offset slot b m) :
    CrashInv idx cap { s with machine := m, pc := .data task slot } := by
  have hlive : ∀ j, b.live j = s.machine.live j :=
    fun j => live_congr hstore hthreads
  have hcells : b.cells = s.machine.cells :=
    cells_congr (fun j kv => by rw [hlive j]) (by rw [hstore])
      (by rw [hstore])
  have hclaim := htakes.cells_eq
  have hplace := htakes.fresh_place
  rw [hcells, hstore] at hclaim hplace
  have hperm := htakes.live
  rw [hlive] at hperm
  have hkey : ∀ q, ¬ s.machine.cells.live task.offset q := by
    rintro q ⟨j, v, hv, rfl⟩
    by_cases hj : j = idx
    · subst hj
      refine htakes.fresh_key ?_
      rw [hlive]
      exact List.mem_map.mpr ⟨_, hv, rfl⟩
    · rw [h.alone j hj] at hv
      exact absurd hv List.not_mem_nil
  refine ⟨htakes.inv, ?_, fun j hj => absurd hj (hidle j), ?_, ?_, ?_, ?_,
    ?_, ?_⟩
  · rw [htakes.elsewhere.perBlockNum, hstore]
    exact h.cap_eq
  · intro j hj
    rw [htakes.live_ne j hj, hlive]
    exact h.alone j hj
  · intro kv hkv
    rcases List.mem_cons.mp (hperm.mem_iff.mp hkv) with rfl | hkv
    · exact hlba
    · exact h.key_lt kv hkv
  · rw [hclaim]
    exact h.wf.claim hkey hplace
  · exact ⟨hlba, slot, rfl, htakes.mem⟩
  · intro k p hkp
    rw [hclaim] at hkp ⊢
    rcases hkp with hkp | ⟨rfl, -⟩
    · refine Or.inl ((h.recorded k p hkp).resolve_right ?_)
      rw [hclaiming]
      exact fun heq => by cases heq
    · exact Or.inr rfl
  · intro k
    rw [hclaim]
    rcases h.contents k with hold | ⟨task', htask, hk, hnew⟩
    · exact Or.inl (hold.claim _ _)
    · rw [hwriting] at htask
      cases htask
      exact Or.inr ⟨task, rfl, hk, hnew.claim _ _⟩

/-- The contents of all other blocks are those of completed writes. -/
theorem ContentsKept.of_ne {m : Machine T σ β} {pc : WorkerPc β}
    {written : ℕ → β} (h : ContentsKept m pc written)
    (hwriting : pc.writing = some task) {k : ℕ} (hk : k ≠ task.offset) :
    m.cells.Persistent k (written k) := by
  refine (h k).resolve_right ?_
  rintro ⟨task', htask, rfl, -⟩
  rw [hwriting] at htask
  cases htask
  exact hk rfl

/-- The first store of `mix_buffer_write`. -/
theorem CrashInv.data (h : CrashInv idx cap s) {slot : ℤ}
    (hpc : s.pc = .data task slot) :
    CrashInv idx cap { s with
      machine := s.machine.setDev (mixBufferWriteData s.machine.store.dev
        (task.buf 0) (s.machine.store.metaData.bufferBlock idx slot))
      pc := .record task slot } := by
  have hprogress := h.progress
  rw [hpc] at hprogress
  obtain ⟨hlba, v, rfl, hmem⟩ := hprogress
  have hidle := h.not_held (by simp [hpc])
  have hlive : s.machine.cells.live task.offset
      (s.machine.store.metaData.bufferBlock idx (v : ℕ)) :=
    ⟨idx, v, List.mem_append_left _ hmem, rfl⟩
  have hwriting : s.pc.writing = some task := by rw [hpc]; rfl
  refine ⟨h.machine.setDev (hidle idx) hmem ?_ rfl, h.cap_eq,
    fun j hj => absurd hj (hidle j), h.alone, h.key_lt, h.wf.fill _ _,
    ⟨hlba, v, rfl, hmem, Function.update_self _ _ _⟩, ?_, ?_⟩
  · exact fun p hp => Function.update_of_ne hp _ _
  · intro k p hkp
    have hrecorded := h.recorded k p hkp
    rw [hpc] at hrecorded
    exact hrecorded
  · intro k
    rw [cells_writeData]
    by_cases hk : k = task.offset
    · subst hk
      rcases h.contents task.offset with hold | ⟨task', htask, -, hnew⟩
      · rcases hold.fill_self h.wf hlive (task.buf 0) with hfill | hfill
        · exact Or.inr ⟨task, rfl, rfl, hfill⟩
        · exact Or.inl hfill
      · rw [hwriting] at htask
        cases htask
        rcases hnew.fill_self h.wf hlive (task.buf 0) with hfill | hfill <;>
          exact Or.inr ⟨task, rfl, rfl, hfill⟩
    · exact Or.inl ((h.contents.of_ne hwriting hk).fill h.wf hlive hk _)

/-- The second store of `mix_buffer_write`. -/
theorem CrashInv.record (h : CrashInv idx cap s) {slot ret : ℤ}
    (hpc : s.pc = .record task slot) :
    CrashInv idx cap { s with
      machine := s.machine.setDev (mixBufferWriteMeta s.machine.store.dev
        task.offset (s.machine.store.metaData.bufferBlock idx slot)
        task.opcode)
      pc := .finish task ret } := by
  have hprogress := h.progress
  rw [hpc] at hprogress
  obtain ⟨hlba, v, rfl, hmem, hbuffer⟩ := hprogress
  have hidle := h.not_held (by simp [hpc])
  have hlive : s.machine.cells.live task.offset
      (s.machine.store.metaData.bufferBlock idx (v : ℕ)) :=
    ⟨idx, v, List.mem_append_left _ hmem, rfl⟩
  have hwriting : s.pc.writing = some task := by rw [hpc]; rfl
  have hmark := h.wf.persistent_mark hlive
  change s.machine.cells.buffer _ = _ at hbuffer
  rw [hbuffer] at hmark
  refine ⟨h.machine.setDev (hidle idx) hmem (fun _ _ => rfl) rfl, h.cap_eq,
    fun j hj => absurd hj (hidle j), h.alone, h.key_lt, ?_, ?_, ?_, ?_⟩
  · rw [cells_writeMeta]
    exact h.wf.mark hlive
  · change Cells.Persistent _ _ _
    rw [cells_writeMeta]
    exact hmark
  · intro k p hkp
    rw [cells_writeMeta] at hkp ⊢
    left
    by_cases hp : p = s.machine.store.metaData.bufferBlock idx (v : ℕ)
    · subst hp
      rw [h.wf.unique_key k task.offset _ hkp hlive]
      exact Function.update_self _ _ _
    · have hrecorded := h.recorded k p hkp
      refine (Function.update_of_ne hp _ _).trans (hrecorded.resolve_right ?_)
      rw [hpc]
      simp only [WorkerPc.claiming, Option.some.injEq]
      rintro rfl
      exact hp (h.wf.unique_place _ _ _ hkp hlive)
  · intro k
    rw [cells_writeMeta]
    by_cases hk : k = task.offset
    · subst hk
      exact Or.inr ⟨task, rfl, rfl, hmark⟩
    · exact Or.inl ((h.contents.of_ne hwriting hk).mark h.wf hlive hk)

/-- The write returns. -/
theorem CrashInv.finish (h : CrashInv idx cap s) {ret : ℤ}
    (hpc : s.pc = .finish task ret) :
    CrashInv idx cap { s with
      pc := .ready
      written := Function.update s.written task.offset (task.buf 0) } := by
  have hprogress := h.progress
  rw [hpc] at hprogress
  have hidle := h.not_held (by simp [hpc])
  have hwriting : s.pc.writing = some task := by rw [hpc]; rfl
  refine ⟨h.machine, h.cap_eq, fun j hj => absurd hj (hidle j), h.alone,
    h.key_lt, h.wf, trivial, ?_, ?_⟩
  · intro k p hkp
    refine Or.inl ((h.recorded k p hkp).resolve_right ?_)
    simp [hpc, WorkerPc.claiming]
  · intro k
    by_cases hk : k = task.offset
    · subst hk
      left
      simp only [Function.update_self]
      exact hprogress
    · left
      simp only [Function.update_of_ne hk]
      exact h.contents.of_ne hwriting hk

/-- A step of the worker that does not touch the data. -/
theorem CrashInv.setPc (h : CrashInv idx cap s) {m : Machine T σ β}
    {pc : WorkerPc β} (hm : MachineInv m)
    (hheld : ∀ j, m.coord.Held j → j = idx ∧ ∃ task, pc = .migrating task)
    (hstore : m.store = s.machine.store)
    (hthreads : m.threads = s.machine.threads)
    (hprogress : Progress idx m pc)
    (hwriting : ∀ task, s.pc.writing = some task → pc.writing = some task)
    (hclaiming : s.pc.claiming = none) :
    CrashInv idx cap { s with machine := m, pc := pc } := by
  have hlive : ∀ j, m.live j = s.machine.live j :=
    fun j => live_congr hstore hthreads
  have hcells : m.cells = s.machine.cells :=
    cells_congr (fun j kv => by rw [hlive j]) (by rw [hstore])
      (by rw [hstore])
  refine ⟨hm, hstore ▸ h.cap_eq, hheld, ?_, ?_, ?_, hprogress, ?_, ?_⟩
  · intro j hj
    rw [hlive j]
    exact h.alone j hj
  · rw [hlive idx]
    exact h.key_lt
  · rw [hcells]
    exact h.wf
  · intro k p hkp
    rw [hcells] at hkp ⊢
    refine Or.inl ((h.recorded k p hkp).resolve_right ?_)
    rw [hclaiming]
    exact fun heq => by cases heq
  · intro k
    rw [hcells]
    exact (h.contents k).imp id fun ⟨task, htask, hk, hnew⟩ =>
      ⟨task, hwriting task htask, hk, hnew⟩

/-- One step of the worker. -/
theorem CrashInv.worker (h : CrashInv idx cap s)
    (hsafe : MigratesSafely idx s (.worker : CrashEvent T β))
    (hstep : crashWorker idx s = some s') : CrashInv idx cap s' := by
  unfold crashWorker at hstep
  cases hpc : s.pc with
  | ready | nvmRead task i | nvmWrite task i =>
      simp [hpc, redirectStep] at hstep
  | finish task ret =>
      simp only [hpc, Option.some.injEq] at hstep
      subst hstep
      exact h.finish hpc
  | data task slot =>
      simp only [hpc, redirectStep, Option.map_some, Option.some.injEq]
        at hstep
      subst hstep
      exact h.data hpc
  | record task slot =>
      simp only [hpc, redirectStep, Option.map_some, Option.some.injEq]
        at hstep
      subst hstep
      exact h.record hpc
  | start task =>
      have hidle := h.not_held (by simp [hpc])
      have hlba : task.offset < 2 ^ 32 := by
        have hprogress := h.progress
        rwa [hpc] at hprogress
      simp only [hpc, redirectStep, Option.map_eq_some_iff] at hstep
      obtain ⟨⟨m, pc⟩, hstart, rfl⟩ := hstep
      rcases h.machine.workerStart_cases (hidle idx) hlba hstart with
        ⟨rfl, v, rfl, hmem⟩ | ⟨-, ⟨rfl, rfl, -⟩ | ⟨slot, rfl, htakes⟩⟩
      · exact h.setPc h.machine (fun j hj => absurd hj (hidle j)) rfl rfl
          ⟨hlba, v, rfl, hmem⟩ (by simp [hpc, WorkerPc.writing])
          (by simp [hpc, WorkerPc.claiming])
      · exact h.setPc h.machine (fun j hj => absurd hj (hidle j)) rfl rfl
          (by rintro t ⟨rfl⟩; exact hlba) (by simp [hpc, WorkerPc.writing])
          (by simp [hpc, WorkerPc.claiming])
      · refine h.takes rfl rfl (by rw [hpc]; rfl) (by rw [hpc]; rfl) hlba ?_
          htakes
        intro j hj
        rw [htakes.coord] at hj
        exact hidle j hj
  | lock task =>
      simp only [hpc, redirectStep] at hstep
      split at hstep
      · rename_i hidle
        simp only [Option.map_some, Option.some.injEq] at hstep
        subst hstep
        obtain ⟨hplace, hfree⟩ := hsafe (by rw [hpc]; trivial)
        have hprogress := h.progress
        rw [hpc] at hprogress
        refine h.setPc (h.machine.call hidle hplace hfree) ?_ rfl rfl
          hprogress (by simp [hpc, WorkerPc.writing])
          (by simp [hpc, WorkerPc.claiming])
        rintro j (hj | hj)
        · exact ⟨(hj : idx = j).symm, task, rfl⟩
        · simp [callMigration] at hj
      · simp at hstep
  | migrating task =>
      have hprogress := h.progress
      rw [hpc] at hprogress
      simp only [hpc, redirectStep] at hstep
      split at hstep
      · rename_i hreturned
        have hidle : ∀ j, ¬ CoordPc.Held j .idle := by
          rintro j (hj | hj)
          · exact hj
          · cases hj
        simp only [Option.map_eq_some_iff] at hstep
        obtain ⟨⟨m, pc⟩, hresume, rfl⟩ := hstep
        cases task with
        | none =>
            cases hresume
            exact h.setPc (h.machine.release hreturned)
              (fun j hj => absurd hj (hidle j)) rfl rfl trivial
              (by simp [hpc, WorkerPc.writing])
              (by simp [hpc, WorkerPc.claiming])
        | some task =>
            have hlba := hprogress task rfl
            obtain ⟨slot, rfl, htakes⟩ :=
              h.machine.workerResume_cases hreturned hlba hresume
            refine h.takes (b := { s.machine with coord := .idle }) rfl rfl
              (by rw [hpc]; rfl) (by rw [hpc]; rfl) hlba ?_ htakes
            intro j hj
            rw [htakes.coord] at hj
            exact hidle j hj
      · simp at hstep

theorem crashStep_crashInv {event : CrashEvent T β} (h : CrashInv idx cap s)
    (hpos : 0 < T) (hT : T ≤ 127)
    (hlba : event.Addressable)
    (hsafe : MigratesSafely idx s event)
    (hstep : crashStep idx s event = some s') : CrashInv idx cap s' := by
  cases event with
  | write task =>
      simp only [crashStep] at hstep
      split at hstep
      · rename_i hpc
        rw [Option.some.injEq] at hstep
        subst hstep
        refine h.setPc h.machine (fun j hj => ?_) rfl rfl hlba
          (by simp [hpc, WorkerPc.writing]) (by simp [hpc, WorkerPc.claiming])
        exact absurd hj (h.not_held (by simp [hpc]) j)
      · simp at hstep
  | worker => exact h.worker hsafe hstep
  | coord =>
      simp only [crashStep, Option.map_eq_some_iff] at hstep
      obtain ⟨m, hm, rfl⟩ := hstep
      exact h.coord hpos hm
  | thread t =>
      simp only [crashStep, Option.map_eq_some_iff] at hstep
      obtain ⟨m, hm, rfl⟩ := hstep
      exact h.thread hT hm

/-! ## What a crash recovers -/

/-- A valid record belongs to a live pair of its block. -/
theorem CrashInv.of_mem_recordPairs (h : CrashInv idx cap s)
    {m : MixMetadata} (hm : m.perBlockNum = cap) {kv : MixKv}
    (hkv : kv ∈ recordPairs m s.machine.store.dev idx m.perBlockNum) :
    s.machine.cells.record
        (s.machine.store.metaData.bufferBlock idx (kv.2 : ℕ)) =
      some kv.1 := by
  obtain ⟨hlt, hpair⟩ := mem_recordPairs.mp hkv
  have hblock : ∀ v : ℤ, m.bufferBlock idx v =
      s.machine.store.metaData.bufferBlock idx v :=
    fun v => MixMetadata.bufferBlock_congr (hm.trans h.cap_eq.symm) idx v
  simp only [recordPair, mixBufferGetMeta, hblock] at hpair
  split at hpair
  · rename_i hvalid
    have hrecord : s.machine.cells.record
        (s.machine.store.metaData.bufferBlock idx (kv.2 : ℕ)) = some
          (s.machine.store.dev.bufferMeta
            (s.machine.store.metaData.bufferBlock idx (kv.2 : ℕ))).offset := by
      simp only [Machine.cells, hvalid, if_true]
    obtain ⟨j, v, hv, -⟩ := h.wf.recorded _ _ hrecord
    have hlba : (s.machine.store.dev.bufferMeta
        (s.machine.store.metaData.bufferBlock idx (kv.2 : ℕ))).offset <
          2 ^ 32 := by
      by_cases hj : j = idx
      · subst hj
        exact h.key_lt _ hv
      · rw [h.alone j hj] at hv
        exact absurd hv List.not_mem_nil
    rw [hrecord, ← congrArg Prod.fst (Option.some.inj hpair)]
    exact congrArg some (Nat.mod_eq_of_lt hlba).symm
  · cases hpair

theorem CrashInv.mem_recordPairs (h : CrashInv idx cap s)
    {m : MixMetadata} (hm : m.perBlockNum = cap) {lba p : ℕ}
    (hlba : lba < 2 ^ 32) (hrecord : s.machine.cells.record p = some lba) :
    ∃ v, (lba, v) ∈ recordPairs m s.machine.store.dev idx m.perBlockNum := by
  have hblock : ∀ v : ℤ, m.bufferBlock idx v =
      s.machine.store.metaData.bufferBlock idx v :=
    fun v => MixMetadata.bufferBlock_congr (hm.trans h.cap_eq.symm) idx v
  obtain ⟨j, v, hv, rfl⟩ := h.wf.recorded _ _ hrecord
  by_cases hj : j = idx
  · subst hj
    refine ⟨v, Uhs.mem_recordPairs.mpr ⟨?_, ?_⟩⟩
    · rw [hm, ← h.cap_eq]
      exact h.machine.live_lt hv
    · simp only [Machine.cells] at hrecord
      simp only [recordPair, mixBufferGetMeta, hblock]
      split at hrecord
      · rename_i hvalid
        rw [Option.some.injEq] at hrecord
        rw [if_pos hvalid, hrecord, Nat.mod_eq_of_lt hlba]
      · cases hrecord
  · rw [h.alone j hj] at hv
    exact absurd hv List.not_mem_nil

theorem CrashInv.crashConsistent {blockNum : ℕ} (hsize : ValidSize blockNum)
    (migration : Fin 4 → Bool)
    (h : CrashInv idx (blockNum / segmentNum) s) :
    CrashConsistent blockNum migration idx s := by
  set m := mixMetadataInit blockNum migration with hm
  have hcap : m.perBlockNum = blockNum / segmentNum := rfl
  have hdistinct : ((recordPairs m s.machine.store.dev idx
      m.perBlockNum).map Prod.fst).Nodup := by
    refine List.Nodup.map_on ?_
      (List.Nodup.of_map _ (recordPairs_values_nodup m.perBlockNum))
    intro kv hkv kv' hkv' heq
    have hrecord := h.of_mem_recordPairs hcap hkv
    have hrecord' := h.of_mem_recordPairs hcap hkv'
    have hplace := h.wf.unique_place kv.1 _ _
      (h.wf.recorded _ _ hrecord) (h.wf.recorded _ _ (heq ▸ hrecord'))
    have hlt := (Uhs.mem_recordPairs.mp hkv).1
    have hlt' := (Uhs.mem_recordPairs.mp hkv').1
    rw [hcap, ← h.cap_eq] at hlt hlt'
    exact Prod.ext heq (MixMetadata.bufferBlock_inj
      (h.machine.segment idx).shape.per_lt hlt hlt' hplace).2
  intro lba hlba
  obtain ⟨hbuffered, hunbuffered⟩ :=
    recoveredBlock_spec hsize migration hm hdistinct hlba
  -- the recovered contents are those that the records show
  have hrecovered : ∀ x, s.machine.cells.Persistent lba x →
      recoveredBlock blockNum migration s.machine.store.dev idx lba =
        some x := by
    intro x hx
    by_cases hmem : ∃ v, (lba, v) ∈
        recordPairs m s.machine.store.dev idx m.perBlockNum
    · obtain ⟨v, hv⟩ := hmem
      have hrecord := h.of_mem_recordPairs hcap hv
      rw [hbuffered v hv, MixMetadata.bufferBlock_congr
        (hcap.trans h.cap_eq.symm)]
      exact congrArg some (hx.buffered _ hrecord)
    · rw [not_exists] at hmem
      rw [hunbuffered hmem]
      refine congrArg some (hx.unbuffered fun p hp => ?_)
      obtain ⟨v, hv⟩ := h.mem_recordPairs hcap hlba hp
      exact hmem v hv
  rcases h.contents lba with hold | ⟨task, htask, hk, hnew⟩
  · exact ⟨_, hrecovered _ hold, Or.inl rfl⟩
  · exact ⟨_, hrecovered _ hnew, Or.inr ⟨task, htask, hk, rfl⟩⟩

theorem initial_crashInv {blockNum : ℕ} (hsize : ValidSize blockNum)
    (migration : Fin 4 → Bool) {dev : Devices σ β}
    (hclean : ∀ p, (dev.bufferMeta p).status = 0) (segmentIdx : Fin 4)
    (migrateBuf : Fin T → β) (idx : Fin 4) :
    CrashInv idx (blockNum / segmentNum) (CrashMachine.initial T
      (freshStore blockNum migration dev) segmentIdx migrateBuf) := by
  have hlive := initial_live (T := T) blockNum migration dev
    segmentIdx migrateBuf
  have hnone : ∀ p, (Machine.initial T (freshStore blockNum migration dev)
      segmentIdx migrateBuf).cells.record p = none := by
    intro p
    simp [Machine.cells, Machine.initial, freshStore, hclean]
  have hnolive : ∀ k p, ¬ (Machine.initial T
      (freshStore blockNum migration dev) segmentIdx
        migrateBuf).cells.live k p := by
    rintro k p ⟨j, v, hv, -⟩
    rw [hlive j] at hv
    exact List.not_mem_nil hv
  refine ⟨initial_machineInv hsize migration dev segmentIdx migrateBuf, rfl,
    ?_, fun j _ => hlive j, ?_, ⟨⟨?_, ?_⟩, ?_⟩, trivial, ?_, ?_⟩
  · rintro j (hj | hj)
    · exact hj.elim
    · cases hj
  · intro kv hkv
    rw [CrashMachine.initial, hlive idx] at hkv
    exact absurd hkv List.not_mem_nil
  · exact fun k p _ hkp => absurd hkp (hnolive k p)
  · exact fun j _ p hjp => absurd hjp (hnolive j p)
  · intro k p hrecord
    rw [CrashMachine.initial, hnone p] at hrecord
    cases hrecord
  · exact fun k p hkp => absurd hkp (hnolive k p)
  · intro k
    refine Or.inl ⟨fun p hp => ?_, fun _ => rfl⟩
    rw [CrashMachine.initial, hnone p] at hp
    cases hp

/-- A crash between any two device stores of a run of buffered writes loses no
completed write, as long as every migration moves the data of its segment. -/
theorem crashConsistent_allStates {blockNum : ℕ} (hsize : ValidSize blockNum)
    (hpos : 0 < T) (hT : T ≤ 127) (migration rebuilt : Fin 4 → Bool)
    (dev : Devices σ β) (hclean : ∀ p, (dev.bufferMeta p).status = 0)
    (segmentIdx : Fin 4) (migrateBuf : Fin T → β) (idx : Fin 4)
    (events : List (CrashEvent T β))
    (hlba : ∀ event ∈ events, event.Addressable)
    (hsafe : AllSteps (crashStep idx) (MigratesSafely idx)
      (CrashMachine.initial T (freshStore blockNum migration dev) segmentIdx
        migrateBuf) events) :
    AllStates (crashStep idx) (CrashConsistent blockNum rebuilt idx)
      (CrashMachine.initial T (freshStore blockNum migration dev) segmentIdx
        migrateBuf) events := by
  have hall := allStates_of_allSteps
    (I := CrashInv idx (blockNum / segmentNum))
    (fun _ _ _ hinv hP hstep =>
      crashStep_crashInv hinv hpos hT hP.1 hP.2 hstep)
    (initial_crashInv hsize migration hclean segmentIdx migrateBuf idx)
    (hsafe.and_of_forall_mem hlba)
  exact hall.mono fun _ hinv => hinv.crashConsistent hsize rebuilt

/-! ## Closed runs -/

/-- The machine of eight migrate threads over a fresh store. -/
def freshCrashMachine : CrashMachine 8 (ℕ → ℕ) ℕ :=
  CrashMachine.initial 8 (freshStore 32 (fun _ => false) zeroDevices) 0
    fun _ => 0

/-- A write that finds a slot. -/
def plainWrite (lba x : ℕ) : List (CrashEvent 8 ℕ) :=
  .write (smallWrite lba x) :: List.replicate 4 .worker

/-- The blocks `r, r + 4, ..., r + 28` are written and then `r + 32`, which
finds all eight slots taken; thread `t` takes `steps[t]` steps to drain its
buckets. -/
def overflowRun (r : ℕ) (steps : List ℕ) : List (CrashEvent 8 ℕ) :=
  (List.range 8).flatMap (fun i => plainWrite (4 * i + r) (100 + i)) ++
    .write (smallWrite (32 + r) 200) :: List.replicate 2 .worker ++
    List.replicate 11 .coord ++
    ((List.finRange 8).zip steps).flatMap
      (fun (t, n) => List.replicate n (.thread t)) ++
    List.replicate 3 .coord ++ List.replicate 4 .worker

theorem crashConsistent_allStates_example :
    AllStates (crashStep 0) (CrashConsistent 32 (fun _ => false) 0)
      freshCrashMachine (overflowRun 0 [46, 31, 31, 31, 44, 34, 29, 34]) :=
  crashConsistent_allStates (by decide : ValidSize 32) (by decide)
    (by decide) _ _ _ (fun _ => rfl) _ _ _ _ (by decide +kernel)
    (by decide +kernel)

/-- The migration of segment `1` copies the buffer blocks of segment `0`; once
the slot of block `1` has been reused, its data are lost. -/
theorem crashConsistent_fails :
    ¬ AllStates (crashStep 1) (CrashConsistent 32 (fun _ => false) 1)
      freshCrashMachine (overflowRun 1 [41, 36, 31, 36, 39, 29, 34, 34]) := by
  intro hall
  have hrecovered := hall.mono
    (R := fun s => s.pc.writing.isNone →
      recoveredBlock 32 (fun _ => false) s.machine.store.dev 1 1 =
        some (s.written 1)) (by
    intro s hconsistent hnone
    obtain ⟨x, hx, rfl | ⟨task, htask, -, -⟩⟩ := hconsistent 1 (by decide)
    · exact hx
    · rw [htask] at hnone
      cases hnone)
  exact absurd hrecovered (by decide +kernel)

end Uhs
