import Uhs.Migration.Redirect
import Uhs.Store.Steps

/-!
# The migration mutex

In every run the mutex is held by a worker that is inside of a migration of
its own segment.
-/

namespace Uhs

open Support

variable {T : ℕ} {σ β : Type*} [BlockDevice σ β]

/-- The handshake is intact and whoever holds the mutex is migrating. -/
structure MutexInv (s : System T σ β) : Prop where
  handshake : HandshakeInv s.machine
  held : ∀ j, s.machine.coord.Held j → ∃ task, s.workers j = .migrating task

variable {s s' : System T σ β} {m m' : Machine T σ β} {i : Fin 4}
  {pc pc' : WorkerPc β}

omit [BlockDevice σ β] in
theorem CoordPc.eq_idle_or_held (coord : CoordPc) :
    coord = .idle ∨ ∃ j, coord.Held j := by
  cases coord with
  | idle => exact Or.inl rfl
  | returned j => exact Or.inr ⟨j, Or.inr rfl⟩
  | storeIdx j | zero j | signal j _ | wait j | rezero j | clearBitmap j =>
      exact Or.inr ⟨j, Or.inl rfl⟩

omit [BlockDevice σ β] in
theorem CoordPc.not_held_idle (j : Fin 4) : ¬ CoordPc.Held j .idle := by
  rintro (hj | hj)
  · exact hj
  · cases hj

omit [BlockDevice σ β] in
/-- A step of `redirect_write` takes the mutex, gives it back, or leaves the
coordinator alone. -/
theorem redirectStep_coord (h : HandshakeInv m)
    (hstep : redirectStep i m pc = some (m', pc')) :
    HandshakeInv m' ∧
      (m'.coord = m.coord ∧ (∀ task, pc ≠ .migrating task) ∨
        (∃ task, pc' = .migrating task) ∧ (∀ j, m'.coord.Held j → j = i) ∨
        m'.coord = .idle) := by
  cases redirectStep_moves hstep with
  | start hdev hpc => exact ⟨h.setStore _, Or.inl ⟨rfl, by simp⟩⟩
  | data | record => exact ⟨h.setStore _, Or.inl ⟨rfl, by simp⟩⟩
  | @call task hidle =>
      refine ⟨h.call hidle i, Or.inr (Or.inl ⟨⟨task, rfl⟩, ?_⟩)⟩
      rintro j (hj | hj)
      · exact (hj : i = j).symm
      · simp [callMigration] at hj
  | release hreturned =>
      have hidle : HandshakeInv { m with coord := .idle } :=
        coordStep_handshakeInv h (by simp [coordStep, hreturned])
      exact ⟨hidle, Or.inr (Or.inr rfl)⟩
  | resume hreturned hdev =>
      have hidle : HandshakeInv { m with coord := .idle } :=
        coordStep_handshakeInv h (by simp [coordStep, hreturned])
      exact ⟨hidle.setStore _, Or.inr (Or.inr rfl)⟩

omit [BlockDevice σ β] in
/-- A step that changes at most the store, and no migrating worker. -/
theorem MutexInv.aside (h : MutexInv s) (store : Store σ β)
    (hmachine : s'.machine = s.machine.setStore store)
    (hworkers : ∀ j task, s.workers j = .migrating task →
      s'.workers j = .migrating task) : MutexInv s' where
  handshake := hmachine ▸ h.handshake.setStore store
  held := by
    intro j hj
    rw [hmachine] at hj
    obtain ⟨task, htask⟩ := h.held j hj
    exact ⟨task, hworkers j task htask⟩

theorem clientStep_aside {c : Fin 16} (hstep : clientStep s c = some s') :
    (∃ dev, s'.machine = s.machine.setStore
      ⟨s.machine.store.metaData, dev⟩ ∧
        dev.bufferMeta = s.machine.store.dev.bufferMeta) ∧
      s'.workers = s.workers := by
  have hsame : ∃ dev, s.machine = s.machine.setStore
      ⟨s.machine.store.metaData, dev⟩ ∧
        dev.bufferMeta = s.machine.store.dev.bufferMeta :=
    ⟨s.machine.store.dev, rfl, rfl⟩
  cases clientStep_moves hstep with
  | postNvm _ _ | postSmall _ | postSub _ | posted _ | wait _ _ | «return» _ =>
      exact ⟨hsame, rfl⟩
  | ssd _ =>
      unfold ssdTransfer
      split
      · exact ⟨hsame, rfl⟩
      · split
        · exact ⟨⟨_, rfl, rfl⟩, rfl⟩
        · exact ⟨hsame, rfl⟩

omit [BlockDevice σ β] in
theorem dispatch_aside (s : System T σ β) (i : Fin 4) (task : IoTask β) :
    (∃ store, (dispatch s i task).machine = s.machine.setStore store) ∧
      ∀ j, j ≠ i → (dispatch s i task).workers j = s.workers j := by
  unfold dispatch
  split
  · exact ⟨⟨s.machine.store, rfl⟩, fun j hj => by simp [System.setWorker, hj]⟩
  · exact ⟨⟨s.machine.store, rfl⟩, fun j hj => by simp [System.setWorker, hj]⟩
  · exact ⟨⟨_, rfl⟩, fun j _ => rfl⟩
  · exact ⟨⟨s.machine.store, rfl⟩, fun j _ => rfl⟩
  · exact ⟨⟨s.machine.store, rfl⟩, fun j hj => by simp [System.setWorker, hj]⟩
  · exact ⟨⟨s.machine.store, rfl⟩, fun j _ => rfl⟩

omit [BlockDevice σ β] in
theorem MutexInv.worker (h : MutexInv s)
    (hstep : workerStep s i = some s') : MutexInv s' := by
  -- a worker that is not migrating does not hold the mutex
  have haside : ∀ store : Store σ β, s'.machine = s.machine.setStore store →
      (∀ j, j ≠ i → s'.workers j = s.workers j) →
      (∀ task, s.workers i ≠ .migrating task) → MutexInv s' := by
    intro store hmachine hworkers hpc
    refine h.aside store hmachine fun j task htask => ?_
    by_cases hj : j = i
    · exact absurd (hj ▸ htask) (hpc task)
    · rw [hworkers j hj, htask]
  have hset : ∀ (pc : WorkerPc β) (j : Fin 4), j ≠ i →
      Function.update s.workers i pc j = s.workers j :=
    fun pc j hj => Function.update_of_ne hj _ _
  -- the step of `redirect_write`
  have hredirect : ∀ {m : Machine T σ β} {pc : WorkerPc β},
      redirectStep i s.machine (s.workers i) = some (m, pc) →
      MutexInv ((s.setMachine m).setWorker i pc) := by
    intro m pc hstep
    obtain ⟨hhand, hcases⟩ := redirectStep_coord h.handshake hstep
    refine ⟨hhand, fun j hj => ?_⟩
    rcases hcases with ⟨hcoord, hpc⟩ | ⟨⟨task, hpc⟩, howner⟩ | hidle
    · obtain ⟨task, htask⟩ := h.held j (hcoord ▸ hj)
      have hji : j ≠ i := by
        rintro rfl
        exact hpc task htask
      exact ⟨task, (hset pc j hji).trans htask⟩
    · obtain rfl := howner j hj
      exact ⟨task, by simp [System.setWorker, hpc]⟩
    · exact absurd (hidle ▸ hj) (CoordPc.not_held_idle j)
  cases workerStep_moves hstep with
  | poll hpc _ =>
      exact haside s.machine.store rfl (fun _ _ => rfl)
        (by simp [hpc])
  | takeNvm hpc _ _ | takeBuffer hpc _ _ =>
      obtain ⟨⟨store, hmachine⟩, hworkers⟩ := dispatch_aside _ i _
      exact haside store hmachine hworkers (by simp [hpc])
  | nvmRead hpc _ | nvmReadEnd hpc _ | nvmWriteEnd hpc _ | finish hpc =>
      exact haside s.machine.store rfl (hset _) (by simp [hpc])
  | nvmWrite hpc _ => exact haside _ rfl (hset _) (by simp [hpc])
  | redirect hmoved => exact hredirect hmoved

theorem systemStep_mutexInv {event : SystemEvent T β} (h : MutexInv s)
    (hT : T ≤ 127) (hstep : systemStep s event = some s') : MutexInv s' := by
  cases event with
  | call c request =>
      simp only [systemStep] at hstep
      split at hstep
      · cases hstep
        exact h.aside s.machine.store rfl fun _ _ h => h
      · cases hstep
  | client c =>
      obtain ⟨⟨dev, hmachine, -⟩, hworkers⟩ := clientStep_aside hstep
      exact h.aside _ hmachine fun j task htask => by rw [hworkers, htask]
  | worker i => exact h.worker hstep
  | migrate i =>
      simp only [systemStep] at hstep
      split at hstep
      · rename_i hpc
        cases hstep
        refine h.aside s.machine.store rfl fun j task htask => ?_
        have hji : j ≠ i := by
          rintro rfl
          rw [hpc] at htask
          cases htask
        exact (Function.update_of_ne hji _ _).trans htask
      · cases hstep
  | coord =>
      simp only [systemStep, Option.map_eq_some_iff] at hstep
      obtain ⟨m, hm, rfl⟩ := hstep
      exact ⟨coordStep_handshakeInv h.handshake (coordAdvance_eq_some hm).2,
        fun j hj => h.held j ((coordAdvance_held hm j).mp hj)⟩
  | thread t =>
      simp only [systemStep, Option.map_eq_some_iff] at hstep
      obtain ⟨m, hm, rfl⟩ := hstep
      refine ⟨threadStep_handshakeInv h.handshake hT hm, fun j hj => ?_⟩
      have hcoord := (threadStep_frame hm).1
      exact h.held j (hcoord ▸ hj)

/-- The mutex invariant holds in every reachable state. -/
theorem mutexInv_of_runOps (hT : T ≤ 127) {store : Store σ β}
    {segmentIdx : Fin 4} {migrateBuf : Fin T → β} {inflight : Fin 16 → ℤ}
    {dst : Fin 16 → ℕ → β} {request : Fin 16 → Request β}
    {events : List (SystemEvent T β)}
    (hrun : runOps systemStep (System.initial T store segmentIdx migrateBuf
      inflight dst request) events = some s) : MutexInv s := by
  have hinit : MutexInv (System.initial T store segmentIdx migrateBuf
      inflight dst request) :=
    ⟨initial_handshakeInv store segmentIdx migrateBuf,
      fun j hj => absurd hj (CoordPc.not_held_idle j)⟩
  exact (allStates_of_invariant
    (fun _ _ _ hinv hstep => systemStep_mutexInv hinv hT hstep)
    hinit).of_runOps hinit hrun

end Uhs
