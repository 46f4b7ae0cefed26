import Uhs.Store.System

/-!
# What a client and a worker can do

The cases of `clientStep` and `workerStep`, each with the state it leads to.
-/

namespace Uhs

open Support

variable {T : ℕ} {σ β : Type*} [BlockDevice σ β] {s s' : System T σ β}

/-- The steps of client `c`. -/
inductive ClientMoves (s : System T σ β) (c : Fin 16) : System T σ β → Prop
  | postNvm {task : IoTask β} (hpc : s.clients c = .postNvm task)
      {queue : List (IoTask β)}
      (hqueue : queue = s.nvmQueue (smallQueue task) ∨
        queue = s.nvmQueue (smallQueue task) ++ [task]) :
      ClientMoves s c
        ((s.setNvmQueue (smallQueue task) queue).setClient c (.wait task))
  | postSmall {task : IoTask β} (hpc : s.clients c = .postSmall task) :
      ClientMoves s c ((s.setBufferQueue (smallQueue task)
        (s.bufferQueue (smallQueue task) ++ [task])).setClient c
          (.wait task))
  | postSub {task : IoTask β} {n : ℕ} (hpc : s.clients c = .postSub task n) :
      ClientMoves s c ((s.setBufferQueue (subTask task n).1
        (s.bufferQueue (subTask task n).1 ++ [(subTask task n).2])).setClient
          c (.postSub task (n + 1)))
  | posted {task : IoTask β} {n : ℕ} (hpc : s.clients c = .postSub task n) :
      ClientMoves s c (s.setClient c (.ssd task))
  | ssd {task : IoTask β} (hpc : s.clients c = .ssd task) :
      ClientMoves s c ((ssdTransfer s c task).setClient c (.returned task))
  | wait {task : IoTask β} (hpc : s.clients c = .wait task)
      (hinflight : s.inflight c ≤ 0) :
      ClientMoves s c (s.setClient c (.returned task))
  | return {task : IoTask β} (hpc : s.clients c = .returned task) :
      ClientMoves s c (s.setClient c .idle)

omit [BlockDevice σ β] in
theorem mixEnqueue_cases {α : Type*} (queue : List α) (task : α) :
    mixEnqueue queue task = (queue ++ [task], 1) ∨
      mixEnqueue queue task = (queue, 0) := by
  unfold mixEnqueue
  split
  · exact Or.inl rfl
  · exact Or.inr rfl

theorem clientStep_moves {c : Fin 16} (hstep : clientStep s c = some s') :
    ClientMoves s c s' := by
  unfold clientStep at hstep
  cases hpc : s.clients c with
  | idle => simp [hpc] at hstep
  | postNvm task =>
      simp only [hpc, Option.some.injEq] at hstep
      subst hstep
      refine .postNvm hpc ?_
      rcases mixEnqueue_cases (s.nvmQueue (smallQueue task)) task with h | h
      · exact Or.inr (by rw [h])
      · exact Or.inl (by rw [h])
  | postSmall task =>
      simp only [hpc] at hstep
      rcases mixEnqueue_cases (s.bufferQueue (smallQueue task)) task with h | h
      · rw [h] at hstep
        cases hstep
        exact .postSmall hpc
      · rw [h] at hstep
        cases hstep
  | postSub task n =>
      simp only [hpc] at hstep
      split at hstep
      · split at hstep
        · cases hstep
          exact .posted hpc
        · rcases mixEnqueue_cases (s.bufferQueue (subTask task n).1)
            (subTask task n).2 with h | h
          · rw [h] at hstep
            cases hstep
            exact .postSub hpc
          · rw [h] at hstep
            cases hstep
      · cases hstep
        exact .posted hpc
  | ssd task =>
      simp only [hpc] at hstep
      split at hstep
      · cases hstep
      · cases hstep
        exact .ssd hpc
  | wait task =>
      simp only [hpc] at hstep
      split at hstep
      · cases hstep
      · rename_i hinflight
        cases hstep
        exact .wait hpc (by omega)
  | returned task =>
      simp only [hpc, Option.some.injEq] at hstep
      subst hstep
      exact .return hpc

/-- The steps of worker `i`. -/
inductive WorkerMoves (s : System T σ β) (i : Fin 4) :
    System T σ β → Prop
  | poll (hpc : s.workers i = .ready) (seq : Fin 4 → ℕ) :
      WorkerMoves s i { s with seq := seq }
  | takeNvm (hpc : s.workers i = .ready) (seq : Fin 4 → ℕ)
      {task : IoTask β} {rest : List (IoTask β)}
      (hqueue : s.nvmQueue i = task :: rest) :
      WorkerMoves s i
        (dispatch (System.setNvmQueue { s with seq := seq } i rest) i task)
  | takeBuffer (hpc : s.workers i = .ready) (seq : Fin 4 → ℕ)
      {task : IoTask β} {rest : List (IoTask β)}
      (hqueue : s.bufferQueue i = task :: rest) :
      WorkerMoves s i
        (dispatch (System.setBufferQueue { s with seq := seq } i rest) i task)
  | nvmRead {task : IoTask β} {n : ℕ} (hpc : s.workers i = .nvmRead task n)
      (hn : n < task.len) :
      WorkerMoves s i ((s.deliver task.inflightBuffer n
        (s.machine.store.dev.nvm (task.offset + n))).setWorker i
          (.nvmRead task (n + 1)))
  | nvmReadEnd {task : IoTask β} {n : ℕ}
      (hpc : s.workers i = .nvmRead task n) (hn : task.len ≤ n) :
      WorkerMoves s i (s.setWorker i (.finish task (toInt32 task.len)))
  | nvmWrite {task : IoTask β} {n : ℕ} (hpc : s.workers i = .nvmWrite task n)
      (hn : n < task.len) :
      WorkerMoves s i ((s.setDev (mixNvmWrite s.machine.store.dev
        (fun _ => task.buf n) 1 (task.offset + n))).setWorker i
          (.nvmWrite task (n + 1)))
  | nvmWriteEnd {task : IoTask β} {n : ℕ}
      (hpc : s.workers i = .nvmWrite task n) (hn : task.len ≤ n) :
      WorkerMoves s i (s.setWorker i (.finish task (toInt32 task.len)))
  | finish {task : IoTask β} {ret : ℤ} (hpc : s.workers i = .finish task ret) :
      WorkerMoves s i ((s.fetchSub task.inflightBuffer ret).setWorker i
        .ready)
  | redirect {m : Machine T σ β} {pc : WorkerPc β}
      (hstep : redirectStep i s.machine (s.workers i) = some (m, pc)) :
      WorkerMoves s i ((s.setMachine m).setWorker i pc)

omit [BlockDevice σ β] in
theorem workerStep_moves {i : Fin 4} (hstep : workerStep s i = some s') :
    WorkerMoves s i s' := by
  unfold workerStep at hstep
  cases hpc : s.workers i with
  | ready =>
      simp only [hpc, Option.some.injEq] at hstep
      subst hstep
      unfold workerPoll
      split
      · split
        · exact .poll hpc _
        · rename_i hqueue
          exact .takeNvm hpc _ hqueue
      · split
        · exact .poll hpc _
        · rename_i hqueue
          exact .takeBuffer hpc _ hqueue
  | nvmRead task n =>
      simp only [hpc] at hstep
      split at hstep
      · rename_i hn
        cases hstep
        exact .nvmRead hpc hn
      · rename_i hn
        cases hstep
        exact .nvmReadEnd hpc (by omega)
  | nvmWrite task n =>
      simp only [hpc] at hstep
      split at hstep
      · rename_i hn
        cases hstep
        exact .nvmWrite hpc hn
      · rename_i hn
        cases hstep
        exact .nvmWriteEnd hpc (by omega)
  | finish task ret =>
      simp only [hpc, Option.some.injEq] at hstep
      subst hstep
      exact .finish hpc
  | start task | lock task | migrating task | data task slot
  | record task slot =>
      simp only [hpc, Option.map_eq_some_iff] at hstep
      obtain ⟨⟨m, pc⟩, hstep, rfl⟩ := hstep
      exact .redirect (by rw [hpc]; exact hstep)

/-! ## Steps inside `redirect_write` -/

/-- The steps of a worker inside `redirect_write`. -/
inductive RedirectMoves (i : Fin 4) (m : Machine T σ β) :
    WorkerPc β → Machine T σ β → WorkerPc β → Prop
  | start {task : IoTask β} {store : Store σ β} {pc : WorkerPc β}
      (hdev : store.dev = m.store.dev)
      (hpc : pc = .lock (some task) ∨ ∃ slot, pc = .data task slot) :
      RedirectMoves i m (.start task) (m.setStore store) pc
  | call {task : Option (IoTask β)} (hidle : m.coord = .idle) :
      RedirectMoves i m (.lock task) (callMigration i m) (.migrating task)
  | release (hreturned : m.coord = .returned i) :
      RedirectMoves i m (.migrating none) { m with coord := .idle } .ready
  | resume {task : IoTask β} {slot : ℤ} {store : Store σ β}
      (hreturned : m.coord = .returned i) (hdev : store.dev = m.store.dev) :
      RedirectMoves i m (.migrating (some task))
        (Machine.setStore { m with coord := .idle } store) (.data task slot)
  | data {task : IoTask β} {slot : ℤ} :
      RedirectMoves i m (.data task slot)
        (m.setDev (mixBufferWriteData m.store.dev (task.buf 0)
          (m.store.metaData.bufferBlock i slot))) (.record task slot)
  | record {task : IoTask β} {slot : ℤ} :
      RedirectMoves i m (.record task slot)
        (m.setDev (mixBufferWriteMeta m.store.dev task.offset
          (m.store.metaData.bufferBlock i slot) task.opcode))
        (.finish task (toInt32 task.len))

omit [BlockDevice σ β] in
theorem claimSlot_dev {store : Store σ β} {task : IoTask β} {i : Fin 4}
    {migrated : Bool} {offset : ℤ} {choice : SlotChoice σ β}
    (h : claimSlot store task i migrated offset = some choice) :
    choice.store.dev = store.dev := by
  simp only [claimSlot, Option.map_eq_some_iff] at h
  obtain ⟨metaData, -, rfl⟩ := h
  rfl

omit [BlockDevice σ β] in
theorem redirectStep_moves {i : Fin 4} {m m' : Machine T σ β}
    {pc pc' : WorkerPc β} (hstep : redirectStep i m pc = some (m', pc')) :
    RedirectMoves i m pc m' pc' := by
  cases pc with
  | ready | nvmRead _ _ | nvmWrite _ _ | finish _ _ => cases hstep
  | data task slot =>
      cases hstep
      exact .data
  | record task slot =>
      cases hstep
      exact .record
  | lock task =>
      simp only [redirectStep] at hstep
      split at hstep
      · rename_i hidle
        cases hstep
        exact .call hidle
      · cases hstep
  | migrating task =>
      simp only [redirectStep] at hstep
      split at hstep
      · rename_i hreturned
        cases task with
        | none =>
            cases hstep
            exact .release hreturned
        | some task =>
            simp only [workerResume, takeSlot, Option.map_eq_some_iff,
              Prod.mk.injEq, Option.bind_eq_some_iff] at hstep
            obtain ⟨choice, ⟨r, -, hclaim⟩, rfl, rfl⟩ := hstep
            have hdev := claimSlot_dev hclaim
            exact .resume hreturned hdev
      · cases hstep
  | start task =>
      simp only [redirectStep, workerStart] at hstep
      split at hstep
      · rw [Option.bind_eq_some_iff] at hstep
        obtain ⟨r, -, hstep⟩ := hstep
        split at hstep
        · cases hstep
          exact .start rfl (Or.inl rfl)
        · simp only [Option.map_eq_some_iff, Prod.mk.injEq] at hstep
          obtain ⟨choice, hclaim, rfl, rfl⟩ := hstep
          have hdev := claimSlot_dev hclaim
          exact .start hdev (Or.inr ⟨choice.slot, rfl⟩)
      · cases hstep
        exact .start rfl (Or.inr ⟨_, rfl⟩)

/-- Only an idle client calls. -/
theorem systemStep_call_eq {c : Fin 16} {request : Request β}
    (hstep : systemStep s (.call c request) = some s') :
    s.clients c = .idle ∧ s' = clientCall s c request := by
  simp only [systemStep] at hstep
  split at hstep
  · rename_i hidle
    cases hstep
    exact ⟨hidle, rfl⟩
  · cases hstep

/-- Only a ready worker migrates. -/
theorem systemStep_migrate_eq {i : Fin 4}
    (hstep : systemStep s (.migrate i) = some s') :
    s.workers i = .ready ∧ s' = s.setWorker i (.lock none) := by
  simp only [systemStep] at hstep
  split at hstep
  · rename_i hready
    cases hstep
    exact ⟨hready, rfl⟩
  · cases hstep

end Uhs
