import Uhs.Migration.Invariant
import Uhs.Store.TaskMoves

/-!
# Accesses to the NVM zone

The NVM zone is written by the workers alone, and each block that a worker
reads or writes belongs to the request whose client waits for it.
-/

namespace Uhs

open Support

variable {T : ℕ} {σ β : Type*}

/-- The request reads or writes logical block `b`. -/
def Request.Covers (request : Request β) (b : ℕ) : Prop :=
  request.offset ≤ b ∧ b < request.offset + request.len

instance (request : Request β) (b : ℕ) : Decidable (request.Covers b) :=
  inferInstanceAs (Decidable (_ ∧ _))

/-- The request is a write that covers block `b`. -/
def Request.Writes (request : Request β) (b : ℕ) : Prop :=
  request.isWrite = true ∧ request.Covers b

instance (request : Request β) (b : ℕ) : Decidable (request.Writes b) :=
  inferInstanceAs (Decidable (_ ∧ _))

/-- A call of client `c` is running. -/
def System.Running (s : System T σ β) (c : Fin 16) : Prop :=
  s.clients c ≠ .idle ∧ ∀ task, s.clients c ≠ .returned task

instance (s : System T σ β) (c : Fin 16) : Decidable (s.Running c) := by
  unfold System.Running
  cases s.clients c with
  | idle => exact isFalse fun h => h.1 rfl
  | returned task => exact isFalse fun h => h.2 task rfl
  | postNvm _ | postSmall _ | postSub _ _ | ssd _ | wait _ =>
      exact isTrue ⟨nofun, nofun⟩

variable {s s' : System T σ β} {c d : Fin 16} {i : Fin 4} {task : IoTask β}
  {events : List (Fin 16 × CallEvent β)} {request : Request β} {b : ℕ}

theorem System.running_of_wait (h : s.clients c = .wait task) :
    s.Running c := by
  rw [System.Running, h]
  exact ⟨nofun, nofun⟩

/-- A call that is running after a step was running before it or has just been
made. -/
theorem TaskMoves.running (hmoves : TaskMoves s s' events)
    (hrunning : s'.Running d) :
    s.Running d ∧ s'.request d = s.request d ∨
      (d, .called (s'.request d)) ∈ events := by
  -- a step of a client that was running before
  have hkeep : ∀ {c : Fin 16} {pc : ClientPc β},
      (s'.Running c → s.Running c) →
      s'.clients = Function.update s.clients c pc → s'.request = s.request →
      s.Running d ∧ s'.request d = s.request d := by
    intro c pc hbefore hclients hrequest
    rw [hrequest]
    by_cases hd : d = c
    · exact ⟨hd ▸ hbefore (hd ▸ hrunning), rfl⟩
    · rw [System.Running, hclients, Function.update_of_ne hd] at hrunning
      exact ⟨hrunning, rfl⟩
  cases hmoves with
  | @call c request hidle hposts hclients hinflight hrequest =>
      by_cases hd : d = c
      · subst hd
        rw [hrequest, Function.update_self]
        exact Or.inr List.mem_cons_self
      · rw [System.Running, hclients, Function.update_of_ne hd] at hrunning
        rw [hrequest, Function.update_of_ne hd]
        exact Or.inl ⟨hrunning, rfl⟩
  | post hpc hclients hinflight hrequest =>
      refine Or.inl (hkeep (fun _ => ?_) hclients hrequest)
      rcases hpc with hpc | hpc
      · rw [System.Running, hpc]
        exact ⟨nofun, nofun⟩
      · rw [System.Running, hpc]
        exact ⟨nofun, nofun⟩
  | @transfer c pc hpc hpc' hserves hclients hinflight hrequest =>
      refine Or.inl (hkeep (c := c) (fun _ => ?_) hclients hrequest)
      constructor
      · intro hidle
        rw [hidle] at hpc
        cases hpc
      · intro t ht
        rw [ht] at hpc
        cases hpc
  | @«return» c task hpc hclients hinflight hrequest =>
      refine Or.inl (hkeep (fun h => ?_) hclients hrequest)
      rw [System.Running, hclients, Function.update_self] at h
      exact absurd rfl (h.2 task)
  | @leave c task hpc hclients hinflight hrequest =>
      refine Or.inl (hkeep (fun h => ?_) hclients hrequest)
      rw [System.Running, hclients, Function.update_self] at h
      exact absurd rfl h.1
  | work hfits hcurrent hclients hinflight hrequest =>
      rw [System.Running, hclients] at hrunning
      exact Or.inl ⟨hrunning, by rw [hrequest]⟩
  | take hfits hready hcurrent htask hclients hinflight hrequest =>
      rw [System.Running, hclients] at hrunning
      exact Or.inl ⟨hrunning, by rw [hrequest]⟩
  | finish hpc hclients hinflight hrequest =>
      rw [System.Running, hclients] at hrunning
      exact Or.inl ⟨hrunning, by rw [hrequest]⟩

/-- The worker of an NVM task has the range of the request. -/
theorem Posted.nvm_fields (h : Posted s i task)
    (hbranch : workerBranch task = .nvmRead ∨ workerBranch task = .nvmWrite) :
    task.offset = (s.request task.inflightBuffer).offset ∧
      task.buf = (s.request task.inflightBuffer).buf := by
  rcases h.posts.task_cases task.inflightBuffer with ⟨-, heq⟩ | heq <;>
    rw [← h.task_eq] at heq
  · rw [heq]
    exact ⟨rfl, rfl⟩
  · have htype : task.type = .ssd := by rw [heq]
    have hssd := h.branch
    rw [htype] at hssd
    rcases hbranch with hbranch | hbranch <;> rw [hssd] at hbranch <;>
      cases hbranch

/-- An NVM task lies in the NVM zone. -/
theorem Posted.nvm_range (h : Posted s i task)
    (hbranch : workerBranch task = .nvmRead ∨ workerBranch task = .nvmWrite) :
    (s.request task.inflightBuffer).offset +
      (s.request task.inflightBuffer).len < nvmThreshold := by
  rcases h.posts.task_cases task.inflightBuffer with ⟨hrange, -⟩ | heq
  · exact hrange
  · rw [← h.task_eq] at heq
    have htype : task.type = .ssd := by rw [heq]
    have hssd := h.branch
    rw [htype] at hssd
    rcases hbranch with hbranch | hbranch <;> rw [hssd] at hbranch <;>
      cases hbranch

theorem Posted.nvmWrite_isWrite (h : Posted s i task)
    (hbranch : workerBranch task = .nvmWrite) :
    (s.request task.inflightBuffer).isWrite = true := by
  rw [h.branch] at hbranch
  split at hbranch
  · assumption
  · cases hbranch
  · cases hbranch

theorem Posted.nvmRead_isWrite (h : Posted s i task)
    (hbranch : workerBranch task = .nvmRead) :
    (s.request task.inflightBuffer).isWrite = false := by
  rw [h.branch] at hbranch
  split at hbranch
  · cases hbranch
  · assumption
  · cases hbranch

theorem PostInv.posted_nvmRead (h : PostInv s) {n : ℕ}
    (hpc : s.workers i = .nvmRead task n) :
    Posted s i task ∧ workerBranch task = .nvmRead := by
  have hfits := h.fits i
  rw [hpc] at hfits
  exact ⟨h.posted (System.mem_pending_of_worker (by rw [hpc]; rfl)), hfits.1⟩

theorem PostInv.posted_nvmWrite (h : PostInv s) {n : ℕ}
    (hpc : s.workers i = .nvmWrite task n) :
    Posted s i task ∧ workerBranch task = .nvmWrite := by
  have hfits := h.fits i
  rw [hpc] at hfits
  exact ⟨h.posted (System.mem_pending_of_worker (by rw [hpc]; rfl)), hfits.1⟩

/-! ## What a step changes -/

/-- The contents of the NVM zone. -/
def System.nvm (s : System T σ β) : ℕ → β := s.machine.store.dev.nvm

/-- What a step does to the NVM zone and to the memory of the clients. -/
inductive ZoneMoves (s s' : System T σ β) : SystemEvent T β → Prop
  | same {event : SystemEvent T β} (hnvm : s'.nvm = s.nvm)
      (hdst : s'.dst = s.dst) : ZoneMoves s s' event
  | call {c : Fin 16} {request : Request β} (hnvm : s'.nvm = s.nvm)
      (hdst : s'.dst = Function.update s.dst c request.buf) :
      ZoneMoves s s' (.call c request)
  | transfer {event : SystemEvent T β} {c : Fin 16} {task : IoTask β}
      (hpc : s.clients c = .ssd task) (hnvm : s'.nvm = s.nvm)
      (hdst : ∀ d, d ≠ c → s'.dst d = s.dst d) : ZoneMoves s s' event
  | read {i : Fin 4} {task : IoTask β} {n : ℕ}
      (hpc : s.workers i = .nvmRead task n) (hn : n < task.len)
      (hnvm : s'.nvm = s.nvm)
      (hdst : s'.dst = Function.update s.dst task.inflightBuffer
        (Function.update (s.dst task.inflightBuffer) n
          (s.nvm (task.offset + n)))) :
      ZoneMoves s s' (.worker i)
  | write {i : Fin 4} {task : IoTask β} {n : ℕ}
      (hpc : s.workers i = .nvmWrite task n) (hn : n < task.len)
      (hnvm : s'.nvm = Function.update s.nvm (task.offset + n) (task.buf n))
      (hdst : s'.dst = s.dst) :
      ZoneMoves s s' (.worker i)

section Steps

variable [BlockDevice σ β]

omit [BlockDevice σ β] in
theorem coordAdvance_nvm {m m' : Machine T σ β}
    (hstep : coordAdvance m = some m') :
    m'.store.dev.nvm = m.store.dev.nvm := by
  rcases coordStep_cases (coordAdvance_eq_some hstep).2 with
    ⟨idx, -, rfl⟩ | ⟨hstore, -⟩
  · rfl
  · rw [hstore]

theorem threadStep_nvm {m m' : Machine T σ β} {t : Fin T}
    (hstep : threadStep t m = some m') :
    m'.store.dev.nvm = m.store.dev.nvm := by
  cases threadStep_cases hstep
  all_goals rfl

omit [BlockDevice σ β] in
theorem redirectStep_nvm {m m' : Machine T σ β} {pc pc' : WorkerPc β}
    (hstep : redirectStep i m pc = some (m', pc')) :
    m'.store.dev.nvm = m.store.dev.nvm := by
  cases redirectStep_moves hstep with
  | start hdev hpc => exact congrArg Devices.nvm hdev
  | resume hreturned hdev => exact congrArg Devices.nvm hdev
  | call hidle | release hreturned | data | record => rfl

theorem clientStep_zoneMoves {event : SystemEvent T β}
    (hstep : clientStep s c = some s') : ZoneMoves s s' event := by
  cases clientStep_moves hstep with
  | postNvm hpc hqueue => exact .same rfl rfl
  | postSmall hpc => exact .same rfl rfl
  | postSub hpc => exact .same rfl rfl
  | posted hpc => exact .same rfl rfl
  | @ssd task hpc =>
      refine .transfer hpc ?_ fun d hd => ?_
      · change (ssdTransfer s c task).nvm = s.nvm
        unfold ssdTransfer
        split
        · rfl
        · split <;> rfl
      · change (ssdTransfer s c task).dst d = s.dst d
        unfold ssdTransfer
        split
        · exact Function.update_of_ne hd _ _
        · split <;> rfl
  | wait hpc hinflight => exact .same rfl rfl
  | «return» hpc => exact .same rfl rfl

omit [BlockDevice σ β] in
/-- A worker that takes a task touches nothing else. -/
theorem Posted.dispatch_zone {r : System T σ β} (h : Posted s i task) :
    (dispatch r i task).nvm = r.nvm ∧ (dispatch r i task).dst = r.dst := by
  obtain ⟨pc, hdispatch, -⟩ :=
    dispatch_of_awaited (r := r) (i := i) h.branch_cases
  rw [hdispatch]
  exact ⟨rfl, rfl⟩

omit [BlockDevice σ β] in
theorem PostInv.workerStep_zoneMoves (h : PostInv s)
    (hstep : workerStep s i = some s') :
    ZoneMoves s s' (.worker i) := by
  cases Uhs.workerStep_moves hstep with
  | poll hpc seq => exact .same rfl rfl
  | @takeNvm _ seq task rest hqueue =>
      obtain ⟨hnvm, hdst⟩ := (h.posted (show task ∈ s.pending i by
        simp [System.pending, hqueue])).dispatch_zone
      exact .same hnvm hdst
  | @takeBuffer _ seq task rest hqueue =>
      by_cases hskip : workerBranch task = .skip
      · rw [dispatch, hskip]
        exact .same rfl rfl
      · obtain ⟨hnvm, hdst⟩ := (h.posted (show task ∈ s.pending i by
          simp [System.pending, hqueue, hskip])).dispatch_zone
        exact .same hnvm hdst
  | nvmRead hpc hn => exact .read hpc hn rfl rfl
  | nvmReadEnd hpc hn => exact .same rfl rfl
  | nvmWrite hpc hn => exact .write hpc hn (mixNvmWrite_one _ _ _) rfl
  | nvmWriteEnd hpc hn => exact .same rfl rfl
  | finish hpc => exact .same rfl rfl
  | redirect hredirect => exact .same (redirectStep_nvm hredirect) rfl

theorem PostInv.systemStep_zoneMoves {event : SystemEvent T β}
    (h : PostInv s) (hstep : systemStep s event = some s') :
    ZoneMoves s s' event := by
  cases event with
  | call c request =>
      simp only [systemStep] at hstep
      split at hstep
      · cases hstep
        exact .call rfl rfl
      · cases hstep
  | client c => exact clientStep_zoneMoves hstep
  | worker i => exact h.workerStep_zoneMoves hstep
  | migrate i =>
      simp only [systemStep] at hstep
      split at hstep
      · cases hstep
        exact .same rfl rfl
      · cases hstep
  | coord =>
      simp only [systemStep, Option.map_eq_some_iff] at hstep
      obtain ⟨m, hstep, rfl⟩ := hstep
      exact .same (coordAdvance_nvm hstep) rfl
  | thread t =>
      simp only [systemStep, Option.map_eq_some_iff] at hstep
      obtain ⟨m, hstep, rfl⟩ := hstep
      exact .same (threadStep_nvm hstep) rfl

end Steps

end Uhs
