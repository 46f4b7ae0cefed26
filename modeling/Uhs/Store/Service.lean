import Uhs.Migration.Progress
import Uhs.Migration.Service
import Uhs.Store.ExactlyOnce
import Uhs.Store.Mutex
import Uhs.Store.Tasks

/-!
# A store that goes on

The invariant on which the return of every call rests: a waiting client has
its task in a queue or at a worker, a migrating worker holds the mutex, no
signal of a migration is lost, and every segment can be migrated.
-/

namespace Uhs

open Support

variable {T : ℕ} {σ β : Type*} {s s' : System T σ β}
  {m m' : Machine T σ β} {i : Fin 4} {c : Fin 16} {task : IoTask β}

/-! ## Waiting clients -/

/-- The task that a client waits for has not been lost. -/
def Waits (s : System T σ β) : Prop :=
  ∀ c task, s.awaits c = some task → task ∈ s.pending (smallQueue task)

theorem TaskMoves.waits {events : List (Fin 16 × CallEvent β)}
    (hmoves : TaskMoves s s' events) (hpost : PostInv s) (h : Waits s) :
    Waits s' := by
  have hinv := hmoves.postInv hpost
  -- the clients that the step does not touch
  have hother : ∀ {c : Fin 16} {pc : ClientPc β},
      s'.clients = Function.update s.clients c pc →
      (∀ d, d ≠ c → s'.inflight d = s.inflight d) →
      (∀ j task, task ∈ s.pending j → task ∈ s'.pending j) →
      (∀ task, s'.awaits c = some task →
        task ∈ s'.pending (smallQueue task)) → Waits s' := by
    intro c pc hclients hinflight hpending hself d task hd
    by_cases hdc : d = c
    · exact hself task (hdc ▸ hd)
    · have hawaits : s'.awaits d = s.awaits d := System.awaits_congr
        (by rw [hclients, Function.update_of_ne hdc]) (hinflight d hdc)
      exact hpending _ _ (h d task (hawaits ▸ hd))
  -- a client that does not wait afterwards
  have hquiet : ∀ {c : Fin 16} {pc : ClientPc β}, (∀ task, pc ≠ .wait task) →
      s'.clients = Function.update s.clients c pc →
      (∀ d, d ≠ c → s'.inflight d = s.inflight d) →
      s'.pending = s.pending → Waits s' := by
    intro c pc hwait hclients hinflight hpending
    refine hother hclients hinflight (fun j task ht => hpending ▸ ht)
      fun task ht => ?_
    have hclient := (System.awaits_eq_some ht).1
    rw [hclients, Function.update_self] at hclient
    exact absurd hclient (hwait task)
  cases hmoves with
  | call hidle hposts hclients hinflight hrequest hworkers hpending =>
      refine hquiet (ClientPc.post_ne_wait _) hclients (fun d hd => ?_)
        hpending
      rw [hinflight, Function.update_of_ne hd]
  | @post c task hpc hclients hinflight hrequest hworkers hpending
      hpending_ne =>
      refine hother hclients (fun d _ => by rw [hinflight])
        (fun j t ht => ?_) fun t ht => ?_
      · by_cases hj : j = smallQueue task
        · subst hj
          exact hpending.mem_iff.mpr (List.mem_cons_of_mem _ ht)
        · rwa [hpending_ne j hj]
      · have hclient := (System.awaits_eq_some ht).1
        rw [hclients, Function.update_self] at hclient
        cases hclient
        exact hpending.mem_iff.mpr List.mem_cons_self
  | transfer hpc hpc' hserves hclients hinflight hrequest hworkers hpending =>
      refine hquiet (fun task htask => ?_) hclients
        (fun d _ => by rw [hinflight]) hpending
      rw [htask] at hpc'
      cases hpc'
  | «return» hpc hclients hinflight hrequest hworkers hpending =>
      exact hquiet (by simp) hclients (fun d _ => by rw [hinflight]) hpending
  | leave hpc hclients hinflight hrequest hworkers hpending =>
      exact hquiet (by simp) hclients (fun d _ => by rw [hinflight]) hpending
  | work hfits hcurrent hclients hinflight hrequest hworkers hpending =>
      intro d task hd
      have hawaits : s'.awaits d = s.awaits d :=
        System.awaits_congr (by rw [hclients]) (by rw [hinflight])
      rw [hpending]
      exact h d task (hawaits ▸ hd)
  | take hfits hready hcurrent htask hclients hinflight hrequest hworkers
      hpending =>
      intro d task hd
      have hawaits : s'.awaits d = s.awaits d :=
        System.awaits_congr (by rw [hclients]) (by rw [hinflight])
      exact (hpending _).mem_iff.mpr (h d task (hawaits ▸ hd))
  | @finish j done hpc hclients hinflight hrequest hworkers hpending
      hpending_ne =>
      intro d task hd
      have howner := hinv.owner_of_wait (System.awaits_eq_some hd).1
      have hposted := hpost.posted (System.mem_pending_of_finish hpc)
      have hne : d ≠ done.inflightBuffer := by
        rintro rfl
        have hpos := (System.awaits_eq_some hd).2
        rw [hinflight, Function.update_self, hposted.inflight] at hpos
        omega
      have hawaits : s'.awaits d = s.awaits d := System.awaits_congr
        (by rw [hclients]) (by rw [hinflight, Function.update_of_ne hne])
      have hold := h d task (hawaits ▸ hd)
      by_cases hj : smallQueue task = j
      · rw [hj] at hold ⊢
        rcases List.mem_cons.mp (hpending.mem_iff.mp hold) with rfl | hold
        · exact absurd howner.symm hne
        · exact hold
      · rwa [hpending_ne _ hj]

/-! ## The machine -/

/-- The machine of the migrations can go on. -/
structure MigratesOn (m : Machine T σ β) : Prop where
  tables : TablesInv m
  signal : SignalInv m
  flags : ∃ j, m.store.metaData.flags j = false

theorem MigratesOn.setDev (h : MigratesOn m) (dev : Devices σ β) :
    MigratesOn (m.setDev dev) :=
  ⟨h.tables.setDev dev, h.signal, h.flags⟩

theorem MigratesOn.coord (h : MigratesOn m) (hT : 0 < T)
    (hclear : SignalsClear m .coord) (hstep : coordStep m = some m') :
    MigratesOn m' where
  tables := h.tables.coordStep hT hstep
  signal := coordStep_signalInv h.signal hclear hstep
  flags := by
    rw [coordStep_flags hstep]
    exact h.flags

theorem MigratesOn.thread [BlockDevice σ β] (h : MigratesOn m) (hT : T ≤ 127)
    {t : Fin T} (hstep : threadStep t m = some m') : MigratesOn m' where
  tables := h.tables.threadStep hT hstep
  signal := threadStep_signalInv h.signal hstep
  flags := by
    rw [threadStep_flags hstep]
    exact h.flags

theorem MigratesOn.redirect (h : MigratesOn m) {pc pc' : WorkerPc β}
    (hheld : (∀ task, pc ≠ .migrating task) → ¬ m.coord.Held i)
    (hmax : ∀ task, pc.current = some task →
      lbaKey task.offset ≠ uint32Max)
    (hstep : redirectStep i m pc = some (m', pc')) : MigratesOn m' := by
  refine ⟨?_, ?_, ?_⟩
  · cases pc with
    | ready | nvmRead _ _ | nvmWrite _ _ | finish _ _ => cases hstep
    | data task slot | record task slot =>
        cases hstep
        exact h.tables.setDev _
    | lock task =>
        simp only [redirectStep] at hstep
        split at hstep
        · rename_i hidle
          cases hstep
          exact h.tables.call hidle i
        · cases hstep
    | start task =>
        obtain ⟨m₁, pc₁, hstart, hinv⟩ :=
          h.tables.workerStart (hheld (by simp)) (hmax task rfl)
        rw [redirectStep, hstart] at hstep
        cases hstep
        exact hinv
    | migrating task =>
        simp only [redirectStep] at hstep
        split at hstep
        · rename_i hreturned
          cases task with
          | none =>
              cases hstep
              exact h.tables.release hreturned
          | some task =>
              obtain ⟨m₁, pc₁, hresume, hinv⟩ :=
                h.tables.workerResume hreturned (hmax task rfl)
              rw [hresume] at hstep
              cases hstep
              exact hinv
        · cases hstep
  · cases redirectStep_moves hstep with
    | start | data | record => exact h.signal
    | call => exact callMigration_signalInv i m
    | release | resume => exact fun _ _ hsignalled => hsignalled.elim
  · rw [redirectStep_flags hstep]
    exact h.flags

/-! ## The system -/

/-- The store can serve the request to its end: the block that would end the
drain of a bucket is not buffered. -/
structure Request.Served (request : Request β) : Prop
    extends Request.Valid request where
  last : request.isWrite = true → request.len = 1 →
    request.offset ≠ nvmThreshold + uint32Max

instance (request : Request β) : Decidable request.Served :=
  decidable_of_iff
    (request.Valid ∧ (request.isWrite = true → request.len = 1 →
      request.offset ≠ nvmThreshold + uint32Max))
    ⟨fun h => ⟨h.1, h.2⟩, fun h => ⟨h.toValid, h.last⟩⟩

/-- Requests that can be served are made, and no flag is raised while its
thread is about to take it down. -/
def System.GoesOn (s : System T σ β) : SystemEvent T β → Prop
  | .call _ request => request.Served
  | .coord => SignalsClear s.machine .coord
  | _ => True

instance (s : System T σ β) : DecidablePred s.GoesOn
  | .call _ request => inferInstanceAs (Decidable request.Served)
  | .client _ => isTrue trivial
  | .worker _ => isTrue trivial
  | .migrate _ => isTrue trivial
  | .coord => inferInstanceAs (Decidable (SignalsClear s.machine .coord))
  | .thread _ => isTrue trivial

/-- The invariant of a store that goes on. -/
structure ServiceInv (s : System T σ β) : Prop where
  tasks : TaskInv s
  served : ∀ c, s.clients c ≠ .idle → (s.request c).Served
  mutex : MutexInv s
  holds : ∀ i task, s.workers i = .migrating task → s.machine.coord.Held i
  waits : Waits s
  machine : MigratesOn s.machine

/-- The block that a worker buffers is not the last one. -/
theorem ServiceInv.lbaKey_ne (h : ServiceInv s)
    (hcurrent : (s.workers i).current = some task)
    (hbranch : workerBranch task = .redirectWrite) :
    lbaKey task.offset ≠ uint32Max := by
  have hbuffers := h.tasks.buffers hcurrent hbranch
  have hposted := h.tasks.posted (System.mem_pending_of_worker hcurrent)
  have hserved := h.served task.inflightBuffer (by
    rw [hposted.client]
    simp)
  have hlast := hserved.last hbuffers.isWrite hbuffers.len
  rw [hbuffers.offset] at hlast
  rw [lbaKey, Nat.mod_eq_of_lt hbuffers.lt]
  omega

/-- The write that a worker is executing. -/
theorem redirectStep_branch {pc : WorkerPc β} {r : Machine T σ β × WorkerPc β}
    (hstep : redirectStep i m pc = some r) (hfits : pc.Fits)
    (hcurrent : pc.current = some task) :
    workerBranch task = .redirectWrite := by
  cases pc with
  | ready | nvmRead _ _ | nvmWrite _ _ | finish _ _ => cases hstep
  | start task' | data task' slot | record task' slot =>
      cases hcurrent
      exact hfits
  | lock task' | migrating task' => exact hfits task hcurrent

/-- What a worker does to the machine and to the holder of the mutex. -/
theorem ServiceInv.worker (h : ServiceInv s)
    (hmoves : WorkerMoves s i s') :
    MigratesOn s'.machine ∧
      ∀ j task, s'.workers j = .migrating task →
        s'.machine.coord.Held j := by
  -- a step that leaves the migrations alone
  have haside : ∀ {s' : System T σ β} {pc : WorkerPc β},
      (∃ dev, s'.machine = s.machine.setDev dev) →
      s'.workers = Function.update s.workers i pc →
      (∀ task, pc ≠ .migrating task) →
      MigratesOn s'.machine ∧ ∀ j task, s'.workers j = .migrating task →
        s'.machine.coord.Held j := by
    rintro s' pc ⟨dev, hmachine⟩ hworkers hpc
    rw [hmachine]
    refine ⟨h.machine.setDev dev, fun j task hj => h.holds j task ?_⟩
    rw [hworkers] at hj
    by_cases hji : j = i
    · rw [hji, Function.update_self] at hj
      exact absurd hj (hpc task)
    · rwa [Function.update_of_ne hji] at hj
  have hsame : ∃ dev, s.machine = s.machine.setDev dev :=
    ⟨s.machine.store.dev, rfl⟩
  have hready : s.workers i = .ready →
      s.workers = Function.update s.workers i .ready := fun hpc =>
    (hpc ▸ (Function.update_eq_self i s.workers).symm)
  -- a task that somebody waits for is taken out of a queue
  have htake : ∀ {r : System T σ β} {task : IoTask β},
      r.machine = s.machine → r.workers = s.workers →
      task ∈ s.pending i →
      MigratesOn (dispatch r i task).machine ∧
        ∀ j t, (dispatch r i task).workers j = .migrating t →
          (dispatch r i task).machine.coord.Held j := by
    intro r task hmachine hworkers htask
    obtain ⟨pc, hdispatch, -, -, hpc⟩ := dispatch_of_awaited (r := r)
      (i := i) (h.tasks.posted htask).branch_cases
    rw [hdispatch]
    have hset : (r.setWorker i pc).workers =
        Function.update s.workers i pc := by
      rw [System.setWorker, hworkers]
    refine haside (hmachine ▸ hsame) hset ?_
    rcases hpc with rfl | rfl | rfl <;> simp
  cases hmoves with
  | poll hpc seq => exact haside hsame (hready hpc) (by simp)
  | takeNvm hpc seq hqueue =>
      exact htake rfl rfl (by simp [System.pending, hqueue])
  | takeBuffer hpc seq hqueue =>
      rename_i task rest
      by_cases hskip : workerBranch task = .skip
      · have hdispatch : dispatch (System.setBufferQueue
            { s with seq := seq } i rest) i task =
            System.setBufferQueue { s with seq := seq } i rest := by
          rw [dispatch, hskip]
        rw [hdispatch]
        exact haside hsame (hready hpc) (by simp)
      · exact htake rfl rfl (by simp [System.pending, hqueue, hskip])
  | nvmRead | nvmReadEnd | nvmWriteEnd | finish =>
      exact haside hsame rfl (by simp)
  | nvmWrite => exact haside ⟨_, rfl⟩ rfl (by simp)
  | @redirect m pc hstep =>
      have hfits := h.tasks.fits i
      have hheld : (∀ task, s.workers i ≠ .migrating task) →
          ¬ s.machine.coord.Held i := by
        intro hpc hheld
        obtain ⟨task, htask⟩ := h.mutex.held i hheld
        exact hpc task htask
      refine ⟨h.machine.redirect hheld (fun task hcurrent =>
        h.lbaKey_ne hcurrent (redirectStep_branch hstep hfits hcurrent))
        hstep, fun j task hj => ?_⟩
      by_cases hji : j = i
      · subst hji
        rw [System.setWorker_self] at hj
        subst hj
        generalize s.workers j = cur at hstep
        cases redirectStep_moves hstep with
        | start hdev hpc => rcases hpc with hpc | ⟨slot, hpc⟩ <;> cases hpc
        | call hidle => exact Or.inl rfl
      · rw [System.setWorker_of_ne _ hji] at hj
        have hheldj := h.holds j task hj
        change m.coord.Held j
        rcases (redirectStep_coord h.mutex.handshake hstep).2 with
          ⟨hcoord, -⟩ | ⟨hpc, -⟩ | hidle
        · exact hcoord ▸ hheldj
        · -- the mutex was free, or another worker held it
          generalize s.workers i = cur at hstep
          cases redirectStep_moves hstep with
          | call hidle =>
              exact absurd (hidle ▸ hheldj) (CoordPc.not_held_idle j)
          | start hdev hpc' =>
              obtain ⟨t, rfl⟩ := hpc
              rcases hpc' with hpc' | ⟨slot, hpc'⟩ <;> cases hpc'
          | release | resume | data | record =>
              obtain ⟨t, hpc⟩ := hpc
              cases hpc
        · generalize s.workers i = cur at hstep
          cases redirectStep_moves hstep with
          | release hreturned | resume hreturned =>
              rw [hreturned] at hheldj
              rcases hheldj with hactive | heq
              · exact hactive.elim
              · cases heq
                exact absurd rfl hji
          | start | data | record => exact hidle ▸ hheldj
          | call => cases hidle

variable [BlockDevice σ β]

theorem systemStep_serviceInv {event : SystemEvent T β} (h : ServiceInv s)
    (hpos : 0 < T) (hT : T ≤ 127) (hgoes : s.GoesOn event)
    (hstep : systemStep s event = some s') : ServiceInv s' := by
  have hvalid : ∀ c request, event = .call c request → request.Served := by
    rintro c request rfl
    exact hgoes
  have hposts : event.Posts := by
    cases event with
    | call c request => exact hgoes.posts
    | client c | worker i | migrate i | coord | thread t => trivial
  have hmoves := h.tasks.systemStep_moves hposts hstep
  have hparts : MigratesOn s'.machine ∧ ∀ j task,
      s'.workers j = .migrating task → s'.machine.coord.Held j := by
    cases event with
    | call c request =>
        obtain ⟨-, rfl⟩ := systemStep_call_eq hstep
        exact ⟨h.machine, h.holds⟩
    | client c =>
        obtain ⟨⟨dev, hmachine, -⟩, hworkers⟩ := clientStep_aside hstep
        rw [hmachine, hworkers]
        exact ⟨h.machine.setDev dev, h.holds⟩
    | worker i => exact h.worker (Uhs.workerStep_moves hstep)
    | migrate i =>
        obtain ⟨-, rfl⟩ := systemStep_migrate_eq hstep
        refine ⟨h.machine, fun j task hj => h.holds j task ?_⟩
        by_cases hji : j = i
        · rw [hji, System.setWorker_self] at hj
          cases hj
        · rwa [System.setWorker_of_ne _ hji] at hj
    | coord =>
        simp only [systemStep, Option.map_eq_some_iff] at hstep
        obtain ⟨m, hm, rfl⟩ := hstep
        exact ⟨h.machine.coord hpos hgoes (coordAdvance_eq_some hm).2,
          fun j task hj => (coordAdvance_held hm j).mpr (h.holds j task hj)⟩
    | thread t =>
        simp only [systemStep, Option.map_eq_some_iff] at hstep
        obtain ⟨m, hm, rfl⟩ := hstep
        refine ⟨h.machine.thread hT hm, fun j task hj => ?_⟩
        exact (threadStep_frame hm).1 ▸ h.holds j task hj
  exact
    { tasks := systemStep_taskInv h.tasks
        (fun c request hcall => (hvalid c request hcall).toValid) hstep
      served := hmoves.forall_request (fun c request hmem =>
        hvalid c request (eq_call_of_mem_callEvents hmem)) h.served
      mutex := systemStep_mutexInv h.mutex hT hstep
      holds := hparts.2
      waits := hmoves.waits h.tasks.toPostInv h.waits
      machine := hparts.1 }

/-- The system over a freshly initialised store, before the first call. -/
theorem serviceInv_initial {blockNum : ℕ} (hsize : ValidSize blockNum)
    {migration : Fin 4 → Bool} (hflag : ∃ j, migration j = false)
    (dev : Devices σ β) (segmentIdx : Fin 4) (migrateBuf : Fin T → β)
    (inflight : Fin 16 → ℤ) (dst : Fin 16 → ℕ → β)
    (request : Fin 16 → Request β) :
    ServiceInv (System.initial T (freshStore blockNum migration dev)
      segmentIdx migrateBuf inflight dst request) where
  tasks := ⟨postInv_initial _ _ _ _ _ _, fun _ hbusy => absurd rfl hbusy⟩
  served := fun _ hbusy => absurd rfl hbusy
  mutex := ⟨initial_handshakeInv _ segmentIdx migrateBuf,
    fun j hj => absurd hj (CoordPc.not_held_idle j)⟩
  holds := nofun
  waits := fun c task h => by cases (System.awaits_eq_some h).1
  machine := ⟨initial_tablesInv hsize migration dev segmentIdx migrateBuf,
    fun _ _ hsignalled => hsignalled.elim, hflag⟩

end Uhs
