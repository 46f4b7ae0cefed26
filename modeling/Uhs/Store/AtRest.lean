import Uhs.Store.Progress
import Uhs.Store.ReadYourWrites

/-!
# Every call returns

Wherever calls and migrations are under way, some party can take a turn that
is not a poll in vain.  Since such turns do the work that is left, a fair
schedule of turns brings the store to rest: every call has returned, every
queue is empty and no migration is running.
-/

namespace Uhs

open Support

variable {T : ℕ} {σ β : Type*} {s s' : System T σ β}
  {m : Machine T σ β} {i : Fin 4} {task : IoTask β}

/-- Nothing is under way. -/
structure AtRest (s : System T σ β) : Prop where
  clients : ∀ c, s.clients c = .idle
  workers : ∀ i, s.workers i = .ready
  nvmQueue : ∀ i, s.nvmQueue i = []
  bufferQueue : ∀ i, s.bufferQueue i = []
  coord : s.machine.coord = .idle
  threads : ∀ t, s.machine.threads t = .test
  migration : ∀ t, s.machine.migration t = false

instance (s : System T σ β) : Decidable (AtRest s) :=
  decidable_of_iff
    ((∀ c, s.clients c = .idle) ∧ (∀ i, s.workers i = .ready) ∧
      (∀ i, s.nvmQueue i = []) ∧ (∀ i, s.bufferQueue i = []) ∧
      s.machine.coord = .idle ∧ (∀ t, s.machine.threads t = .test) ∧
      ∀ t, s.machine.migration t = false)
    ⟨fun ⟨hc, hw, hn, hb, hi, ht, hm⟩ => ⟨hc, hw, hn, hb, hi, ht, hm⟩,
      fun h => ⟨h.clients, h.workers, h.nvmQueue, h.bufferQueue, h.coord,
        h.threads, h.migration⟩⟩

/-! ## Who cannot take a turn -/

/-- The coordinator stands still between two migrations and at its wait. -/
theorem coordAdvance_eq_none (h : coordAdvance m = none) :
    m.coord = .idle ∨ (∃ j, m.coord = .returned j) ∨
      ∃ idx, m.coord = .wait idx ∧ m.completed idx < T := by
  unfold coordAdvance coordStep at h
  cases hcoord : m.coord with
  | idle => exact Or.inl rfl
  | returned j => exact Or.inr (Or.inl ⟨j, rfl⟩)
  | wait idx =>
      refine Or.inr (Or.inr ⟨idx, rfl, ?_⟩)
      simp only [hcoord] at h
      split at h
      · assumption
      · cases h
  | storeIdx _ | zero _ | rezero _ | clearBitmap _ => simp [hcoord] at h
  | signal idx n =>
      simp only [hcoord] at h
      split at h <;> cases h

theorem mixEnqueue_nil {α : Type*} (task : α) :
    mixEnqueue [] task = ([task], 1) := rfl

section Threads

variable [BlockDevice σ β]

/-- A thread stands still at its flag test, with its flag down. -/
theorem threadStep_eq_none {t : Fin T} (h : threadStep t m = none) :
    m.threads t = .test ∧ m.migration t = false := by
  unfold threadStep at h
  cases hpc : m.threads t with
  | test =>
      simp only [hpc] at h
      split at h
      · cases h
      · exact ⟨rfl, by simp_all⟩
  | fetch | read _ _ _ | ssdWrite _ _ _ | clear _ _ _ | dec _ _ | count _
  | reset => simp [hpc] at h
  | scan idx n =>
      simp only [hpc] at h
      split at h <;> cases h
  | pop idx n =>
      simp only [hpc] at h
      split at h <;> cases h

/-- When all threads stand still, so has every one of them counted. -/
theorem MigratesOn.not_waiting (h : MigratesOn m)
    (hthreads : ∀ t, threadStep t m = none) {idx : Fin 4}
    (hcoord : m.coord = .wait idx) : ¬ m.completed idx < T := by
  intro hcompleted
  have hall : ∀ t, m.counted t = true := by
    intro t
    by_contra hcounted
    obtain ⟨hpc, hflag⟩ := threadStep_eq_none (hthreads t)
    have hup := h.signal.noLostSignal idx hcoord hcompleted t
      (by simpa using hcounted) hpc
    rw [hflag] at hup
    cases hup
  have hnum := h.tables.handshake.completed idx (by rw [hcoord]; rfl)
  have hfull : m.countedNum = T :=
    (countWith_eq_card hall).trans (Fintype.card_fin T)
  omega

/-- A client that cannot take a turn is idle, when the queues are empty. -/
theorem ServiceInv.idle_of_stuck (h : ServiceInv s)
    (hready : ∀ i, s.workers i = .ready) (hnvm : ∀ i, s.nvmQueue i = [])
    (hbuffer : ∀ i, s.bufferQueue i = []) {c : Fin 16}
    (hstuck : clientStep s c = none) : s.clients c = .idle := by
  unfold clientStep at hstuck
  cases hpc : s.clients c with
  | idle => rfl
  | postNvm task | returned task => simp [hpc] at hstuck
  | postSmall task =>
      simp [hpc, hbuffer, mixEnqueue_nil] at hstuck
  | postSub task n =>
      simp only [hpc, hbuffer, mixEnqueue_nil] at hstuck
      split at hstuck
      · split at hstuck
        · cases hstuck
        · simp at hstuck
      · cases hstuck
  | ssd task =>
      simp [hpc, mixBufferMigrating_eq_false h.machine.flags] at hstuck
  | wait task =>
      simp only [hpc] at hstuck
      split at hstuck
      · rename_i hinflight
        have hawaits : s.awaits c = some task := by
          simp [System.awaits, hpc, hinflight]
        have hmem := h.waits c task hawaits
        simp [System.pending, hready, hnvm, hbuffer,
          WorkerPc.current] at hmem
      · cases hstuck

omit [BlockDevice σ β] in
/-- A worker that can only poll in vain is ready and has nothing to do. -/
theorem ServiceInv.ready_of_stuck (h : ServiceInv s)
    (hidle : s.machine.coord = .idle)
    (hstuck : (workerStep s i).isSome → s.PollsInVain (.worker i)) :
    s.workers i = .ready ∧ s.nvmQueue i = [] ∧ s.bufferQueue i = [] := by
  refine hstuck ?_
  unfold workerStep
  cases hpc : s.workers i with
  | ready | finish _ _ | data _ _ | record _ _ => rfl
  | nvmRead task n | nvmWrite task n =>
      simp only
      split <;> rfl
  | lock task => simp [redirectStep, hidle]
  | migrating task =>
      have hheld := h.holds i task hpc
      rw [hidle] at hheld
      exact absurd hheld (CoordPc.not_held_idle i)
  | start task =>
      have hfits := h.tasks.fits i
      have hheld : ¬ s.machine.coord.Held i := by
        rw [hidle]
        exact CoordPc.not_held_idle i
      rw [hpc] at hfits
      obtain ⟨m, pc, hstart, -⟩ := h.machine.tables.workerStart hheld
        (h.lbaKey_ne (by rw [hpc]; rfl) hfits)
      simp [redirectStep, hstart]

omit [BlockDevice σ β] in
/-- The worker whose migration has returned goes on. -/
theorem ServiceInv.returned_isSome (h : ServiceInv s)
    (hcoord : s.machine.coord = .returned i) : (workerStep s i).isSome := by
  obtain ⟨task, hpc⟩ := h.mutex.held i (Or.inr hcoord)
  have hfits := h.tasks.fits i
  simp only [workerStep, hpc, redirectStep, hcoord, if_true]
  cases task with
  | none => rfl
  | some task =>
      rw [hpc] at hfits
      obtain ⟨m, pc, hresume, -⟩ := h.machine.tables.workerResume hcoord
        (h.lbaKey_ne (by rw [hpc]; rfl) (hfits task rfl))
      rw [hresume]
      rfl

/-- Unless the store is at rest, somebody has something to do. -/
theorem ServiceInv.exists_busy (h : ServiceInv s) (hrest : ¬ AtRest s) :
    ∃ event ∈ {event : SystemEvent T β | event.IsTurn},
      Busy systemStep System.PollsInVain s event := by
  by_contra hnone
  have hstuck : ∀ event : SystemEvent T β, event.IsTurn →
      (systemStep s event).isSome → s.PollsInVain event := by
    intro event hturn hsome
    by_contra hvain
    exact hnone ⟨event, hturn, hsome, hvain⟩
  have hthreads : ∀ t, threadStep t s.machine = none := by
    intro t
    have hthread := hstuck (.thread t) trivial
    rw [systemStep, Option.isSome_map] at hthread
    exact Option.not_isSome_iff_eq_none.mp hthread
  have hadvance : coordAdvance s.machine = none := by
    have hcoord := hstuck .coord trivial
    rw [systemStep, Option.isSome_map] at hcoord
    exact Option.not_isSome_iff_eq_none.mp hcoord
  have hidle : s.machine.coord = .idle := by
    rcases coordAdvance_eq_none hadvance with hidle | ⟨j, hreturned⟩ |
      ⟨idx, hwait, hcompleted⟩
    · exact hidle
    · have hvain := hstuck (.worker j) trivial (h.returned_isSome hreturned)
      obtain ⟨task, hpc⟩ := h.mutex.held j (Or.inr hreturned)
      rw [hvain.1] at hpc
      cases hpc
    · exact absurd hcompleted (h.machine.not_waiting hthreads hwait)
  have hworkers : ∀ j, s.workers j = .ready ∧ s.nvmQueue j = [] ∧
      s.bufferQueue j = [] :=
    fun j => h.ready_of_stuck hidle (hstuck (.worker j) trivial)
  refine hrest ⟨fun c => ?_, fun j => (hworkers j).1, fun j => (hworkers j).2.1,
    fun j => (hworkers j).2.2, hidle,
    fun t => (threadStep_eq_none (hthreads t)).1,
    fun t => (threadStep_eq_none (hthreads t)).2⟩
  refine h.idle_of_stuck (fun j => (hworkers j).1)
    (fun j => (hworkers j).2.1) (fun j => (hworkers j).2.2) ?_
  exact Option.not_isSome_iff_eq_none.mp (hstuck (.client c) trivial)

/-! ## Polls disturb nobody -/

/-- Whoever can take a turn can do so after another worker has polled. -/
theorem isSome_pollNext (s : System T σ β) (i : Fin 4)
    (event : SystemEvent T β) (h : (systemStep s event).isSome) :
    (systemStep (s.pollNext i) event).isSome := by
  revert h
  cases event with
  | call c request =>
      simp only [systemStep, System.pollNext]
      cases s.clients c <;> exact id
  | migrate j =>
      simp only [systemStep, System.pollNext]
      cases s.workers j <;> exact id
  | coord | thread t =>
      simp only [systemStep, System.pollNext, Option.isSome_map]
      exact id
  | client c =>
      simp only [systemStep, clientStep, System.pollNext]
      cases s.clients c with
      | idle | postNvm _ | returned _ => exact id
      | postSmall task | ssd task | wait task =>
          simp only
          split <;> simp [*]
      | postSub task n =>
          simp only
          split
          · split
            · simp [*]
            · split <;> simp [*]
          · simp [*]
  | worker j =>
      simp only [systemStep, workerStep, System.pollNext]
      cases s.workers j with
      | ready | finish _ _ => exact id
      | nvmRead task n | nvmWrite task n =>
          simp only
          split <;> simp [*]
      | start task | lock task | migrating task | data task slot
      | record task slot =>
          simp only [Option.isSome_map]
          exact id

theorem Busy.pollNext {event : SystemEvent T β}
    (h : Busy systemStep System.PollsInVain s event) (i : Fin 4) :
    Busy systemStep System.PollsInVain (s.pollNext i) event := by
  refine ⟨isSome_pollNext s i event h.1, ?_⟩
  cases event with
  | worker j => exact h.2
  | call _ _ | client _ | migrate _ | coord | thread _ => exact fun h => h

/-! ## The store at rest -/

/-- At rest the parties only poll in vain. -/
theorem AtRest.attempt (h : AtRest s) {event : SystemEvent T β}
    (hturn : event.IsTurn) : AtRest (attempt systemStep s event) := by
  rcases attempt_cases systemStep s event with hsame | ⟨s', hstep, hs'⟩
  · rw [hsame]
    exact h
  rw [hs']
  cases event with
  | call _ _ | migrate _ => exact hturn.elim
  | client c => simp [systemStep, clientStep, h.clients] at hstep
  | worker i =>
      obtain rfl := workerStep_vain
        ⟨h.workers i, h.nvmQueue i, h.bufferQueue i⟩ hstep
      exact ⟨h.clients, h.workers, h.nvmQueue, h.bufferQueue, h.coord,
        h.threads, h.migration⟩
  | coord => simp [systemStep, coordAdvance, coordStep, h.coord] at hstep
  | thread t =>
      simp [systemStep, threadStep, h.threads, h.migration] at hstep

theorem AtRest.trace {turn : ℕ → SystemEvent T β} {n : ℕ}
    (h : AtRest (trace systemStep s turn n)) (hturn : ∀ n, (turn n).IsTurn)
    {m : ℕ} (hm : n ≤ m) : AtRest (Support.trace systemStep s turn m) := by
  induction m, hm using Nat.le_induction with
  | base => exact h
  | succ m _ ih => exact ih.attempt (hturn m)

omit [BlockDevice σ β] in
theorem AtRest.goesOn (h : AtRest s) {event : SystemEvent T β}
    (hturn : event.IsTurn) : s.GoesOn event := by
  cases event with
  | call _ _ => exact hturn.elim
  | client _ | worker _ | migrate _ | thread _ => trivial
  | coord =>
      intro idx t hcoord
      rw [h.coord] at hcoord
      cases hcoord

/-! ## Return of the calls -/

/-- After any history of calls and migrations, a fair schedule of turns brings
the store to rest for good: every call that was made returns. -/
theorem calls_return (hpos : 0 < T) (hT : T ≤ 127) {blockNum : ℕ}
    (hsize : ValidSize blockNum) {migration : Fin 4 → Bool}
    (hflag : ∃ j, migration j = false) (dev : Devices σ β)
    (segmentIdx : Fin 4) (migrateBuf : Fin T → β) (inflight : Fin 16 → ℤ)
    (dst : Fin 16 → ℕ → β) (request : Fin 16 → Request β)
    {events : List (SystemEvent T β)}
    (hgoes : AllSteps systemStep System.GoesOn
      (System.initial T (freshStore blockNum migration dev) segmentIdx
        migrateBuf inflight dst request) events)
    (hrun : runOps systemStep
      (System.initial T (freshStore blockNum migration dev) segmentIdx
        migrateBuf inflight dst request) events = some s)
    {turn : ℕ → SystemEvent T β} (hturn : ∀ n, (turn n).IsTurn)
    (hfair : Fair {event | event.IsTurn} turn)
    (hclear : ∀ n, (trace systemStep s turn n).GoesOn (turn n)) :
    ∃ n, ∀ m, n ≤ m → AtRest (trace systemStep s turn m) := by
  have hinit := serviceInv_initial hsize hflag dev segmentIdx migrateBuf
    inflight dst request
  have hs : ServiceInv s := (allStates_of_allSteps (fun _ _ _ h hP hstep =>
    systemStep_serviceInv h hpos hT hP hstep) hinit hgoes).of_runOps hinit hrun
  have hmem : ∀ n, turn n ∈ {event : SystemEvent T β | event.IsTurn} := hturn
  refine exists_goal
    (fun s event s' h hturn hbusy hstep =>
      systemStep_rank_lt h hturn hbusy.2 hstep)
    (fun s event s' h hturn hbusy hstep => ?_)
    (fun s event s' d h hbusy hstep hd => ?_)
    (fun s h hrest => h.exists_busy hrest)
    (inv_trace (fun _ _ _ h _ hP hstep =>
      systemStep_serviceInv h hpos hT hP hstep) hs hmem hclear)
    hmem hfair
  · have hvain : s.PollsInVain event := by
      by_contra hvain
      exact hbusy ⟨by rw [hstep]; rfl, hvain⟩
    exact systemStep_rank_eq hvain hstep
  · have hvain : s.PollsInVain event := by
      by_contra hvain
      exact hbusy ⟨by rw [hstep]; rfl, hvain⟩
    cases event with
    | worker i => exact workerStep_vain hvain hstep ▸ Busy.pollNext hd i
    | call _ _ | client _ | migrate _ | coord | thread _ => exact hvain.elim

end Threads

/-- All parties but client `0`. -/
def otherParties : List (SystemEvent 8 ℕ) :=
  ((List.finRange 15).map fun c => .client c.succ) ++
    ((List.finRange 4).map fun i => .worker i) ++ [.coord] ++
    (List.finRange 8).map fun t => .thread t

/-- The steps of a buffered write after its call, and then fair rounds. -/
def bufferedTurns : ℕ → SystemEvent 8 ℕ :=
  rounds (bufferedCall 0 5).tail (.client 0) otherParties

theorem isTurn_iff_mem (event : SystemEvent 8 ℕ) :
    event.IsTurn ↔ event ∈ SystemEvent.client 0 :: otherParties := by
  cases event with
  | call _ _ | migrate _ => simp [SystemEvent.IsTurn, otherParties]
  | client c => simp [SystemEvent.IsTurn, otherParties, eq_or_ne]
  | worker _ | coord | thread _ =>
      simp [SystemEvent.IsTurn, otherParties]

theorem bufferedTurns_isTurn (n : ℕ) : (bufferedTurns n).IsTurn := by
  rw [isTurn_iff_mem, bufferedTurns, rounds]
  by_cases hn : n < (bufferedCall 0 5).tail.length
  · rw [List.getD_eq_getElem _ _ hn]
    have hall : ∀ e ∈ (bufferedCall 0 5).tail,
        e ∈ SystemEvent.client 0 :: otherParties := by
      simp [bufferedCall, otherParties]
    exact hall _ (List.getElem_mem hn)
  · have hmod : n % (otherParties.length + 1) <
        (SystemEvent.client 0 :: otherParties).length :=
      Nat.mod_lt _ (Nat.succ_pos _)
    rw [List.getD_eq_default _ _ (not_lt.mp hn),
      List.getD_eq_getElem _ _ hmod]
    exact List.getElem_mem hmod

theorem calls_return_buffered :
    ∃ n, ∀ m, n ≤ m →
      AtRest (trace systemStep (clientCall freshSystem 0 (writeRequest 0 1 5))
        bufferedTurns m) := by
  have hgoes : AllSteps systemStep System.GoesOn freshSystem
      [.call 0 (writeRequest 0 1 5)] := by
    decide +kernel
  refine calls_return (by decide) (by decide) (by decide) ⟨0, rfl⟩
    zeroDevices 0 (fun _ => 0) (fun _ => 0) (fun _ _ => 0)
    (fun _ => ⟨false, fun _ => 0, 0, 0, 0⟩) hgoes rfl bufferedTurns_isTurn ?_
    fun n => ?_
  · have hfair := fair_rounds (bufferedCall 0 5).tail (.client 0) otherParties
    exact fun e he => hfair e ((isTurn_iff_mem e).mp he)
  · by_cases hn : n < 8
    · revert n
      decide +kernel
    · have hrest : AtRest (trace systemStep
          (clientCall freshSystem 0 (writeRequest 0 1 5)) bufferedTurns 8) := by
        decide +kernel
      exact (hrest.trace bufferedTurns_isTurn (not_lt.mp hn)).goesOn
        (bufferedTurns_isTurn n)

end Uhs
