import Uhs.Store.NvmZone

/-!
# Executed blocks

A call has executed its block `k` when its worker is past the access to this
block, or its transfer is over.  Each access is one step, which is told from
the state before it.
-/

namespace Uhs

open Support

variable {T : ℕ} {σ β : Type*}

/-- The worker is past block `k` of the task of client `c`. -/
def WorkerPc.Executed (c : Fin 16) (k : ℕ) : WorkerPc β → Prop
  | .nvmRead task n => task.inflightBuffer = c ∧ k < n
  | .nvmWrite task n => task.inflightBuffer = c ∧ k < n
  | .record task _ => task.inflightBuffer = c
  | .finish task _ => task.inflightBuffer = c
  | _ => False

/-- Block `k` of the last call of client `c` has been executed. -/
inductive System.Executed (s : System T σ β) (c : Fin 16) (k : ℕ) : Prop
  | ended (hpc : ¬ s.Running c)
  | done {task : IoTask β} (hpc : s.clients c = .wait task)
      (hinflight : s.inflight c ≤ 0)
  | worker {i : Fin 4} (hpc : (s.workers i).Executed c k)

variable {s s' : System T σ β} {c d : Fin 16} {i j : Fin 4}
  {task : IoTask β} {events : List (Fin 16 × CallEvent β)}
  {request : Request β} {k : ℕ}

theorem WorkerPc.Executed.current {pc : WorkerPc β}
    (h : pc.Executed c k) :
    ∃ task, pc.current = some task ∧ task.inflightBuffer = c := by
  cases pc with
  | nvmRead task n | nvmWrite task n => exact ⟨task, rfl, h.1⟩
  | record task slot => exact ⟨task, rfl, h⟩
  | finish task ret => exact ⟨task, rfl, h⟩
  | ready | start _ | lock _ | migrating _ | data _ _ => exact h.elim

/-! ## What has not been executed -/

/-- The client of an executed task waits for it. -/
theorem PostInv.wait_of_executed (h : PostInv s)
    (hexec : (s.workers j).Executed c k) :
    ∃ task, s.clients c = .wait task := by
  obtain ⟨task, hcurrent, rfl⟩ := hexec.current
  exact ⟨task, (h.posted (System.mem_pending_of_worker hcurrent)).client⟩

/-- A running call that waits for nothing has executed nothing. -/
theorem PostInv.not_executed_of_running (h : PostInv s) (hrunning : s.Running c)
    (hwait : ∀ task, s.clients c ≠ .wait task) : ¬ s.Executed c k := by
  intro hexec
  cases hexec with
  | ended hpc => exact hpc hrunning
  | done hpc => exact hwait _ hpc
  | worker hpc =>
      obtain ⟨task, hclient⟩ := h.wait_of_executed hpc
      exact hwait task hclient

/-- What the worker of a task has not executed has not been executed. -/
theorem PostInv.not_executed_of_worker (h : PostInv s)
    (hcurrent : (s.workers i).current = some task)
    (hpc : ¬ (s.workers i).Executed task.inflightBuffer k) :
    ¬ s.Executed task.inflightBuffer k := by
  have hmem := System.mem_pending_of_worker hcurrent
  have hposted := h.posted hmem
  intro hexec
  cases hexec with
  | ended hended => exact hended (System.running_of_wait hposted.client)
  | done _ hinflight => exact absurd hinflight hposted.inflight_pos.not_ge
  | @worker j hexec =>
      obtain ⟨task', hcurrent', howner⟩ := hexec.current
      have hmem' := System.mem_pending_of_worker hcurrent'
      obtain ⟨-, hij⟩ := h.tickets.owner_inj hmem' hmem howner
      rw [hij] at hexec
      exact hpc hexec

/-- A request that has just been called has executed nothing. -/
theorem PostInv.not_executed (h : PostInv s) (hposts : request.Posts)
    (hclient : s.clients c = ClientPc.post (request.task c)) :
    ¬ s.Executed c k := by
  refine h.not_executed_of_running ?_ fun task hwait =>
    ClientPc.post_ne_wait _ _ (hclient.symm.trans hwait)
  rw [System.Running, hclient]
  rcases hposts.post_cases c with ⟨-, hpost⟩ | ⟨-, ⟨-, -, hpost⟩ |
    ⟨-, -, hpost⟩ | ⟨-, hpost⟩⟩ <;>
  · rw [hpost]
    simp

/-! ## When a block is executed -/

/-- A call ends with its transfer or when its task has been completed. -/
theorem TaskMoves.ended (hmoves : TaskMoves s s' events)
    (hbefore : s.Running c) (hafter : ¬ s'.Running c) :
    ∃ task, s.clients c = .ssd task ∨
      s.clients c = .wait task ∧ s.inflight c ≤ 0 := by
  -- whatever else a client does, its call goes on
  have hkeep : ∀ {d : Fin 16} {pc : ClientPc β},
      s'.clients = Function.update s.clients d pc →
      (c = d → pc ≠ .idle ∧ ∀ task, pc ≠ .returned task) →
      s'.Running c := by
    intro d pc hclients hpc
    rw [System.Running, hclients]
    by_cases hc : c = d
    · rw [hc, Function.update_self]
      exact hpc hc
    · rw [Function.update_of_ne hc]
      exact hbefore
  cases hmoves with
  | @call d request hidle hposts hclients =>
      refine absurd (hkeep hclients fun hc => ?_) hafter
      exact absurd (hc ▸ hidle) hbefore.1
  | post hpc hclients =>
      have hwait : ∀ t : IoTask β, ClientPc.wait t ≠ .idle ∧
          ∀ task, ClientPc.wait t ≠ .returned task := by
        simp
      exact absurd (hkeep hclients fun _ => hwait _) hafter
  | @transfer d pc hpc hpc' hserves hclients =>
      refine absurd (hkeep hclients fun _ => ⟨?_, ?_⟩) hafter
      · intro hidle
        rw [hidle] at hpc'
        cases hpc'
      · intro t ht
        rw [ht] at hpc'
        cases hpc'
  | @«return» d task hpc hclients =>
      by_cases hc : c = d
      · exact ⟨task, hc ▸ hpc⟩
      · exact absurd (hkeep hclients fun hcd => absurd hcd hc) hafter
  | @leave d task hpc hclients =>
      refine absurd (hkeep hclients fun hc => ?_) hafter
      exact absurd (hc ▸ hpc) (hbefore.2 task)
  | work hfits hcurrent hclients =>
      rw [System.Running, hclients] at hafter
      exact absurd hbefore hafter
  | take hfits hready hcurrent htask hclients =>
      rw [System.Running, hclients] at hafter
      exact absurd hbefore hafter
  | finish hpc hclients =>
      rw [System.Running, hclients] at hafter
      exact absurd hbefore hafter

/-- A task is completed by its worker. -/
theorem TaskMoves.done (hmoves : TaskMoves s s' events) (h : PostInv s)
    (hcall : ∀ request, (c, CallEvent.called request) ∉ events)
    (hpc' : s'.clients c = .wait task) (hinflight' : s'.inflight c ≤ 0) :
    s.Executed c k := by
  cases hmoves with
  | @call d request hidle hposts hclients hinflight =>
      by_cases hc : c = d
      · subst hc
        exact absurd List.mem_cons_self (hcall request)
      · rw [hclients, Function.update_of_ne hc] at hpc'
        rw [hinflight, Function.update_of_ne hc] at hinflight'
        exact .done hpc' hinflight'
  | @post d t hpc hclients hinflight =>
      rw [hinflight] at hinflight'
      by_cases hc : c = d
      · subst hc
        obtain ⟨hserves, hcount, hposts⟩ := h.posting hpc
        have hlen := (hposts.task_fields c).2.1
        have hpos := hposts.len
        rw [← hserves.1] at hlen
        omega
      · rw [hclients, Function.update_of_ne hc] at hpc'
        exact .done hpc' hinflight'
  | @transfer d pc hpc hpc'' hserves hclients hinflight =>
      rw [hinflight] at hinflight'
      by_cases hc : c = d
      · rw [hclients, hc, Function.update_self] at hpc'
        rw [hpc'] at hpc''
        cases hpc''
      · rw [hclients, Function.update_of_ne hc] at hpc'
        exact .done hpc' hinflight'
  | @«return» d t hpc hclients hinflight =>
      rw [hinflight] at hinflight'
      by_cases hc : c = d
      · rw [hclients, hc, Function.update_self] at hpc'
        cases hpc'
      · rw [hclients, Function.update_of_ne hc] at hpc'
        exact .done hpc' hinflight'
  | @leave d t hpc hclients hinflight =>
      rw [hinflight] at hinflight'
      by_cases hc : c = d
      · rw [hclients, hc, Function.update_self] at hpc'
        cases hpc'
      · rw [hclients, Function.update_of_ne hc] at hpc'
        exact .done hpc' hinflight'
  | work hfits hcurrent hclients hinflight =>
      rw [hinflight] at hinflight'
      rw [hclients] at hpc'
      exact .done hpc' hinflight'
  | take hfits hready hcurrent htask hclients hinflight =>
      rw [hinflight] at hinflight'
      rw [hclients] at hpc'
      exact .done hpc' hinflight'
  | @finish i t hpc hclients hinflight =>
      rw [hclients] at hpc'
      by_cases hc : c = t.inflightBuffer
      · refine .worker (i := i) ?_
        rw [hpc]
        exact hc.symm
      · rw [hinflight, Function.update_of_ne hc] at hinflight'
        exact .done hpc' hinflight'

section Steps

variable [BlockDevice σ β]

/-- The step in which block `k` of the call of client `c` is executed. -/
inductive Executes (s s' : System T σ β) (c : Fin 16) (k : ℕ) :
    SystemEvent T β → Prop
  | before {event : SystemEvent T β} (h : s.Executed c k) :
      Executes s s' c k event
  | read {i : Fin 4} {task : IoTask β} (hpc : s.workers i = .nvmRead task k)
      (howner : task.inflightBuffer = c)
      (hdst : s'.dst c k = s.nvm (task.offset + k)) :
      Executes s s' c k (.worker i)
  | write {i : Fin 4} {task : IoTask β}
      (hpc : s.workers i = .nvmWrite task k)
      (howner : task.inflightBuffer = c)
      (hnvm : s'.nvm (task.offset + k) = task.buf k) :
      Executes s s' c k (.worker i)
  | fill {i : Fin 4} {task : IoTask β} {slot : ℤ}
      (hpc : s.workers i = .data task slot)
      (howner : task.inflightBuffer = c)
      (hmachine : s'.machine = s.machine.setDev
        (mixBufferWriteData s.machine.store.dev (task.buf 0)
          (s.machine.store.metaData.bufferBlock i slot))) :
      Executes s s' c k (.worker i)
  | transfer {task : IoTask β} (hpc : s.clients c = .ssd task)
      (hs' : s' = (ssdTransfer s c task).setClient c (.returned task)) :
      Executes s s' c k (.client c)

omit [BlockDevice σ β] in
theorem redirectStep_executed {m m' : Machine T σ β} {pc pc' : WorkerPc β}
    (hstep : redirectStep i m pc = some (m', pc')) (hexec : pc'.Executed c k) :
    pc.Executed c k ∨ ∃ task slot, pc = .data task slot ∧
      task.inflightBuffer = c ∧ m' = m.setDev
        (mixBufferWriteData m.store.dev (task.buf 0)
          (m.store.metaData.bufferBlock i slot)) := by
  cases redirectStep_moves hstep with
  | start hdev hpc =>
      rcases hpc with rfl | ⟨slot, rfl⟩
      · exact hexec.elim
      · exact hexec.elim
  | call hidle => exact hexec.elim
  | release hreturned => exact hexec.elim
  | resume hreturned hdev => exact hexec.elim
  | @data task slot => exact Or.inr ⟨task, slot, rfl, hexec, rfl⟩
  | record => exact Or.inl hexec

theorem PostInv.worker_executes (h : PostInv s)
    (hk : k < (s.request c).len) (hstep : workerStep s i = some s')
    (hexec : (s'.workers j).Executed c k) :
    Executes s s' c k (.worker i) := by
  -- the other workers stand still
  have hother : ∀ {r : System T σ β} {pc : WorkerPc β},
      r.workers = s.workers →
      ((r.setWorker i pc).workers j).Executed c k →
      Executes s s' c k (.worker i) ∨ pc.Executed c k := by
    intro r pc hworkers hexec
    by_cases hj : j = i
    · rw [hj, System.setWorker_self] at hexec
      exact Or.inr hexec
    · rw [System.setWorker_of_ne r hj, hworkers] at hexec
      exact Or.inl (.before (.worker hexec))
  have htake : ∀ {r : System T σ β} {task : IoTask β},
      r.workers = s.workers → task ∈ s.pending i →
      ((dispatch r i task).workers j).Executed c k →
      Executes s s' c k (.worker i) := by
    intro r task hworkers htask hexec
    obtain ⟨pc, hdispatch, -, -, hpc⟩ := dispatch_of_awaited (r := r)
      (i := i) (h.posted htask).branch_cases
    rw [hdispatch] at hexec
    refine (hother hworkers hexec).resolve_right ?_
    rcases hpc with rfl | rfl | rfl
    · exact fun hlt => absurd hlt.2 (Nat.not_lt_zero k)
    · exact fun hlt => absurd hlt.2 (Nat.not_lt_zero k)
    · exact id
  cases Uhs.workerStep_moves hstep with
  | poll hpc seq => exact .before (.worker hexec)
  | @takeNvm _ seq task rest hqueue =>
      have htask : task ∈ s.pending i := by simp [System.pending, hqueue]
      exact htake (r := System.setNvmQueue { s with seq := seq } i rest) rfl
        htask hexec
  | @takeBuffer _ seq task rest hqueue =>
      by_cases hskip : workerBranch task = .skip
      · rw [dispatch, hskip] at hexec
        exact .before (.worker hexec)
      · have htask : task ∈ s.pending i := by
          simp [System.pending, hqueue, hskip]
        exact htake (r := System.setBufferQueue { s with seq := seq } i rest)
          rfl htask hexec
  | @nvmRead task n hpc hn =>
      rcases hother (r := s.deliver task.inflightBuffer n _) rfl hexec with
        hbefore | hnew
      · exact hbefore
      · obtain ⟨howner, hle⟩ := hnew
        rcases Nat.lt_succ_iff_lt_or_eq.mp hle with hlt | rfl
        · refine .before (.worker (i := i) ?_)
          rw [hpc]
          exact ⟨howner, hlt⟩
        · subst howner
          refine .read hpc rfl ?_
          simp [System.deliver, System.setWorker, System.nvm]
  | @nvmWrite task n hpc hn =>
      rcases hother (r := s.setDev _) rfl hexec with hbefore | hnew
      · exact hbefore
      · obtain ⟨howner, hle⟩ := hnew
        rcases Nat.lt_succ_iff_lt_or_eq.mp hle with hlt | rfl
        · refine .before (.worker (i := i) ?_)
          rw [hpc]
          exact ⟨howner, hlt⟩
        · refine .write hpc howner ?_
          have hwrite := mixNvmWrite_one s.machine.store.dev (task.buf k)
            (task.offset + k)
          exact (congrFun hwrite _).trans (Function.update_self _ _ _)
  | @nvmReadEnd task n hpc hn | @nvmWriteEnd task n hpc hn =>
      rcases hother (r := s) rfl hexec with hbefore | howner
      · exact hbefore
      · obtain rfl : task.inflightBuffer = c := howner
        have hlen := (h.posted (System.mem_pending_of_worker
          (show (s.workers i).current = some task by rw [hpc]; rfl))).len
        refine .before (.worker (i := i) ?_)
        rw [hpc]
        exact ⟨rfl, by omega⟩
  | @finish task ret hpc =>
      exact (hother (r := s.fetchSub _ _) rfl hexec).resolve_right id
  | @redirect m pc hredirect =>
      rcases hother (r := s.setMachine m) rfl hexec with hbefore | hnew
      · exact hbefore
      · rcases redirectStep_executed hredirect hnew with
          hpc | ⟨task, slot, hpc, howner, hmachine⟩
        · exact .before (.worker hpc)
        · exact .fill hpc howner hmachine

/-- The client that is about to transfer does so, or stands still. -/
theorem systemStep_ssd {event : SystemEvent T β}
    (hpc : s.clients c = .ssd task) (hstep : systemStep s event = some s') :
    s'.clients c = .ssd task ∨ event = .client c ∧
      s' = (ssdTransfer s c task).setClient c (.returned task) := by
  cases event with
  | call d request =>
      simp only [systemStep] at hstep
      split at hstep
      · rename_i hidle
        cases hstep
        have hcd : c ≠ d := by
          rintro rfl
          rw [hidle] at hpc
          cases hpc
        left
        exact (Function.update_of_ne hcd _ _).trans hpc
      · cases hstep
  | client d =>
      by_cases hcd : c = d
      · subst hcd
        cases Uhs.clientStep_moves hstep with
        | ssd hssd =>
            obtain rfl := ClientPc.ssd.inj (hpc.symm.trans hssd)
            exact Or.inr ⟨rfl, rfl⟩
        | postNvm hother _ | postSmall hother | postSub hother
        | posted hother | wait hother _ | «return» hother =>
            rw [hpc] at hother
            cases hother
      · left
        cases Uhs.clientStep_moves hstep with
        | @ssd task' _ =>
            have hclients := (ssdTransfer_fields s d task').1
            rw [System.setClient_of_ne _ hcd, hclients, hpc]
        | postNvm _ _ | postSmall _ | postSub _ | posted _ | wait _ _
        | «return» _ =>
            exact (System.setClient_of_ne _ hcd _).trans hpc
  | worker i =>
      left
      cases Uhs.workerStep_moves hstep with
      | takeNvm _ _ _ | takeBuffer _ _ _ =>
          rw [(dispatch_fields _ i _).1]
          exact hpc
      | poll _ _ | nvmRead _ _ | nvmReadEnd _ _ | nvmWrite _ _
      | nvmWriteEnd _ _ | finish _ | redirect _ => exact hpc
  | migrate i =>
      simp only [systemStep] at hstep
      split at hstep
      · cases hstep
        exact Or.inl hpc
      · cases hstep
  | coord | thread t =>
      simp only [systemStep, Option.map_eq_some_iff] at hstep
      obtain ⟨m, -, rfl⟩ := hstep
      exact Or.inl hpc

/-- When block `k` of a request is executed. -/
theorem PostInv.executes {event : SystemEvent T β} (h : PostInv s)
    (hposts : event.Posts) (hcall : ∀ request, event ≠ .call c request)
    (hk : k < (s.request c).len) (hstep : systemStep s event = some s')
    (hexec : s'.Executed c k) : Executes s s' c k event := by
  have hmoves := h.systemStep_moves hposts hstep
  cases hexec with
  | ended hafter =>
      by_cases hbefore : s.Running c
      · obtain ⟨task, hpc | ⟨hpc, hdone⟩⟩ := hmoves.ended hbefore hafter
        · rcases systemStep_ssd hpc hstep with hpc' | ⟨rfl, hs'⟩
          · refine absurd ?_ hafter
            rw [System.Running, hpc']
            simp
          · exact .transfer hpc hs'
        · exact .before (.done hpc hdone)
      · exact .before (.ended hbefore)
  | done hpc hinflight =>
      exact .before (hmoves.done h (fun request hmem =>
        hcall request (eq_call_of_mem_callEvents hmem)) hpc hinflight)
  | @worker j hexec =>
      cases event with
      | worker i => exact h.worker_executes hk hstep hexec
      | call d request =>
          simp only [systemStep] at hstep
          split at hstep
          · cases hstep
            exact .before (.worker hexec)
          · cases hstep
      | client d =>
          have hworkers : s'.workers = s.workers := by
            cases Uhs.clientStep_moves hstep with
            | ssd hpc => exact (ssdTransfer_fields s d _).2.2.2.1
            | _ => rfl
          rw [hworkers] at hexec
          exact .before (.worker hexec)
      | migrate i =>
          simp only [systemStep] at hstep
          split at hstep
          · cases hstep
            by_cases hj : j = i
            · rw [hj, System.setWorker_self] at hexec
              exact hexec.elim
            · rw [System.setWorker_of_ne _ hj] at hexec
              exact .before (.worker hexec)
          · cases hstep
      | coord | thread t =>
          simp only [systemStep, Option.map_eq_some_iff] at hstep
          obtain ⟨m, -, rfl⟩ := hstep
          exact .before (.worker hexec)

end Steps

/-! ## What has been executed stays executed -/

theorem TaskMoves.stays_done (hmoves : TaskMoves s s' events)
    (hpc : s.clients c = .wait task) (hinflight : s.inflight c ≤ 0) :
    s'.Executed c k := by
  -- another client moves
  have hother : ∀ {d : Fin 16} {pc : ClientPc β}, c ≠ d →
      s'.clients = Function.update s.clients d pc →
      s'.inflight c = s.inflight c → s'.Executed c k := by
    intro d pc hne hclients hsame
    have hclient : s'.clients c = .wait task := by
      rw [hclients, Function.update_of_ne hne, hpc]
    exact .done hclient (hsame ▸ hinflight)
  have hsame : s'.clients = s.clients → s'.inflight c ≤ 0 →
      s'.Executed c k := fun hclients hle =>
    .done ((congrFun hclients c).trans hpc) hle
  cases hmoves with
  | @call d request hidle hposts hclients hcount =>
      have hne : c ≠ d := by
        rintro rfl
        rw [hpc] at hidle
        cases hidle
      exact hother hne hclients (by rw [hcount, Function.update_of_ne hne])
  | @post d t hpost hclients hcount =>
      refine hother ?_ hclients (by rw [hcount])
      rintro rfl
      rcases hpost with hpost | hpost <;>
      · rw [hpc] at hpost
        cases hpost
  | @transfer d pc htransfer hpc' hserves hclients hcount =>
      refine hother ?_ hclients (by rw [hcount])
      rintro rfl
      rw [hpc] at htransfer
      cases htransfer
  | @«return» d t hreturn hclients hcount =>
      by_cases hd : c = d
      · refine .ended fun hrunning => ?_
        rw [System.Running, hclients, hd, Function.update_self] at hrunning
        exact hrunning.2 t rfl
      · exact hother hd hclients (by rw [hcount])
  | @leave d t hleave hclients hcount =>
      refine hother ?_ hclients (by rw [hcount])
      rintro rfl
      rw [hpc] at hleave
      cases hleave
  | work _ _ hclients hcount | take _ _ _ _ hclients hcount =>
      exact hsame hclients (by rw [hcount]; exact hinflight)
  | @finish i t _ hclients hcount =>
      refine hsame hclients ?_
      rw [hcount]
      by_cases hd : c = t.inflightBuffer
      · rw [← hd, Function.update_self]
        omega
      · rw [Function.update_of_ne hd]
        exact hinflight

theorem dispatch_worker_of_ne (s : System T σ β) (task : IoTask β)
    (hj : j ≠ i) : (dispatch s i task).workers j = s.workers j := by
  unfold dispatch
  split
  · exact System.setWorker_of_ne s hj _
  · exact System.setWorker_of_ne s hj _
  · rfl
  · rfl
  · exact System.setWorker_of_ne s hj _
  · rfl

/-- A worker that is past a block stays so until its task is completed. -/
theorem PostInv.workerStep_executed (h : PostInv s)
    (hexec : (s.workers j).Executed c k)
    (hstep : workerStep s i = some s') : s'.Executed c k := by
  by_cases hj : j = i
  · subst hj
    have hready : s.workers j ≠ .ready := by
      intro hpc
      rw [hpc] at hexec
      exact hexec
    cases Uhs.workerStep_moves hstep with
    | poll hpc | takeNvm hpc | takeBuffer hpc => exact absurd hpc hready
    | nvmRead hpc hn | nvmWrite hpc hn =>
        rw [hpc] at hexec
        refine .worker (i := j) ?_
        rw [System.setWorker_self]
        exact ⟨hexec.1, Nat.lt_succ_of_lt hexec.2⟩
    | nvmReadEnd hpc hn | nvmWriteEnd hpc hn =>
        rw [hpc] at hexec
        refine .worker (i := j) ?_
        rw [System.setWorker_self]
        exact hexec.1
    | @finish task ret hpc =>
        rw [hpc] at hexec
        obtain rfl : task.inflightBuffer = c := hexec
        have hposted := h.posted (System.mem_pending_of_finish hpc)
        have hret : ret = task.len := by
          have hfits := h.fits j
          rw [hpc] at hfits
          exact hfits.trans hposted.toInt32_len
        refine .done (hposted.client :) ?_
        change (s.fetchSub task.inflightBuffer ret).inflight
          task.inflightBuffer ≤ 0
        rw [System.fetchSub_self, hposted.inflight, hret, sub_self]
    | @redirect m pc hredirect =>
        refine .worker (i := j) ?_
        rw [System.setWorker_self]
        cases hpc : s.workers j with
        | record task slot =>
            rw [hpc] at hexec hredirect
            cases redirectStep_moves hredirect
            exact hexec
        | ready | nvmRead _ _ | nvmWrite _ _ | finish _ _ =>
            rw [hpc] at hredirect
            cases hredirect
        | start _ | lock _ | migrating _ | data _ _ =>
            rw [hpc] at hexec
            exact hexec.elim
  · refine .worker (i := j) ?_
    have hworker : s'.workers j = s.workers j := by
      cases Uhs.workerStep_moves hstep with
      | poll => rfl
      | takeNvm | takeBuffer => exact dispatch_worker_of_ne _ _ hj
      | nvmRead | nvmReadEnd | nvmWrite | nvmWriteEnd | finish | redirect =>
          exact System.setWorker_of_ne _ hj _
    rw [hworker]
    exact hexec

section Steps

variable [BlockDevice σ β] {event : SystemEvent T β}

theorem PostInv.executed_step (h : PostInv s) (hposts : event.Posts)
    (hcall : ∀ request, event ≠ .call c request)
    (hstep : systemStep s event = some s') (hexec : s.Executed c k) :
    s'.Executed c k := by
  have hmoves := h.systemStep_moves hposts hstep
  cases hexec with
  | ended hpc =>
      refine .ended fun hrunning => ?_
      rcases hmoves.running hrunning with ⟨hbefore, -⟩ | hcalled
      · exact hpc hbefore
      · exact hcall _ (eq_call_of_mem_callEvents hcalled)
  | done hpc hinflight => exact hmoves.stays_done hpc hinflight
  | @worker j hexec =>
      cases event with
      | worker i => exact h.workerStep_executed hexec hstep
      | call d request =>
          simp only [systemStep] at hstep
          split at hstep
          · cases hstep
            exact .worker hexec
          · cases hstep
      | client d =>
          refine .worker (i := j) ?_
          have hworkers : s'.workers = s.workers := by
            cases Uhs.clientStep_moves hstep with
            | ssd hpc => exact (ssdTransfer_fields s d _).2.2.2.1
            | _ => rfl
          rwa [hworkers]
      | migrate i =>
          simp only [systemStep] at hstep
          split at hstep
          · rename_i hready
            cases hstep
            have hj : j ≠ i := by
              rintro rfl
              rw [hready] at hexec
              exact hexec
            refine .worker (i := j) ?_
            rwa [System.setWorker_of_ne _ hj]
          · cases hstep
      | coord | thread t =>
          simp only [systemStep, Option.map_eq_some_iff] at hstep
          obtain ⟨m, -, rfl⟩ := hstep
          exact .worker hexec

/-- A client moves by its own steps. -/
theorem systemStep_client (hcall : ∀ request, event ≠ .call c request)
    (hclient : event ≠ .client c) (hstep : systemStep s event = some s') :
    s'.clients c = s.clients c := by
  cases event with
  | call d request =>
      simp only [systemStep] at hstep
      split at hstep
      · cases hstep
        have hcd : c ≠ d := by
          rintro rfl
          exact hcall request rfl
        exact Function.update_of_ne hcd _ _
      · cases hstep
  | client d =>
      have hcd : c ≠ d := by
        rintro rfl
        exact hclient rfl
      cases Uhs.clientStep_moves hstep with
      | @ssd task _ =>
          rw [System.setClient_of_ne _ hcd, (ssdTransfer_fields s d task).1]
      | postNvm _ _ | postSmall _ | postSub _ | posted _ | wait _ _
      | «return» _ => exact System.setClient_of_ne _ hcd _
  | worker i =>
      cases Uhs.workerStep_moves hstep with
      | takeNvm _ _ _ | takeBuffer _ _ _ => rw [(dispatch_fields _ i _).1]; rfl
      | poll _ _ | nvmRead _ _ | nvmReadEnd _ _ | nvmWrite _ _
      | nvmWriteEnd _ _ | finish _ | redirect _ => rfl
  | migrate i =>
      simp only [systemStep] at hstep
      split at hstep
      · cases hstep
        rfl
      · cases hstep
  | coord | thread t =>
      simp only [systemStep, Option.map_eq_some_iff] at hstep
      obtain ⟨m, -, rfl⟩ := hstep
      rfl

end Steps

end Uhs
