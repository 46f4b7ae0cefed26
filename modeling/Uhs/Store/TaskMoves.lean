import Uhs.Store.Posting

/-!
# What a step does to the tasks

A step is a call, the post of a task, the move of a task to the worker that
executes it, the end of its execution, or nothing of this; what happens to a
call is recorded as an event of its client.
-/

namespace Uhs

open Support

variable {T : ℕ} {σ β : Type*}

/-! ## Events -/

/-- What happens to a call of a client. -/
inductive CallEvent (β : Type*)
  /-- the client calls `mixdk_write` or `mixdk_read` -/
  | called (request : Request β)
  /-- the task is enqueued for worker `i` -/
  | posted (i : Fin 4) (task : IoTask β)
  /-- the task does not fit into the queue of worker `i` -/
  | dropped (i : Fin 4) (task : IoTask β)
  /-- worker `i` dequeues the task and enters its branch -/
  | started (i : Fin 4) (task : IoTask β)
  /-- worker `i` subtracts `ret` from the counter of the task -/
  | finished (i : Fin 4) (task : IoTask β) (ret : ℤ)
  /-- the call returns -/
  | returned

/-- The task at the head of the queue that worker `i` looks into. -/
def System.polled (s : System T σ β) (i : Fin 4) : Option (IoTask β) :=
  if s.seq i % 2 = 1 then (s.nvmQueue i).head? else (s.bufferQueue i).head?

/-- The events of a task that worker `i` has dequeued. -/
def dispatchEvents (i : Fin 4) (task : IoTask β) : List (CallEvent β) :=
  match workerBranch task with
  | .skip => []
  | .redirectRead => [.started i task, .finished i task task.len]
  | _ => [.started i task]

/-- The events of a step of client `c`. -/
def clientEvents (s : System T σ β) (c : Fin 16) : List (CallEvent β) :=
  match s.clients c with
  | .postNvm task =>
      let i := smallQueue task
      if (mixEnqueue (s.nvmQueue i) task).2 = 0 then [.dropped i task]
      else [.posted i task]
  | .postSmall task => [.posted (smallQueue task) task]
  | .ssd _ => [.returned]
  | .wait _ => [.returned]
  | _ => []

/-- The events of a step, each with the client it belongs to. -/
def callEvents (s : System T σ β) :
    SystemEvent T β → List (Fin 16 × CallEvent β)
  | .call c request => [(c, .called request)]
  | .client c => (clientEvents s c).map fun e => (c, e)
  | .worker i =>
      match s.workers i with
      | .ready => (s.polled i).toList.flatMap fun task =>
          (dispatchEvents i task).map fun e => (task.inflightBuffer, e)
      | .finish task ret => [(task.inflightBuffer, .finished i task ret)]
      | _ => []
  | _ => []

/-- A call that the event makes is of a request that the store can post. -/
def SystemEvent.Posts : SystemEvent T β → Prop
  | .call _ request => request.Posts
  | _ => True

instance : DecidablePred (SystemEvent.Posts (T := T) (β := β))
  | .call _ request => inferInstanceAs (Decidable request.Posts)
  | .client _ => isTrue trivial
  | .worker _ => isTrue trivial
  | .migrate _ => isTrue trivial
  | .coord => isTrue trivial
  | .thread _ => isTrue trivial

/-! ## Moves -/

/-- The client has no task under way and goes to the SSD itself. -/
inductive ClientPc.Transfers : ClientPc β → Prop
  | postSub (task : IoTask β) (n : ℕ) : Transfers (.postSub task n)
  | ssd (task : IoTask β) : Transfers (.ssd task)

/-- What a step with the given events does to clients, counters and tasks. -/
inductive TaskMoves (s s' : System T σ β) :
    List (Fin 16 × CallEvent β) → Prop
  | call {c : Fin 16} {request : Request β} (hidle : s.clients c = .idle)
      (hposts : request.Posts)
      (hclients : s'.clients =
        Function.update s.clients c (ClientPc.post (request.task c)))
      (hinflight : s'.inflight = Function.update s.inflight c request.len)
      (hrequest : s'.request = Function.update s.request c request)
      (hworkers : s'.workers = s.workers) (hpending : s'.pending = s.pending) :
      TaskMoves s s' [(c, .called request)]
  | post {c : Fin 16} {task : IoTask β}
      (hpc : s.clients c = .postNvm task ∨ s.clients c = .postSmall task)
      (hclients : s'.clients = Function.update s.clients c (.wait task))
      (hinflight : s'.inflight = s.inflight) (hrequest : s'.request = s.request)
      (hworkers : s'.workers = s.workers)
      (hpending : (s'.pending (smallQueue task)).Perm
        (task :: s.pending (smallQueue task)))
      (hpending_ne : ∀ j, j ≠ smallQueue task →
        s'.pending j = s.pending j) :
      TaskMoves s s' [(c, .posted (smallQueue task) task)]
  | transfer {c : Fin 16} {pc : ClientPc β}
      (hpc : (s.clients c).Transfers) (hpc' : pc.Transfers)
      (hserves : pc.Serves (s.request c) c (s.inflight c))
      (hclients : s'.clients = Function.update s.clients c pc)
      (hinflight : s'.inflight = s.inflight) (hrequest : s'.request = s.request)
      (hworkers : s'.workers = s.workers) (hpending : s'.pending = s.pending) :
      TaskMoves s s' []
  | return {c : Fin 16} {task : IoTask β}
      (hpc : s.clients c = .ssd task ∨
        s.clients c = .wait task ∧ s.inflight c ≤ 0)
      (hclients : s'.clients = Function.update s.clients c (.returned task))
      (hinflight : s'.inflight = s.inflight) (hrequest : s'.request = s.request)
      (hworkers : s'.workers = s.workers) (hpending : s'.pending = s.pending) :
      TaskMoves s s' [(c, .returned)]
  | leave {c : Fin 16} {task : IoTask β} (hpc : s.clients c = .returned task)
      (hclients : s'.clients = Function.update s.clients c .idle)
      (hinflight : s'.inflight = s.inflight) (hrequest : s'.request = s.request)
      (hworkers : s'.workers = s.workers) (hpending : s'.pending = s.pending) :
      TaskMoves s s' []
  | work {i : Fin 4} {pc : WorkerPc β} (hfits : pc.Fits)
      (hcurrent : pc.current = (s.workers i).current)
      (hclients : s'.clients = s.clients)
      (hinflight : s'.inflight = s.inflight) (hrequest : s'.request = s.request)
      (hworkers : s'.workers = Function.update s.workers i pc)
      (hpending : s'.pending = s.pending) :
      TaskMoves s s' []
  | take {i : Fin 4} {pc : WorkerPc β} {task : IoTask β} (hfits : pc.Fits)
      (hready : s.workers i = .ready) (hcurrent : pc.current = some task)
      (htask : task ∈ s.pending i) (hclients : s'.clients = s.clients)
      (hinflight : s'.inflight = s.inflight) (hrequest : s'.request = s.request)
      (hworkers : s'.workers = Function.update s.workers i pc)
      (hpending : ∀ j, (s'.pending j).Perm (s.pending j)) :
      TaskMoves s s' [(task.inflightBuffer, .started i task)]
  | finish {i : Fin 4} {task : IoTask β}
      (hpc : s.workers i = .finish task task.len)
      (hclients : s'.clients = s.clients)
      (hinflight : s'.inflight = Function.update s.inflight
        task.inflightBuffer (s.inflight task.inflightBuffer - task.len))
      (hrequest : s'.request = s.request)
      (hworkers : s'.workers = Function.update s.workers i .ready)
      (hpending : (s.pending i).Perm (task :: s'.pending i))
      (hpending_ne : ∀ j, j ≠ i → s'.pending j = s.pending j) :
      TaskMoves s s' [(task.inflightBuffer, .finished i task task.len)]

variable {s s' : System T σ β} {c : Fin 16} {i : Fin 4} {task : IoTask β}
  {events : List (Fin 16 × CallEvent β)}

/-! ## The invariant of the tasks is kept -/

/-- A client moves without a task being posted or completed. -/
theorem PostInv.moveClient (h : PostInv s) {pc : ClientPc β}
    (hbusy : s.clients c ≠ .idle)
    (hclients : s'.clients = Function.update s.clients c pc)
    (hinflight : s'.inflight = s.inflight) (hrequest : s'.request = s.request)
    (hworkers : s'.workers = s.workers)
    (hserves : pc.Serves (s.request c) c (s.inflight c))
    (htickets : Tickets IoTask.inflightBuffer smallQueue s'.awaits
      s'.pending) : PostInv s' := by
  refine ⟨fun d hd => ?_, fun d => ?_, fun i => ?_, htickets⟩
  · rw [hrequest]
    by_cases hdc : d = c
    · exact hdc ▸ h.posts c hbusy
    · rw [hclients, Function.update_of_ne hdc] at hd
      exact h.posts d hd
  · rw [hrequest, hinflight, hclients]
    by_cases hdc : d = c
    · rw [hdc, Function.update_self]
      exact hserves
    · rw [Function.update_of_ne hdc]
      exact h.serves d
  · rw [hworkers]
    exact h.fits i

/-- The client waits for no task before its step and for none after it. -/
theorem PostInv.moveClient_quiet (h : PostInv s) {pc : ClientPc β}
    (hbusy : s.clients c ≠ .idle) (hnone : s.awaits c = none)
    (hwait : ∀ task, pc ≠ .wait task)
    (hclients : s'.clients = Function.update s.clients c pc)
    (hinflight : s'.inflight = s.inflight) (hrequest : s'.request = s.request)
    (hworkers : s'.workers = s.workers)
    (hserves : pc.Serves (s.request c) c (s.inflight c))
    (hpending : s'.pending = s.pending) : PostInv s' := by
  have hawaits : s'.awaits = s.awaits := by
    funext d
    by_cases hd : d = c
    · subst hd
      rw [hnone, System.awaits_eq_none]
      intro task htask
      rw [hclients, Function.update_self] at htask
      exact absurd htask (hwait task)
    · exact System.awaits_congr (by rw [hclients, Function.update_of_ne hd])
        (by rw [hinflight])
  exact h.moveClient hbusy hclients hinflight hrequest hworkers hserves
    (hawaits ▸ hpending ▸ h.tickets)

/-- A worker moves without a task being completed. -/
theorem PostInv.moveWorker (h : PostInv s) {pc : WorkerPc β}
    (hclients : s'.clients = s.clients) (hinflight : s'.inflight = s.inflight)
    (hrequest : s'.request = s.request)
    (hworkers : s'.workers = Function.update s.workers i pc)
    (hfits : pc.Fits) (hpending : ∀ j, (s'.pending j).Subperm (s.pending j)) :
    PostInv s' := by
  have hawaits : s'.awaits = s.awaits := by
    funext d
    exact System.awaits_congr (by rw [hclients]) (by rw [hinflight])
  refine ⟨?_, ?_, fun j => ?_, hawaits ▸ h.tickets.drop hpending⟩
  · rw [hclients, hrequest]
    exact h.posts
  · rw [hclients, hrequest, hinflight]
    exact h.serves
  · rw [hworkers]
    by_cases hj : j = i
    · rw [hj, Function.update_self]
      exact hfits
    · rw [Function.update_of_ne hj]
      exact h.fits j

/-- What the client that posts a task has called. -/
theorem PostInv.posting (h : PostInv s)
    (hpc : s.clients c = .postNvm task ∨ s.clients c = .postSmall task) :
    (ClientPc.wait task).Serves (s.request c) c (s.inflight c) ∧
      s.inflight c = task.len ∧ (s.request c).Posts := by
  have hserves := h.serves c
  have hposts := h.posts c
  rcases hpc with hpc | hpc
  · rw [hpc] at hserves hposts
    obtain ⟨htask, htype, hcount⟩ := hserves
    exact ⟨⟨htask, Or.inl htype, fun _ => hcount⟩, hcount, hposts nofun⟩
  · rw [hpc] at hserves hposts
    obtain ⟨htask, htype, hwrite, hone, hcount⟩ := hserves
    exact ⟨⟨htask, Or.inr ⟨htype, hwrite, hone⟩, fun _ => hcount⟩, hcount,
      hposts nofun⟩

theorem ClientPc.post_ne_wait (task task' : IoTask β) :
    ClientPc.post task ≠ .wait task' := by
  unfold ClientPc.post
  split
  · simp
  · unfold mixPostTaskToData
    split
    · simp
    · split
      · simp
      · split <;> simp

/-- A client that was idle calls. -/
theorem PostInv.call {request : Request β} (h : PostInv s)
    (hidle : s.clients c = .idle) (hposts : request.Posts)
    (hclients : s'.clients =
      Function.update s.clients c (ClientPc.post (request.task c)))
    (hinflight : s'.inflight = Function.update s.inflight c request.len)
    (hrequest : s'.request = Function.update s.request c request)
    (hworkers : s'.workers = s.workers)
    (hpending : s'.pending = s.pending) : PostInv s' := by
  have hawaits : s'.awaits = s.awaits := by
    funext d
    by_cases hd : d = c
    · subst hd
      rw [System.awaits_eq_none fun task htask => ?_,
        System.awaits_eq_none fun task htask => ?_]
      · rw [hidle] at htask
        cases htask
      · rw [hclients, Function.update_self] at htask
        exact absurd htask (ClientPc.post_ne_wait _ _)
    · exact System.awaits_congr
        (by rw [hclients, Function.update_of_ne hd])
        (by rw [hinflight, Function.update_of_ne hd])
  refine ⟨fun d hd => ?_, fun d => ?_, fun j => ?_,
    hawaits ▸ hpending ▸ h.tickets⟩
  · rw [hrequest]
    by_cases hdc : d = c
    · rw [hdc, Function.update_self]
      exact hposts
    · rw [Function.update_of_ne hdc]
      rw [hclients, Function.update_of_ne hdc] at hd
      exact h.posts d hd
  · rw [hclients, hrequest, hinflight]
    by_cases hdc : d = c
    · rw [hdc, Function.update_self, Function.update_self,
        Function.update_self]
      exact hposts.serves_post c
    · rw [Function.update_of_ne hdc, Function.update_of_ne hdc,
        Function.update_of_ne hdc]
      exact h.serves d
  · rw [hworkers]
    exact h.fits j

/-- A client posts its task and waits. -/
theorem PostInv.post (h : PostInv s)
    (hpc : s.clients c = .postNvm task ∨ s.clients c = .postSmall task)
    (hclients : s'.clients = Function.update s.clients c (.wait task))
    (hinflight : s'.inflight = s.inflight) (hrequest : s'.request = s.request)
    (hworkers : s'.workers = s.workers)
    (hpending : (s'.pending (smallQueue task)).Perm
      (task :: s.pending (smallQueue task)))
    (hpending_ne : ∀ j, j ≠ smallQueue task →
      s'.pending j = s.pending j) : PostInv s' := by
  obtain ⟨hserves, hcount, hposts⟩ := h.posting hpc
  obtain ⟨-, hlen, -, howner⟩ := hposts.task_fields c
  rw [← hserves.1] at hlen howner
  have hbusy : s.clients c ≠ .idle := by
    rcases hpc with hpc | hpc <;> rw [hpc] <;> simp
  have hnone : s.awaits c = none := by
    refine System.awaits_eq_none fun t ht => ?_
    rcases hpc with hpc | hpc <;> rw [hpc] at ht <;> cases ht
  have hpos := hposts.len
  refine h.moveClient hbusy hclients hinflight hrequest hworkers hserves ?_
  refine h.tickets.post (t := task) ?_ ?_ (fun d hd => ?_)
    hpending.subperm fun j hj => (hpending_ne j hj) ▸ List.Subperm.refl _
  · rw [howner]
    exact hnone
  · rw [howner, System.awaits, hclients, Function.update_self, hinflight]
    have hwaits : 0 < s.inflight c := by omega
    simp only [hwaits, if_true]
  · rw [howner] at hd
    exact System.awaits_congr (by rw [hclients, Function.update_of_ne hd])
      (by rw [hinflight])

/-- A worker lowers the counter by the length of its task. -/
theorem PostInv.finish (h : PostInv s)
    (hpc : s.workers i = .finish task task.len)
    (hclients : s'.clients = s.clients)
    (hinflight : s'.inflight = Function.update s.inflight
      task.inflightBuffer (s.inflight task.inflightBuffer - task.len))
    (hrequest : s'.request = s.request)
    (hworkers : s'.workers = Function.update s.workers i .ready)
    (hpending : (s.pending i).Perm (task :: s'.pending i))
    (hpending_ne : ∀ j, j ≠ i → s'.pending j = s.pending j) :
    PostInv s' := by
  have hposted := h.posted (System.mem_pending_of_finish hpc)
  have hdone : s.inflight task.inflightBuffer - task.len = 0 := by
    rw [hposted.inflight]
    omega
  rw [hdone] at hinflight
  refine ⟨?_, fun c => ?_, fun j => ?_, ?_⟩
  · rw [hclients, hrequest]
    exact h.posts
  · rw [hclients, hrequest, hinflight]
    by_cases hc : c = task.inflightBuffer
    · subst hc
      have hserves := h.serves task.inflightBuffer
      rw [hposted.client] at hserves ⊢
      rw [Function.update_self]
      exact ⟨hserves.1, hserves.2.1, fun hpos => absurd hpos (by omega)⟩
    · rw [Function.update_of_ne hc]
      exact h.serves c
  · rw [hworkers]
    by_cases hj : j = i
    · rw [hj, Function.update_self]
      trivial
    · rw [Function.update_of_ne hj]
      exact h.fits j
  · refine h.tickets.complete (t := task) (i := i) (fun c hc => ?_)
      hpending fun j hj => hpending_ne j hj ▸ List.Subperm.refl _
    exact System.awaits_congr (by rw [hclients])
      (by rw [hinflight, Function.update_of_ne hc])

/-- Every step keeps the invariant of the tasks. -/
theorem TaskMoves.postInv (hmoves : TaskMoves s s' events) (h : PostInv s) :
    PostInv s' := by
  cases hmoves with
  | call hidle hposts hclients hinflight hrequest hworkers hpending =>
      exact h.call hidle hposts hclients hinflight hrequest hworkers hpending
  | post hpc hclients hinflight hrequest hworkers hpending hpending_ne =>
      exact h.post hpc hclients hinflight hrequest hworkers hpending
        hpending_ne
  | @transfer c pc hpc hpc' hserves hclients hinflight hrequest hworkers
      hpending =>
      refine h.moveClient_quiet (c := c) ?_ ?_ ?_ hclients hinflight hrequest
        hworkers hserves hpending
      · intro hidle
        rw [hidle] at hpc
        cases hpc
      · refine System.awaits_eq_none fun t ht => ?_
        rw [ht] at hpc
        cases hpc
      · intro t ht
        rw [ht] at hpc'
        cases hpc'
  | @«return» c task hpc hclients hinflight hrequest hworkers hpending =>
      refine h.moveClient_quiet (c := c) ?_ ?_ (by simp) hclients hinflight
        hrequest hworkers trivial hpending
      · rcases hpc with hpc | ⟨hpc, -⟩ <;> rw [hpc] <;> simp
      · refine System.awaits_eq_none fun t ht => ?_
        rcases hpc with hpc | ⟨-, hdone⟩
        · rw [hpc] at ht
          cases ht
        · exact hdone
  | leave hpc hclients hinflight hrequest hworkers hpending =>
      refine h.moveClient_quiet ?_ ?_ (by simp) hclients hinflight hrequest
        hworkers trivial hpending
      · rw [hpc]
        simp
      · refine System.awaits_eq_none fun t ht => ?_
        rw [hpc] at ht
        cases ht
  | work hfits hcurrent hclients hinflight hrequest hworkers hpending =>
      exact h.moveWorker hclients hinflight hrequest hworkers hfits
        fun j => hpending ▸ List.Subperm.refl _
  | take hfits hready hcurrent htask hclients hinflight hrequest hworkers
      hpending =>
      exact h.moveWorker hclients hinflight hrequest hworkers hfits
        fun j => (hpending j).subperm
  | finish hpc hclients hinflight hrequest hworkers hpending hpending_ne =>
      exact h.finish hpc hclients hinflight hrequest hworkers hpending
        hpending_ne

/-- What is known of every request that is called is known of every request
that is being served. -/
theorem TaskMoves.forall_request {P : Request β → Prop}
    (hmoves : TaskMoves s s' events)
    (hcalled : ∀ c request, (c, CallEvent.called request) ∈ events →
      P request)
    (h : ∀ c, s.clients c ≠ .idle → P (s.request c)) :
    ∀ c, s'.clients c ≠ .idle → P (s'.request c) := by
  -- a client that was busy before keeps its request
  have hkeep : ∀ {c : Fin 16} {pc : ClientPc β}, s.clients c ≠ .idle →
      s'.clients = Function.update s.clients c pc → s'.request = s.request →
      ∀ d, s'.clients d ≠ .idle → P (s'.request d) := by
    intro c pc hbusy hclients hrequest d hd
    rw [hrequest]
    by_cases hdc : d = c
    · exact hdc ▸ h c hbusy
    · rw [hclients, Function.update_of_ne hdc] at hd
      exact h d hd
  cases hmoves with
  | @call c request hidle hposts hclients hinflight hrequest hworkers
      hpending =>
      intro d hd
      rw [hrequest]
      by_cases hdc : d = c
      · rw [hdc, Function.update_self]
        exact hcalled c request List.mem_cons_self
      · rw [Function.update_of_ne hdc]
        rw [hclients, Function.update_of_ne hdc] at hd
        exact h d hd
  | post hpc hclients hinflight hrequest =>
      refine hkeep ?_ hclients hrequest
      rcases hpc with hpc | hpc <;> rw [hpc] <;> simp
  | @transfer c pc hpc hpc' hserves hclients hinflight hrequest =>
      refine hkeep (c := c) (fun hidle => ?_) hclients hrequest
      rw [hidle] at hpc
      cases hpc
  | «return» hpc hclients hinflight hrequest =>
      refine hkeep ?_ hclients hrequest
      rcases hpc with hpc | ⟨hpc, -⟩ <;> rw [hpc] <;> simp
  | leave hpc hclients hinflight hrequest =>
      refine hkeep ?_ hclients hrequest
      rw [hpc]
      simp
  | work hfits hcurrent hclients hinflight hrequest hworkers hpending =>
      rw [hclients, hrequest]
      exact h
  | take hfits hready hcurrent htask hclients hinflight hrequest =>
      rw [hclients, hrequest]
      exact h
  | finish hpc hclients hinflight hrequest =>
      rw [hclients, hrequest]
      exact h

/-- A client that makes no call keeps its request. -/
theorem TaskMoves.request_eq (hmoves : TaskMoves s s' events)
    (hcall : ∀ request, (c, CallEvent.called request) ∉ events) :
    s'.request c = s.request c := by
  cases hmoves with
  | @call d request hidle hposts hclients hinflight hrequest =>
      by_cases hc : c = d
      · subst hc
        exact absurd List.mem_cons_self (hcall request)
      · rw [hrequest, Function.update_of_ne hc]
  | post hpc hclients hinflight hrequest => rw [hrequest]
  | transfer hpc hpc' hserves hclients hinflight hrequest => rw [hrequest]
  | «return» hpc hclients hinflight hrequest => rw [hrequest]
  | leave hpc hclients hinflight hrequest => rw [hrequest]
  | work hfits hcurrent hclients hinflight hrequest => rw [hrequest]
  | take hfits hready hcurrent htask hclients hinflight hrequest =>
      rw [hrequest]
  | finish hpc hclients hinflight hrequest => rw [hrequest]

theorem called_notMem_clientEvents (request : Request β) :
    CallEvent.called request ∉ clientEvents s c := by
  unfold clientEvents
  split
  · dsimp only
    split <;> simp
  · simp
  · simp
  · simp
  · simp

theorem called_notMem_dispatchEvents (request : Request β) :
    CallEvent.called request ∉ dispatchEvents i task := by
  unfold dispatchEvents
  split <;> simp

/-- A call is recorded as such. -/
theorem eq_call_of_mem_callEvents {event : SystemEvent T β}
    {request : Request β}
    (h : (c, CallEvent.called request) ∈ callEvents s event) :
    event = .call c request := by
  cases event with
  | call d request' =>
      simp only [callEvents, List.mem_singleton, Prod.mk.injEq,
        CallEvent.called.injEq] at h
      rw [h.1, h.2]
  | client d =>
      simp only [callEvents, List.mem_map, Prod.mk.injEq] at h
      obtain ⟨e, he, -, rfl⟩ := h
      exact absurd he (called_notMem_clientEvents request)
  | worker j =>
      rw [callEvents] at h
      split at h
      · simp only [List.mem_flatMap, List.mem_map, Prod.mk.injEq] at h
        obtain ⟨t, -, e, he, -, rfl⟩ := h
        exact absurd he (called_notMem_dispatchEvents request)
      · simp at h
      · simp at h
  | migrate j | coord | thread t => simp [callEvents] at h

section Steps

variable [BlockDevice σ β]

/-! ## Steps of the clients -/

omit [BlockDevice σ β] in
theorem mixEnqueue_of_lt {α : Type*} {queue : List α} {task : α}
    (hlt : queue.length < queueCapacity) :
    mixEnqueue queue task = (queue ++ [task], 1) :=
  if_pos hlt

/-- There is always room for an NVM task. -/
theorem PostInv.clientStep_postNvm (h : PostInv s)
    (hpc : s.clients c = .postNvm task)
    (hstep : clientStep s c = some s') :
    s' = (s.setNvmQueue (smallQueue task)
        (s.nvmQueue (smallQueue task) ++ [task])).setClient c (.wait task) ∧
      clientEvents s c = [.posted (smallQueue task) task] := by
  have hlt : (s.nvmQueue (smallQueue task)).length < queueCapacity :=
    lt_of_le_of_lt (h.length_nvmQueue_le _) (by decide)
  unfold clientStep at hstep
  simp only [hpc, mixEnqueue_of_lt hlt, Option.some.injEq] at hstep
  refine ⟨hstep.symm, ?_⟩
  simp only [clientEvents, hpc, mixEnqueue_of_lt hlt]
  rfl

theorem PostInv.clientStep_moves (h : PostInv s)
    (hstep : clientStep s c = some s') :
    TaskMoves s s' ((clientEvents s c).map fun e => (c, e)) := by
  have hserves := h.serves c
  have hposts := h.posts c
  cases Uhs.clientStep_moves hstep with
  | @postNvm task hpc queue hqueue =>
      obtain ⟨heq, hevents⟩ := h.clientStep_postNvm hpc hstep
      rw [heq, hevents]
      refine .post (Or.inl hpc) rfl rfl rfl rfl ?_
        fun j hj => s.setNvmQueue_pending_of_ne hj
      change ((s.setNvmQueue _ _).pending _).Perm _
      rw [System.setNvmQueue_pending, ← List.append_assoc, List.append_assoc,
        List.singleton_append]
      exact List.perm_middle
  | @postSmall task hpc =>
      obtain ⟨hwaits, -, hposts⟩ := h.posting (Or.inr hpc)
      have hbranch : workerBranch task ≠ .skip := by
        rw [hpc] at hserves
        have hkind := hposts.branch c
          (Or.inr ⟨hserves.1 ▸ hserves.2.1, hserves.2.2.1⟩)
        rw [← hserves.1, hserves.2.1] at hkind
        rw [hkind]
        simp
      have hevents : clientEvents s c = [.posted (smallQueue task) task] := by
        rw [clientEvents, hpc]
      rw [hevents]
      refine .post (Or.inr hpc) rfl rfl rfl rfl ?_
        fun j hj => s.setBufferQueue_pending_of_ne hj
      change ((s.setBufferQueue _ _).pending _).Perm _
      rw [System.setBufferQueue_pending, List.filter_append,
        List.filter_cons_of_pos (by simpa using hbranch), List.filter_nil,
        ← List.append_assoc]
      exact List.perm_append_singleton _ _
  | @postSub task n hpc =>
      rw [hpc] at hserves
      obtain ⟨htask, htype, hwrite, hlarge⟩ := hserves
      have hskip : workerBranch (subTask task n).2 = .skip := by
        rw [htask] at htype ⊢
        exact (hposts (by simp [hpc])).withClear_branch hwrite htype n
      have hevents : clientEvents s c = [] := by
        rw [clientEvents, hpc]
      rw [hevents]
      refine .transfer (c := c) (by rw [hpc]; exact .postSub _ _)
        (.postSub _ _) ⟨htask, htype, hwrite, hlarge⟩ rfl rfl rfl rfl ?_
      funext j
      change (s.setBufferQueue _ _).pending j = _
      by_cases hj : j = (subTask task n).1
      · subst hj
        rw [System.setBufferQueue_pending, List.filter_append,
          List.filter_cons_of_neg (by simpa using hskip), List.filter_nil,
          List.append_nil]
        rfl
      · exact s.setBufferQueue_pending_of_ne hj
  | @posted task n hpc =>
      rw [hpc] at hserves
      obtain ⟨htask, htype, hwrite, hlarge⟩ := hserves
      have hevents : clientEvents s c = [] := by
        rw [clientEvents, hpc]
      rw [hevents]
      exact .transfer (c := c) (by rw [hpc]; exact .postSub _ _) (.ssd _)
        ⟨htype, Or.inl ⟨hwrite, hlarge, htask⟩⟩ rfl rfl rfl rfl rfl
  | @ssd task hpc =>
      obtain ⟨hclients, hinflight, hrequest, hworkers, hnvm, hbuffer, -⟩ :=
        ssdTransfer_fields s c task
      have hevents : clientEvents s c = [.returned] := by
        rw [clientEvents, hpc]
      rw [hevents]
      refine .return (Or.inl hpc) ?_ hinflight hrequest hworkers ?_
      · rw [System.setClient, hclients]
      · funext j
        exact System.pending_congr (congrFun hworkers j) (congrFun hnvm j)
          (congrFun hbuffer j)
  | @wait task hpc hinflight =>
      have hevents : clientEvents s c = [.returned] := by
        rw [clientEvents, hpc]
      rw [hevents]
      exact .return (Or.inr ⟨hpc, hinflight⟩) rfl rfl rfl rfl rfl
  | @«return» task hpc =>
      have hevents : clientEvents s c = [] := by
        rw [clientEvents, hpc]
      rw [hevents]
      exact .leave hpc rfl rfl rfl rfl rfl

/-! ## Steps of the workers -/

omit [BlockDevice σ β] in
/-- A task that somebody waits for is executed. -/
theorem dispatch_of_awaited {r : System T σ β}
    (hbranch : workerBranch task = .nvmRead ∨ workerBranch task = .nvmWrite ∨
      workerBranch task = .redirectWrite) :
    ∃ pc : WorkerPc β, dispatch r i task = r.setWorker i pc ∧
      pc.current = some task ∧ pc.Fits ∧
      (pc = .nvmRead task 0 ∨ pc = .nvmWrite task 0 ∨ pc = .start task) := by
  unfold dispatch
  rcases hbranch with hbranch | hbranch | hbranch
  · rw [hbranch]
    exact ⟨_, rfl, rfl, ⟨hbranch, Nat.zero_le _⟩, Or.inl rfl⟩
  · rw [hbranch]
    exact ⟨_, rfl, rfl, ⟨hbranch, Nat.zero_le _⟩, Or.inr (Or.inl rfl)⟩
  · rw [hbranch]
    exact ⟨_, rfl, rfl, hbranch, Or.inr (Or.inr rfl)⟩

omit [BlockDevice σ β] in
theorem dispatchEvents_of_awaited
    (hbranch : workerBranch task = .nvmRead ∨ workerBranch task = .nvmWrite ∨
      workerBranch task = .redirectWrite) :
    dispatchEvents i task = [.started i task] := by
  unfold dispatchEvents
  rcases hbranch with hbranch | hbranch | hbranch <;> rw [hbranch]

omit [BlockDevice σ β] in
theorem redirectStep_current {m m' : Machine T σ β} {pc pc' : WorkerPc β}
    (hstep : redirectStep i m pc = some (m', pc')) :
    pc'.current = pc.current ∧ (pc.Fits → pc'.Fits) := by
  cases redirectStep_moves hstep with
  | @start task store pc hdev hpc =>
      rcases hpc with rfl | ⟨slot, rfl⟩
      · refine ⟨rfl, fun hfits t ht => ?_⟩
        cases ht
        exact hfits
      · exact ⟨rfl, id⟩
  | call hidle => exact ⟨rfl, id⟩
  | release hreturned => exact ⟨rfl, fun _ => trivial⟩
  | @resume task slot store hreturned hdev =>
      exact ⟨rfl, fun hfits => hfits task rfl⟩
  | data => exact ⟨rfl, id⟩
  | record => exact ⟨rfl, fun _ => rfl⟩

omit [BlockDevice σ β] in
/-- A worker stays where it is. -/
theorem PostInv.stay (h : PostInv s) (i : Fin 4)
    (hclients : s'.clients = s.clients) (hinflight : s'.inflight = s.inflight)
    (hrequest : s'.request = s.request) (hworkers : s'.workers = s.workers)
    (hpending : s'.pending = s.pending) : TaskMoves s s' [] :=
  .work (h.fits i) rfl hclients hinflight hrequest
    (hworkers.trans (Function.update_eq_self i _).symm) hpending

omit [BlockDevice σ β] in
/-- A worker takes the task at the head of one of its queues, which was
pending before. -/
theorem PostInv.take (h : PostInv s) {r : System T σ β}
    (hready : s.workers i = .ready) (htask : task ∈ s.pending i)
    (hclients : r.clients = s.clients) (hinflight : r.inflight = s.inflight)
    (hrequest : r.request = s.request) (hworkers : r.workers = s.workers)
    (hpending : (task :: r.pending i).Perm (s.pending i))
    (hpending_ne : ∀ j, j ≠ i → r.pending j = s.pending j) :
    TaskMoves s (dispatch r i task)
      ((dispatchEvents i task).map fun e => (task.inflightBuffer, e)) := by
  have hbranch := (h.posted htask).branch_cases
  obtain ⟨pc, hdispatch, hcurrent, hfits, -⟩ :=
    dispatch_of_awaited (r := r) (i := i) hbranch
  rw [hdispatch, dispatchEvents_of_awaited hbranch]
  refine .take hfits hready hcurrent htask hclients hinflight hrequest
    (by rw [System.setWorker, hworkers]) fun j => ?_
  by_cases hj : j = i
  · subst hj
    have hidle : (r.workers j).current = none := by
      rw [hworkers, hready]
      rfl
    refine List.Perm.trans ?_ hpending
    rw [System.setWorker_pending, System.pending, hcurrent, hidle]
    exact List.Perm.refl _
  · rw [System.pending_congr (System.setWorker_of_ne r hj pc) rfl rfl,
      hpending_ne j hj]

omit [BlockDevice σ β] in
/-- A ready worker skips sub-tasks and takes tasks. -/
theorem PostInv.workerPoll_moves (h : PostInv s)
    (hready : s.workers i = .ready) :
    TaskMoves s (workerPoll s i)
      ((s.polled i).toList.flatMap fun task =>
        (dispatchEvents i task).map fun e => (task.inflightBuffer, e)) := by
  unfold workerPoll System.polled
  by_cases hseq : s.seq i % 2 = 1
  · simp only [hseq, if_true]
    cases hqueue : s.nvmQueue i with
    | nil => exact h.stay i rfl rfl rfl rfl rfl
    | cons task rest =>
        simp only [List.head?_cons, Option.toList_some, List.flatMap_cons,
          List.flatMap_nil, List.append_nil]
        refine h.take hready (by simp [System.pending, hqueue]) rfl rfl rfl
          rfl ?_ fun j hj => System.setNvmQueue_pending_of_ne _ hj
        rw [System.setNvmQueue_pending, System.pending, hqueue, hready]
        exact List.Perm.refl _
  · simp only [hseq, if_false]
    cases hqueue : s.bufferQueue i with
    | nil => exact h.stay i rfl rfl rfl rfl rfl
    | cons task rest =>
        simp only [List.head?_cons, Option.toList_some, List.flatMap_cons,
          List.flatMap_nil, List.append_nil]
        by_cases hskip : workerBranch task = .skip
        · rw [dispatch, dispatchEvents, hskip]
          refine h.stay i rfl rfl rfl rfl (funext fun j => ?_)
          by_cases hj : j = i
          · subst hj
            rw [System.setBufferQueue_pending, System.pending, hqueue,
              List.filter_cons_of_neg (by simpa using hskip)]
          · exact System.setBufferQueue_pending_of_ne _ hj
        · refine h.take hready (by simp [System.pending, hqueue, hskip]) rfl
            rfl rfl rfl ?_
            fun j hj => System.setBufferQueue_pending_of_ne _ hj
          rw [System.setBufferQueue_pending, System.pending, hqueue, hready,
            List.filter_cons_of_pos (by simpa using hskip)]
          exact List.perm_middle.symm

omit [BlockDevice σ β] in
/-- A worker subtracts the length of its task, which its client waits for. -/
theorem PostInv.finish_moves (h : PostInv s) {ret : ℤ}
    (hpc : s.workers i = .finish task ret) :
    TaskMoves s ((s.fetchSub task.inflightBuffer ret).setWorker i .ready)
      [(task.inflightBuffer, .finished i task ret)] := by
  have hposted := h.posted (System.mem_pending_of_finish hpc)
  have hret : ret = task.len := by
    have hfits := h.fits i
    rw [hpc] at hfits
    exact hfits.trans hposted.toInt32_len
  subst hret
  refine .finish hpc rfl rfl rfl rfl ?_ fun j hj => ?_
  · rw [System.setWorker_pending, System.pending, hpc]
    exact List.Perm.refl _
  · exact System.pending_congr (System.setWorker_of_ne _ hj _) rfl rfl

omit [BlockDevice σ β] in
theorem PostInv.workerStep_moves (h : PostInv s)
    (hstep : workerStep s i = some s') :
    TaskMoves s s' (callEvents s (.worker i)) := by
  -- a step of a worker that goes on with its task
  have hkeep : ∀ {r : System T σ β} {pc : WorkerPc β},
      r.clients = s.clients → r.inflight = s.inflight →
      r.request = s.request → r.workers = s.workers →
      r.nvmQueue = s.nvmQueue → r.bufferQueue = s.bufferQueue →
      pc.Fits → pc.current = (s.workers i).current →
      TaskMoves s (r.setWorker i pc) [] := by
    intro r pc hclients hinflight hrequest hworkers hnvm hbuffer hfits hcur
    refine .work hfits hcur hclients hinflight hrequest
      (by rw [System.setWorker, hworkers]) ?_
    rw [r.setWorker_pending_eq (by rw [hworkers]; exact hcur)]
    funext j
    exact System.pending_congr (congrFun hworkers j) (congrFun hnvm j)
      (congrFun hbuffer j)
  have hfits := h.fits i
  by_cases hready : s.workers i = .ready
  · have hpoll : s' = workerPoll s i := by
      simp only [workerStep, hready, Option.some.injEq] at hstep
      exact hstep.symm
    rw [hpoll, callEvents, hready]
    exact h.workerPoll_moves hready
  · cases Uhs.workerStep_moves hstep with
    | poll hpc | takeNvm hpc | takeBuffer hpc => exact absurd hpc hready
    | nvmRead hpc hn =>
        rw [hpc] at hfits
        rw [callEvents, hpc]
        exact hkeep rfl rfl rfl rfl rfl rfl ⟨hfits.1, hn⟩ (by rw [hpc]; rfl)
    | nvmReadEnd hpc hn | nvmWriteEnd hpc hn =>
        rw [callEvents, hpc]
        exact hkeep rfl rfl rfl rfl rfl rfl rfl (by rw [hpc]; rfl)
    | nvmWrite hpc hn =>
        rw [hpc] at hfits
        rw [callEvents, hpc]
        exact hkeep (r := s.setDev _) rfl rfl rfl rfl rfl rfl ⟨hfits.1, hn⟩
          (by rw [hpc]; rfl)
    | finish hpc =>
        rw [callEvents, hpc]
        exact h.finish_moves hpc
    | @redirect m pc hredirect =>
        obtain ⟨hcur, hfits'⟩ := redirectStep_current hredirect
        have hevents : callEvents s (.worker i) = [] := by
          rw [callEvents]
          cases hpc : s.workers i with
          | ready => exact absurd hpc hready
          | finish task ret =>
              rw [hpc] at hredirect
              cases hredirect
          | _ => rfl
        rw [hevents]
        exact hkeep (r := s.setMachine _) rfl rfl rfl rfl rfl rfl
          (hfits' hfits) hcur

/-! ## Steps of the system -/

/-- What a step does to the tasks, if only requests that the store knows are
made. -/
theorem PostInv.systemStep_moves {event : SystemEvent T β} (h : PostInv s)
    (hposts : event.Posts)
    (hstep : systemStep s event = some s') :
    TaskMoves s s' (callEvents s event) := by
  cases event with
  | call c request =>
      simp only [systemStep] at hstep
      split at hstep
      · rename_i hidle
        cases hstep
        exact .call hidle hposts rfl rfl rfl rfl rfl
      · cases hstep
  | client c => exact h.clientStep_moves hstep
  | worker i => exact h.workerStep_moves hstep
  | migrate i =>
      simp only [systemStep] at hstep
      split at hstep
      · rename_i hpc
        cases hstep
        have hfits : (WorkerPc.lock none : WorkerPc β).Fits := by
          intro task hnone
          cases hnone
        refine .work (i := i) hfits ?_ rfl rfl rfl rfl ?_
        · rw [hpc]
          rfl
        · exact s.setWorker_pending_eq (by rw [hpc]; rfl)
      · cases hstep
  | coord | thread t =>
      simp only [systemStep, Option.map_eq_some_iff] at hstep
      obtain ⟨m, -, rfl⟩ := hstep
      exact h.stay 0 rfl rfl rfl rfl rfl

theorem postInv_initial (store : Store σ β) (segmentIdx : Fin 4)
    (migrateBuf : Fin T → β) (inflight : Fin 16 → ℤ) (dst : Fin 16 → ℕ → β)
    (request : Fin 16 → Request β) :
    PostInv (System.initial T store segmentIdx migrateBuf inflight dst
      request) where
  posts := fun _ hbusy => absurd rfl hbusy
  serves := fun _ => trivial
  fits := fun _ => trivial
  tickets := ⟨nofun, nofun, fun _ => List.nodup_nil⟩

theorem systemStep_postInv {event : SystemEvent T β} (h : PostInv s)
    (hposts : event.Posts)
    (hstep : systemStep s event = some s') : PostInv s' :=
  (h.systemStep_moves hposts hstep).postInv h

end Steps

end Uhs
