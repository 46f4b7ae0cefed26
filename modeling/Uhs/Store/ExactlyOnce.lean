import Uhs.Store.TaskMoves
import Uhs.Support.Scripts

/-!
# Tasks are executed exactly once

The events of the calls are logged, for each client on its own.  The log of a
client follows the scripts of its calls: the task of a call that waits is
posted, executed by one worker and completed before the call returns.
-/

namespace Uhs

open Support

variable {T : ℕ} {σ β : Type*}

/-! ## The log -/

/-- The system with the log of each client. -/
structure Logged (T : ℕ) (σ β : Type*) where
  system : System T σ β
  log : Fin 16 → List (CallEvent β)

/-- The logs after some more events. -/
def record (log : Fin 16 → List (CallEvent β))
    (events : List (Fin 16 × CallEvent β)) : Fin 16 → List (CallEvent β) :=
  fun c => log c ++ (events.filter fun e => e.1 = c).map Prod.snd

/-- A step of the system, which is logged. -/
def loggedStep [BlockDevice σ β] (s : Logged T σ β)
    (event : SystemEvent T β) : Option (Logged T σ β) :=
  (systemStep s.system event).map fun system =>
    ⟨system, record s.log (callEvents s.system event)⟩

/-- Nothing has been logged, and the counters of `mixdk.c` are zero. -/
def Logged.initial [BlockDevice σ β] (T : ℕ) (store : Store σ β)
    (segmentIdx : Fin 4) (migrateBuf : Fin T → β) (dst : Fin 16 → ℕ → β)
    (request : Fin 16 → Request β) : Logged T σ β where
  system := System.initial T store segmentIdx migrateBuf (fun _ => 0) dst
    request
  log := fun _ => []

/-! ## The scripts -/

/-- The call waits until a worker has executed its task. -/
def Request.Waits (request : Request β) (c : Fin 16) : Prop :=
  (request.task c).type = .nvm ∨ request.isWrite = true ∧ request.len = 1

instance (request : Request β) (c : Fin 16) : Decidable (request.Waits c) :=
  inferInstanceAs (Decidable (_ ∨ _))

/-- From the post of a task to the return of its call: the worker of its
queue executes it once and takes its whole length off the counter. -/
def waitScript (task : IoTask β) : List (CallEvent β) :=
  [.posted (smallQueue task) task, .started (smallQueue task) task,
    .finished (smallQueue task) task task.len, .returned]

/-- All that happens to a call of client `c`. -/
def callScript (c : Fin 16) (request : Request β) : List (CallEvent β) :=
  .called request ::
    if request.Waits c then waitScript (request.task c) else [.returned]

/-- The request that an event names. -/
def CallEvent.request : CallEvent β → Option (Request β)
  | .called request => some request
  | _ => none

/-- The counter of a client after an event. -/
def CallEvent.count (inflight : ℤ) : CallEvent β → ℤ
  | .called request => request.len
  | .finished _ _ ret => inflight - ret
  | _ => inflight

/-- Every task that somebody waits for is executed exactly once. -/
structure ExactlyOnce (s : Logged T σ β) : Prop where
  follows : ∀ c, s.log c <+:
    scripted CallEvent.request (callScript c) (s.log c)
  complete : ∀ c, s.system.clients c = .idle →
    IsComplete CallEvent.request (callScript c) (s.log c)
  counter : ∀ c, s.system.inflight c = (s.log c).foldl CallEvent.count 0
  nonneg : ∀ c, 0 ≤ s.system.inflight c
  waiting : ∀ c task, s.system.clients c = .wait task →
    s.system.inflight c = task.len ∧
        task ∈ s.system.pending (smallQueue task) ∨
      s.system.inflight c = 0
  room : ∀ i, (s.system.nvmQueue i).length ≤ 16

theorem isScript_callScript (c : Fin 16) :
    IsScript CallEvent.request (callScript (β := β) c) := by
  intro request
  refine ⟨_, _, rfl, rfl, fun x hx => ?_⟩
  split at hx
  · simp only [waitScript, List.mem_cons, List.not_mem_nil, or_false] at hx
    rcases hx with rfl | rfl | rfl | rfl <;> rfl
  · rw [List.mem_singleton] at hx
    rw [hx]
    rfl

theorem record_nil (log : Fin 16 → List (CallEvent β)) :
    record log [] = log :=
  funext fun _ => List.append_nil _

theorem record_singleton (log : Fin 16 → List (CallEvent β)) (c : Fin 16)
    (e : CallEvent β) :
    record log [(c, e)] = Function.update log c (log c ++ [e]) := by
  funext d
  by_cases hd : d = c
  · subst hd
    simp [record]
  · rw [Function.update_of_ne hd]
    simp [record, Ne.symm hd]

/-! ## The invariant -/

/-- Where a call is, and how far its log has come. -/
inductive CallProgress (s : System T σ β) (c : Fin 16)
    (log : List (CallEvent β)) : Prop
  | idle (hpc : s.clients c = .idle ∨ ∃ task, s.clients c = .returned task)
      (hlog : IsComplete CallEvent.request (callScript c) log)
  | posting {task : IoTask β}
      (hpc : s.clients c = .postNvm task ∨ s.clients c = .postSmall task)
      (hlog : IsOpen CallEvent.request (callScript c) log (s.request c)
        (waitScript task))
  | transfers (hpc : (s.clients c).Transfers)
      (hlog : IsOpen CallEvent.request (callScript c) log (s.request c)
        [.returned])
  | queued {task : IoTask β} (hpc : s.clients c = .wait task)
      (hinflight : 0 < s.inflight c)
      (hpending : task ∈ s.pending (smallQueue task))
      (hcurrent : (s.workers (smallQueue task)).current ≠ some task)
      (hlog : IsOpen CallEvent.request (callScript c) log (s.request c)
        [.started (smallQueue task) task,
          .finished (smallQueue task) task task.len, .returned])
  | running {task : IoTask β} (hpc : s.clients c = .wait task)
      (hinflight : 0 < s.inflight c)
      (hcurrent : (s.workers (smallQueue task)).current = some task)
      (hlog : IsOpen CallEvent.request (callScript c) log (s.request c)
        [.finished (smallQueue task) task task.len, .returned])
  | done {task : IoTask β} (hpc : s.clients c = .wait task)
      (hinflight : s.inflight c = 0)
      (hlog : IsOpen CallEvent.request (callScript c) log (s.request c)
        [.returned])

/-- The invariant of the logs. -/
structure LogInv (s : Logged T σ β) : Prop where
  tasks : PostInv s.system
  progress : ∀ c, CallProgress s.system c (s.log c)
  counter : ∀ c, s.system.inflight c = (s.log c).foldl CallEvent.count 0
  nonneg : ∀ c, 0 ≤ s.system.inflight c

variable {s s' : System T σ β} {c : Fin 16} {i : Fin 4} {task : IoTask β}
  {log : List (CallEvent β)} {logs : Fin 16 → List (CallEvent β)}
  {events : List (Fin 16 × CallEvent β)} {request : Request β}

theorem CallProgress.isPrefix (h : CallProgress s c log) :
    log <+: scripted CallEvent.request (callScript c) log := by
  have hscript := isScript_callScript (β := β) c
  cases h with
  | idle hpc hlog => exact hlog.isPrefix
  | posting hpc hlog => exact hlog.isPrefix hscript
  | transfers hpc hlog => exact hlog.isPrefix hscript
  | queued hpc hinflight hpending hcurrent hlog => exact hlog.isPrefix hscript
  | running hpc hinflight hcurrent hlog => exact hlog.isPrefix hscript
  | done hpc hinflight hlog => exact hlog.isPrefix hscript

/-- The progress of a client to which nothing happens. -/
theorem CallProgress.congr (h : CallProgress s c log)
    (hclient : s'.clients c = s.clients c)
    (hinflight' : s'.inflight c = s.inflight c)
    (hrequest : s'.request c = s.request c)
    (hpending' : ∀ task, s.clients c = .wait task →
      task ∈ s.pending (smallQueue task) →
        task ∈ s'.pending (smallQueue task))
    (hcurrent' : ∀ task, s.clients c = .wait task →
      ((s'.workers (smallQueue task)).current = some task ↔
        (s.workers (smallQueue task)).current = some task)) :
    CallProgress s' c log := by
  cases h with
  | idle hpc hlog => exact .idle (by rwa [hclient]) hlog
  | posting hpc hlog => exact .posting (by rwa [hclient]) (by rwa [hrequest])
  | transfers hpc hlog =>
      exact .transfers (by rwa [hclient]) (by rwa [hrequest])
  | @queued task hpc hinflight hpending hcurrent hlog =>
      exact .queued (by rwa [hclient]) (by rwa [hinflight'])
        (hpending' task hpc hpending)
        (fun h => hcurrent ((hcurrent' task hpc).mp h)) (by rwa [hrequest])
  | @running task hpc hinflight hcurrent hlog =>
      exact .running (by rwa [hclient]) (by rwa [hinflight'])
        ((hcurrent' task hpc).mpr hcurrent) (by rwa [hrequest])
  | done hpc hinflight hlog =>
      exact .done (by rwa [hclient]) (by rwa [hinflight']) (by rwa [hrequest])

/-- A task that a client waits for is its own. -/
theorem PostInv.owner_of_wait (h : PostInv s)
    (hpc : s.clients c = .wait task) : task.inflightBuffer = c := by
  have hserves := h.serves c
  have hposts := h.posts c (by rw [hpc]; simp)
  rw [hpc] at hserves
  have howner := (hposts.task_fields c).2.2.2
  rwa [← hserves.1] at howner

/-- The log of a request that is called. -/
theorem Request.Posts.progress (h : request.Posts)
    (hlog : IsComplete CallEvent.request (callScript c) log)
    (hclient : s.clients c = ClientPc.post (request.task c))
    (hrequest : s.request c = request) :
    CallProgress s c (log ++ [.called request]) := by
  have hopen : IsOpen CallEvent.request (callScript c)
      (log ++ [.called request]) request
        (if request.Waits c then waitScript (request.task c)
          else [.returned]) := hlog.opens rfl
  have hwaits : ∀ hw : request.Waits c,
      IsOpen CallEvent.request (callScript c) (log ++ [.called request])
        (s.request c) (waitScript (request.task c)) := by
    intro hw
    rw [if_pos hw] at hopen
    rwa [hrequest]
  have htransfers : ¬ request.Waits c →
      IsOpen CallEvent.request (callScript c) (log ++ [.called request])
        (s.request c) [.returned] := by
    intro hw
    rw [if_neg hw] at hopen
    rwa [hrequest]
  rcases h.post_cases c with ⟨htype, hpost⟩ | ⟨htype, hcases⟩
  · exact .posting (Or.inl (hclient.trans hpost)) (hwaits (Or.inl htype))
  · rcases hcases with ⟨hwrite, hone, hpost⟩ | ⟨hwrite, hlarge, hpost⟩ |
      ⟨hread, hpost⟩
    · exact .posting (Or.inr (hclient.trans hpost))
        (hwaits (Or.inr ⟨hwrite, hone⟩))
    · refine .transfers (by rw [hclient, hpost]; exact .postSub _ _)
        (htransfers ?_)
      rintro (hnvm | ⟨-, hone⟩)
      · rw [htype] at hnvm
        cases hnvm
      · omega
    · refine .transfers (by rw [hclient, hpost]; exact .ssd _)
        (htransfers ?_)
      rintro (hnvm | ⟨hwrite, -⟩)
      · rw [htype] at hnvm
        cases hnvm
      · rw [hread] at hwrite
        cases hwrite

/-- The client has nothing under way to which a step of it could belong. -/
theorem CallProgress.isComplete_of_idle (h : CallProgress s c log)
    (hidle : s.clients c = .idle ∨ ∃ task, s.clients c = .returned task) :
    IsComplete CallEvent.request (callScript c) log := by
  have hbusy : ∀ pc : ClientPc β, s.clients c = pc → pc ≠ .idle →
      (∀ task, pc ≠ .returned task) → False := by
    intro pc hpc hne hreturned
    rcases hidle with hidle | ⟨task, hidle⟩
    · exact hne (hpc.symm.trans hidle)
    · exact hreturned task (hpc.symm.trans hidle)
  cases h with
  | idle hpc hlog => exact hlog
  | posting hpc hlog =>
      rcases hpc with hpc | hpc
      · exact (hbusy _ hpc nofun nofun).elim
      · exact (hbusy _ hpc nofun nofun).elim
  | transfers hpc hlog =>
      exact (hbusy _ rfl (by rintro h; rw [h] at hpc; cases hpc)
        (by rintro t h; rw [h] at hpc; cases hpc)).elim
  | queued hpc | running hpc | done hpc =>
      exact (hbusy _ hpc nofun nofun).elim

theorem CallProgress.isOpen_of_posting (h : CallProgress s c log)
    (hpc : s.clients c = .postNvm task ∨ s.clients c = .postSmall task) :
    IsOpen CallEvent.request (callScript c) log (s.request c)
      (waitScript task) := by
  cases h with
  | idle hpc' hlog =>
      rcases hpc with hpc | hpc <;> rw [hpc] at hpc' <;> simp at hpc'
  | @posting task' hpc' hlog =>
      rcases hpc with hpc | hpc <;> rw [hpc] at hpc' <;>
        simp only [ClientPc.postNvm.injEq, ClientPc.postSmall.injEq,
          reduceCtorEq, or_false, false_or] at hpc'
      · rwa [hpc']
      · rwa [hpc']
  | transfers hpc' hlog =>
      rcases hpc with hpc | hpc <;> rw [hpc] at hpc' <;> cases hpc'
  | queued hpc' | running hpc' | done hpc' =>
      rcases hpc with hpc | hpc <;> rw [hpc] at hpc' <;> cases hpc'

theorem CallProgress.isOpen_of_transfers (h : CallProgress s c log)
    (hpc : (s.clients c).Transfers) :
    IsOpen CallEvent.request (callScript c) log (s.request c)
      [.returned] := by
  cases h with
  | idle hpc' hlog =>
      rcases hpc' with hpc' | ⟨task, hpc'⟩ <;> rw [hpc'] at hpc <;> cases hpc
  | posting hpc' hlog =>
      rcases hpc' with hpc' | hpc' <;> rw [hpc'] at hpc <;> cases hpc
  | transfers hpc' hlog => exact hlog
  | queued hpc' | running hpc' | done hpc' =>
      rw [hpc'] at hpc
      cases hpc

/-- How far the call of a waiting client has come. -/
theorem CallProgress.wait_cases (h : CallProgress s c log)
    (hpc : s.clients c = .wait task) :
    (0 < s.inflight c ∧ task ∈ s.pending (smallQueue task) ∧
        (s.workers (smallQueue task)).current ≠ some task ∧
        IsOpen CallEvent.request (callScript c) log (s.request c)
          [.started (smallQueue task) task,
            .finished (smallQueue task) task task.len, .returned]) ∨
      (0 < s.inflight c ∧
        (s.workers (smallQueue task)).current = some task ∧
        IsOpen CallEvent.request (callScript c) log (s.request c)
          [.finished (smallQueue task) task task.len, .returned]) ∨
      s.inflight c = 0 ∧
        IsOpen CallEvent.request (callScript c) log (s.request c)
          [.returned] := by
  cases h with
  | idle hpc' hlog =>
      rcases hpc' with hpc' | ⟨t, hpc'⟩ <;> rw [hpc'] at hpc <;> cases hpc
  | posting hpc' hlog =>
      rcases hpc' with hpc' | hpc' <;> rw [hpc'] at hpc <;> cases hpc
  | transfers hpc' hlog =>
      rw [hpc] at hpc'
      cases hpc'
  | queued hpc' hinflight hpending hcurrent hlog =>
      obtain rfl := ClientPc.wait.inj (hpc.symm.trans hpc')
      exact Or.inl ⟨hinflight, hpending, hcurrent, hlog⟩
  | running hpc' hinflight hcurrent hlog =>
      obtain rfl := ClientPc.wait.inj (hpc.symm.trans hpc')
      exact Or.inr (Or.inl ⟨hinflight, hcurrent, hlog⟩)
  | done hpc' hinflight hlog =>
      exact Or.inr (Or.inr ⟨hinflight, hlog⟩)

/-- A posted task that its worker has not taken has not been started. -/
theorem CallProgress.isOpen_of_not_current
    (h : CallProgress s task.inflightBuffer log) (hposted : Posted s i task)
    (hcurrent : (s.workers i).current ≠ some task) :
    IsOpen CallEvent.request (callScript task.inflightBuffer) log
      (s.request task.inflightBuffer)
      [.started i task, .finished i task task.len, .returned] := by
  obtain rfl := hposted.queue
  rcases h.wait_cases hposted.client with ⟨-, -, -, hlog⟩ | ⟨-, hcur, -⟩ |
    ⟨hdone, -⟩
  · exact hlog
  · exact absurd hcur hcurrent
  · exact absurd hdone hposted.inflight_pos.ne'

/-- A posted task that its worker has taken has not been completed. -/
theorem CallProgress.isOpen_of_current
    (h : CallProgress s task.inflightBuffer log) (hposted : Posted s i task)
    (hcurrent : (s.workers i).current = some task) :
    IsOpen CallEvent.request (callScript task.inflightBuffer) log
      (s.request task.inflightBuffer)
      [.finished i task task.len, .returned] := by
  obtain rfl := hposted.queue
  rcases h.wait_cases hposted.client with ⟨-, -, hcur, -⟩ | ⟨-, -, hlog⟩ |
    ⟨hdone, -⟩
  · exact absurd hcurrent hcur
  · exact hlog
  · exact absurd hdone hposted.inflight_pos.ne'

/-- A worker that takes or completes one task does not change whether another
is executed. -/
theorem System.current_iff_of_ne {pc : WorkerPc β}
    (hworkers : s'.workers = Function.update s.workers i pc)
    (hold : ∀ t, (s.workers i).current = some t → t = task)
    (hnew : ∀ t, pc.current = some t → t = task) {t : IoTask β}
    (ht : t ≠ task) (j : Fin 4) :
    (s'.workers j).current = some t ↔ (s.workers j).current = some t := by
  rw [hworkers]
  by_cases hj : j = i
  · subst hj
    rw [Function.update_self]
    exact ⟨fun heq => absurd (hnew t heq) ht,
      fun heq => absurd (hold t heq) ht⟩
  · rw [Function.update_of_ne hj]

/-- The progress of a client while another one moves. -/
theorem CallProgress.of_ne_client (h : CallProgress s c log) {d : Fin 16}
    (hc : c ≠ d) {pc : ClientPc β}
    (hclients : s'.clients = Function.update s.clients d pc)
    (hinflight : s'.inflight c = s.inflight c)
    (hrequest : s'.request c = s.request c) (hworkers : s'.workers = s.workers)
    (hpending : s'.pending = s.pending) : CallProgress s' c log :=
  h.congr (by rw [hclients, Function.update_of_ne hc]) hinflight hrequest
    (fun task _ hmem => hpending ▸ hmem) fun task _ => by rw [hworkers]

/-- The call of a client that returns has been completed. -/
theorem CallProgress.isOpen_of_return (h : CallProgress s c log)
    (hpc : s.clients c = .ssd task ∨
      s.clients c = .wait task ∧ s.inflight c ≤ 0) :
    IsOpen CallEvent.request (callScript c) log (s.request c)
      [.returned] := by
  rcases hpc with hpc | ⟨hpc, hdone⟩
  · exact h.isOpen_of_transfers (by rw [hpc]; exact .ssd _)
  · rcases h.wait_cases hpc with ⟨hwaits, -⟩ | ⟨hwaits, -⟩ | ⟨-, hlog⟩
    · omega
    · omega
    · exact hlog

/-- No worker executes a task that is still to be posted: it would find the
client of the task waiting. -/
theorem PostInv.not_current_of_posting (h : PostInv s)
    (hpc : s.clients c = .postNvm task ∨ s.clients c = .postSmall task) :
    (s.workers (smallQueue task)).current ≠ some task := by
  intro hcurrent
  obtain ⟨hserves, -, hposts⟩ := h.posting hpc
  have hclient := (h.posted (System.mem_pending_of_worker hcurrent)).client
  have howner := (hposts.task_fields c).2.2.2
  rw [← hserves.1] at howner
  rw [howner] at hclient
  rcases hpc with hpc | hpc
  · rw [hpc] at hclient
    cases hclient
  · rw [hpc] at hclient
    cases hclient

/-- The client that posts its task waits for a worker to take it. -/
theorem CallProgress.post (hprogress : CallProgress s c log) (h : PostInv s)
    (hpc : s.clients c = .postNvm task ∨ s.clients c = .postSmall task)
    (hclients : s'.clients = Function.update s.clients c (.wait task))
    (hinflight : s'.inflight = s.inflight) (hrequest : s'.request = s.request)
    (hworkers : s'.workers = s.workers)
    (hpending : task ∈ s'.pending (smallQueue task)) :
    CallProgress s' c (log ++ [.posted (smallQueue task) task]) := by
  obtain ⟨hserves, hcount, hposts⟩ := h.posting hpc
  have hlen := (hposts.task_fields c).2.1
  rw [← hserves.1] at hlen
  have hpos := hposts.len
  have hwait : s'.clients c = .wait task := by
    rw [hclients, Function.update_self]
  refine .queued hwait (by rw [hinflight]; omega) hpending ?_ ?_
  · rw [hworkers]
    exact h.not_current_of_posting hpc
  · rw [hrequest]
    exact (hprogress.isOpen_of_posting hpc).next

/-- The task of a waiting client is started when its worker takes it. -/
theorem CallProgress.take {pc : WorkerPc β}
    (hprogress : CallProgress s task.inflightBuffer log)
    (hposted : Posted s i task) (hready : s.workers i = .ready)
    (hcurrent : pc.current = some task) (hclients : s'.clients = s.clients)
    (hinflight : s'.inflight = s.inflight) (hrequest : s'.request = s.request)
    (hworkers : s'.workers = Function.update s.workers i pc) :
    CallProgress s' task.inflightBuffer (log ++ [.started i task]) := by
  have hwait : s'.clients task.inflightBuffer = .wait task := by
    rw [hclients]
    exact hposted.client
  have hlog := hprogress.isOpen_of_not_current hposted
    (by rw [hready]; simp [WorkerPc.current])
  refine .running hwait ?_ ?_ ?_
  · rw [hinflight]
    exact hposted.inflight_pos
  · rw [hposted.queue, hworkers, Function.update_self]
    exact hcurrent
  · rw [hrequest, hposted.queue]
    exact hlog.next

/-- The task of a waiting client is done when its worker has lowered the
counter. -/
theorem CallProgress.finish
    (hprogress : CallProgress s task.inflightBuffer log)
    (hposted : Posted s i task) (hcurrent : (s.workers i).current = some task)
    (hclients : s'.clients = s.clients)
    (hinflight : s'.inflight = Function.update s.inflight
      task.inflightBuffer (s.inflight task.inflightBuffer - task.len))
    (hrequest : s'.request = s.request) :
    CallProgress s' task.inflightBuffer
      (log ++ [.finished i task task.len]) := by
  have hwait : s'.clients task.inflightBuffer = .wait task := by
    rw [hclients]
    exact hposted.client
  refine .done hwait ?_ ?_
  · rw [hinflight, Function.update_self, hposted.inflight]
    omega
  · rw [hrequest]
    exact (hprogress.isOpen_of_current hposted hcurrent).next

/-- An event of one client leaves the logs of the others as they are. -/
theorem CallProgress.record {d : Fin 16} {e : CallEvent β}
    (hown : CallProgress s d (logs d ++ [e]))
    (hother : c ≠ d → CallProgress s c (logs c)) :
    CallProgress s c (record logs [(d, e)] c) := by
  rw [record_singleton]
  by_cases hc : c = d
  · subst hc
    rw [Function.update_self]
    exact hown
  · rw [Function.update_of_ne hc]
    exact hother hc

/-- Every step takes the log of every client further along its script. -/
theorem TaskMoves.progress (hmoves : TaskMoves s s' events) (h : PostInv s)
    (hprogress : ∀ c, CallProgress s c (logs c)) (c : Fin 16) :
    CallProgress s' c (record logs events c) := by
  cases hmoves with
  | @call d request hidle hposts hclients hinflight hrequest hworkers
      hpending =>
      refine .record ?_ fun hc => ?_
      · exact hposts.progress
          ((hprogress d).isComplete_of_idle (Or.inl hidle))
          (by rw [hclients, Function.update_self])
          (by rw [hrequest, Function.update_self])
      · exact (hprogress c).of_ne_client hc hclients
          (by rw [hinflight, Function.update_of_ne hc])
          (by rw [hrequest, Function.update_of_ne hc]) hworkers hpending
  | @post d task hpc hclients hinflight hrequest hworkers hpending
      hpending_ne =>
      refine .record ?_ fun hc => ?_
      · exact (hprogress d).post h hpc hclients hinflight hrequest hworkers
          (hpending.mem_iff.mpr List.mem_cons_self)
      · refine (hprogress c).congr (by rw [hclients, Function.update_of_ne hc])
          (by rw [hinflight]) (by rw [hrequest]) (fun t _ hmem => ?_)
          fun t _ => by rw [hworkers]
        by_cases hq : smallQueue t = smallQueue task
        · rw [hq] at hmem ⊢
          exact hpending.mem_iff.mpr (List.mem_cons_of_mem task hmem)
        · rw [hpending_ne _ hq]
          exact hmem
  | @transfer d pc hpc hpc' hserves hclients hinflight hrequest hworkers
      hpending =>
      rw [record_nil]
      by_cases hc : c = d
      · subst hc
        refine .transfers (by rwa [hclients, Function.update_self]) ?_
        rw [hrequest]
        exact (hprogress c).isOpen_of_transfers hpc
      · exact (hprogress c).of_ne_client hc hclients (by rw [hinflight])
          (by rw [hrequest]) hworkers hpending
  | @«return» d task hpc hclients hinflight hrequest hworkers hpending =>
      refine .record ?_ fun hc => ?_
      · have hopen := (hprogress d).isOpen_of_return hpc
        exact .idle (Or.inr ⟨task, by rw [hclients, Function.update_self]⟩)
          (hopen.next.isComplete (isScript_callScript d))
      · exact (hprogress c).of_ne_client hc hclients (by rw [hinflight])
          (by rw [hrequest]) hworkers hpending
  | @leave d task hpc hclients hinflight hrequest hworkers hpending =>
      rw [record_nil]
      by_cases hc : c = d
      · subst hc
        exact .idle (Or.inl (by rw [hclients, Function.update_self]))
          ((hprogress c).isComplete_of_idle (Or.inr ⟨task, hpc⟩))
      · exact (hprogress c).of_ne_client hc hclients (by rw [hinflight])
          (by rw [hrequest]) hworkers hpending
  | @work i pc hfits hcurrent hclients hinflight hrequest hworkers
      hpending =>
      rw [record_nil]
      refine (hprogress c).congr (by rw [hclients]) (by rw [hinflight])
        (by rw [hrequest]) (fun t _ hmem => hpending ▸ hmem) fun t _ => ?_
      rw [hworkers]
      by_cases hq : smallQueue t = i
      · rw [hq, Function.update_self, hcurrent]
      · rw [Function.update_of_ne hq]
  | @take i pc task hfits hready hcurrent htask hclients hinflight hrequest
      hworkers hpending =>
      refine .record ?_ fun hc => ?_
      · exact (hprogress _).take (h.posted htask) hready hcurrent hclients
          hinflight hrequest hworkers
      · refine (hprogress c).congr (by rw [hclients]) (by rw [hinflight])
          (by rw [hrequest]) (fun t _ hmem => (hpending _).mem_iff.mpr hmem)
          fun t ht => ?_
        have hne : t ≠ task := by
          rintro rfl
          exact hc (h.owner_of_wait ht).symm
        apply System.current_iff_of_ne hworkers ?_ ?_ hne
        · intro t' heq
          rw [hready] at heq
          cases heq
        · intro t' heq
          exact Option.some.inj (heq.symm.trans hcurrent)
  | @finish i task hpc hclients hinflight hrequest hworkers hpending
      hpending_ne =>
      have hcurrent : (s.workers i).current = some task := by rw [hpc]; rfl
      refine .record ?_ fun hc => ?_
      · exact (hprogress _).finish
          (h.posted (System.mem_pending_of_worker hcurrent)) hcurrent hclients
          hinflight hrequest
      · have hne : ∀ t, s.clients c = .wait t → t ≠ task := by
          rintro t ht rfl
          exact hc (h.owner_of_wait ht).symm
        refine (hprogress c).congr (by rw [hclients])
          (by rw [hinflight, Function.update_of_ne hc]) (by rw [hrequest])
          (fun t ht hmem => ?_) fun t ht => ?_
        · by_cases hq : smallQueue t = i
          · rw [hq] at hmem ⊢
            exact (List.mem_cons.mp (hpending.mem_iff.mp hmem)).resolve_left
              (hne t ht)
          · rw [hpending_ne _ hq]
            exact hmem
        · apply System.current_iff_of_ne hworkers ?_ ?_ (hne t ht)
          · intro t' heq
            exact Option.some.inj (heq.symm.trans hcurrent)
          · intro t' heq
            cases heq

/-! ## Counters -/

/-- The counters change by the logged events and by nothing else. -/
theorem TaskMoves.inflight_eq (hmoves : TaskMoves s s' events)
    (c : Fin 16) :
    s'.inflight c = ((events.filter fun e => e.1 = c).map Prod.snd).foldl
      CallEvent.count (s.inflight c) := by
  cases hmoves with
  | @call d request hidle hposts hclients hinflight =>
      rw [hinflight]
      by_cases hc : c = d
      · subst hc
        simp [CallEvent.count]
      · simp [hc, Ne.symm hc]
  | @post d task hpc hclients hinflight =>
      rw [hinflight]
      by_cases hc : d = c <;> simp [hc, CallEvent.count]
  | transfer hpc hpc' hserves hclients hinflight => rw [hinflight]; rfl
  | @«return» d task hpc hclients hinflight =>
      rw [hinflight]
      by_cases hc : d = c <;> simp [hc, CallEvent.count]
  | leave hpc hclients hinflight => rw [hinflight]; rfl
  | work hfits hcurrent hclients hinflight => rw [hinflight]; rfl
  | @take i pc task hfits hready hcurrent htask hclients hinflight =>
      rw [hinflight]
      by_cases hc : task.inflightBuffer = c <;> simp [hc, CallEvent.count]
  | @finish i task hpc hclients hinflight =>
      rw [hinflight]
      by_cases hc : c = task.inflightBuffer
      · subst hc
        simp [CallEvent.count]
      · simp [hc, Ne.symm hc]

theorem TaskMoves.inflight_nonneg (hmoves : TaskMoves s s' events)
    (h : PostInv s) (hnonneg : ∀ c, 0 ≤ s.inflight c) (c : Fin 16) :
    0 ≤ s'.inflight c := by
  cases hmoves with
  | @call d request hidle hposts hclients hinflight =>
      rw [hinflight]
      by_cases hc : c = d
      · rw [hc, Function.update_self]
        omega
      · rw [Function.update_of_ne hc]
        exact hnonneg c
  | post hpc hclients hinflight => exact hinflight ▸ hnonneg c
  | transfer hpc hpc' hserves hclients hinflight => exact hinflight ▸ hnonneg c
  | «return» hpc hclients hinflight => exact hinflight ▸ hnonneg c
  | leave hpc hclients hinflight => exact hinflight ▸ hnonneg c
  | work hfits hcurrent hclients hinflight => exact hinflight ▸ hnonneg c
  | take hfits hready hcurrent htask hclients hinflight =>
      exact hinflight ▸ hnonneg c
  | @finish i task hpc hclients hinflight =>
      have hposted := h.posted (System.mem_pending_of_finish hpc)
      rw [hinflight]
      by_cases hc : c = task.inflightBuffer
      · rw [hc, Function.update_self, hposted.inflight]
        omega
      · rw [Function.update_of_ne hc]
        exact hnonneg c

/-! ## Runs -/

section Runs

variable [BlockDevice σ β] {l l' : Logged T σ β}

theorem loggedStep_logInv {event : SystemEvent T β} (h : LogInv l)
    (hposts : event.Posts) (hstep : loggedStep l event = some l') :
    LogInv l' := by
  rw [loggedStep, Option.map_eq_some_iff] at hstep
  obtain ⟨s', hstep, rfl⟩ := hstep
  have hmoves := h.tasks.systemStep_moves hposts hstep
  constructor
  · exact hmoves.postInv h.tasks
  · exact hmoves.progress h.tasks h.progress
  · intro c
    dsimp only
    rw [hmoves.inflight_eq c, h.counter c, record, List.foldl_append]
  · exact hmoves.inflight_nonneg h.tasks h.nonneg

omit [BlockDevice σ β] in
theorem LogInv.exactlyOnce (h : LogInv l) : ExactlyOnce l where
  follows := fun c => (h.progress c).isPrefix
  complete := fun c hidle => (h.progress c).isComplete_of_idle (Or.inl hidle)
  counter := h.counter
  nonneg := h.nonneg
  waiting := by
    intro c task hpc
    have hserves := h.tasks.serves c
    rw [hpc] at hserves
    rcases (h.progress c).wait_cases hpc with ⟨hwaits, hpending, -⟩ |
      ⟨hwaits, hcurrent, -⟩ | ⟨hdone, -⟩
    · exact Or.inl ⟨hserves.2.2 hwaits, hpending⟩
    · exact Or.inl ⟨hserves.2.2 hwaits,
        System.mem_pending_of_worker hcurrent⟩
    · exact Or.inr hdone
  room := h.tasks.length_nvmQueue_le

theorem logInv_initial (store : Store σ β) (segmentIdx : Fin 4)
    (migrateBuf : Fin T → β) (dst : Fin 16 → ℕ → β)
    (request : Fin 16 → Request β) :
    LogInv (Logged.initial T store segmentIdx migrateBuf dst request) where
  tasks := postInv_initial store segmentIdx migrateBuf _ dst request
  progress := fun _ => .idle (Or.inl rfl) isComplete_nil
  counter := fun _ => rfl
  nonneg := fun _ => le_refl 0

/-- Whatever the clients call and however their steps and those of the workers
interleave, every task that somebody waits for is executed exactly once. -/
theorem exactlyOnce_allStates (store : Store σ β) (segmentIdx : Fin 4)
    (migrateBuf : Fin T → β) (dst : Fin 16 → ℕ → β)
    (request : Fin 16 → Request β) {events : List (SystemEvent T β)}
    (hposts : ∀ event ∈ events, event.Posts) :
    AllStates loggedStep ExactlyOnce
      (Logged.initial T store segmentIdx migrateBuf dst request) events := by
  have hsteps : AllSteps loggedStep
      (fun (_ : Logged T σ β) event => event.Posts ∧ True)
      (Logged.initial T store segmentIdx migrateBuf dst request) events :=
    AllSteps.and_of_forall_mem hposts (allSteps_true _ _)
  refine (allStates_of_allSteps (I := LogInv) ?_
    (logInv_initial store segmentIdx migrateBuf dst request) hsteps).mono
      fun l h => h.exactlyOnce
  intro l event l' h hevent hstep
  exact loggedStep_logInv h hevent.1 hstep

end Runs

/-- A buffered write, a write of two blocks with its left-over sub-tasks, and
a read from the NVM, all by client `0`. -/
theorem exactlyOnce_allStates_example :
    AllStates loggedStep ExactlyOnce
      (Logged.initial 8 (freshStore 32 (fun _ => false) zeroDevices) 0
        (fun _ => 0) (fun _ _ => 0) fun _ => ⟨false, fun _ => 0, 0, 0, 0⟩)
      ([.call 0 (writeRequest 0 1 5), .client 0] ++
        List.replicate 5 (.worker 0) ++
        [.client 0, .client 0, .call 0 (writeRequest 0 2 7), .client 0,
          .client 0, .client 0, .client 0, .client 0,
          .call 0 ⟨false, fun _ => 0, 3, 0, 0⟩, .client 0, .worker 0,
          .worker 0]) :=
  exactlyOnce_allStates _ _ _ _ _ (by decide)

end Uhs
