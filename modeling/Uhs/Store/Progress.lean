import Mathlib.Algebra.BigOperators.Intervals
import Mathlib.Data.Prod.Lex
import Uhs.Store.Service

/-!
# What is left of the calls

The work before the clients and the workers, that of the running migration,
and the polls of workers that look into the wrong queue.  Every turn of a
party does some of this work, but for the polls of a worker whose queues are
both empty.
-/

namespace Uhs

open Support

variable {T : ℕ} {σ β : Type*} {s s' : System T σ β} {i : Fin 4} {c : Fin 16}
  {task : IoTask β}

/-! ## The work before clients and workers -/

/-- The steps of a worker for a task in a queue, and one for its dequeueing. -/
def IoTask.work (task : IoTask β) : ℕ := task.len + 7

def WorkerPc.work : WorkerPc β → ℕ
  | .ready => 0
  | .nvmRead task n => task.len - n + 2
  | .nvmWrite task n => task.len - n + 2
  | .start _ => 6
  | .lock _ => 5
  | .migrating _ => 4
  | .data _ _ => 3
  | .record _ _ => 2
  | .finish _ _ => 1

/-- The steps of a client, with those for the tasks that it will post. -/
def ClientPc.work : ClientPc β → ℕ
  | .idle => 0
  | .postNvm task => task.work + 3
  | .postSmall task => task.work + 3
  | .postSub task n =>
      ∑ k ∈ Finset.Ico n bufferQueueNum, ((subTask task k).2.work + 1) + 3
  | .ssd _ => 2
  | .wait _ => 2
  | .returned _ => 1

theorem ClientPc.work_postSub (task : IoTask β) {n : ℕ}
    (hn : n < bufferQueueNum) :
    (ClientPc.postSub task n).work =
      (subTask task n).2.work + 1 + (ClientPc.postSub task (n + 1)).work := by
  simp only [ClientPc.work]
  rw [Finset.sum_eq_sum_Ico_succ_bot hn]
  omega

def queueWork (queue : Fin 4 → List (IoTask β)) : ℕ :=
  ∑ i, ((queue i).map IoTask.work).sum

theorem queueWork_append (queue : Fin 4 → List (IoTask β)) (i : Fin 4)
    (task : IoTask β) :
    queueWork (Function.update queue i (queue i ++ [task])) =
      queueWork queue + task.work := by
  have hsum := sum_update queue (fun l => (l.map IoTask.work).sum) i
    (queue i ++ [task])
  simp only [List.map_append, List.sum_append, List.map_cons, List.map_nil,
    List.sum_cons, List.sum_nil] at hsum
  rw [queueWork, queueWork]
  omega

theorem queueWork_tail (queue : Fin 4 → List (IoTask β)) {i : Fin 4}
    {task : IoTask β} {rest : List (IoTask β)}
    (hqueue : queue i = task :: rest) :
    queueWork (Function.update queue i rest) + task.work =
      queueWork queue := by
  have hsum := sum_update queue (fun l => (l.map IoTask.work).sum) i rest
  simp only [hqueue, List.map_cons, List.sum_cons] at hsum
  rw [queueWork, queueWork]
  omega

namespace System

/-- The work before clients and workers. -/
def tasksWork (s : System T σ β) : ℕ :=
  ∑ c, (s.clients c).work + ∑ i, (s.workers i).work +
    queueWork s.nvmQueue + queueWork s.bufferQueue

/-- Worker `i` is about to look into an empty queue while the other one is
not empty. -/
def offTurn (s : System T σ β) (i : Fin 4) : ℕ :=
  if (s.polled i).isNone ∧ ¬ (s.nvmQueue i = [] ∧ s.bufferQueue i = []) then 1
  else 0

/-- What is left to do: first the tasks, then the migration and the polls. -/
def rank (s : System T σ β) : ℕ ×ₗ ℕ :=
  toLex (s.tasksWork, s.machine.work + ∑ i, s.offTurn i)

theorem rank_lt_of_tasks (h : s'.tasksWork < s.tasksWork) :
    s'.rank < s.rank :=
  Prod.Lex.toLex_lt_toLex.mpr (Or.inl h)

theorem rank_lt_of_machine (htasks : s'.tasksWork = s.tasksWork)
    (h : s'.machine.work + ∑ i, s'.offTurn i <
      s.machine.work + ∑ i, s.offTurn i) : s'.rank < s.rank :=
  Prod.Lex.toLex_lt_toLex.mpr (Or.inr ⟨htasks, h⟩)

theorem sum_clients_update {pc : ClientPc β}
    (hclients : s'.clients = Function.update s.clients c pc) :
    ∑ d, (s'.clients d).work + (s.clients c).work =
      ∑ d, (s.clients d).work + pc.work := by
  rw [hclients]
  exact sum_update s.clients ClientPc.work c pc

theorem sum_workers_update {pc : WorkerPc β}
    (hworkers : s'.workers = Function.update s.workers i pc) :
    ∑ j, (s'.workers j).work + (s.workers i).work =
      ∑ j, (s.workers j).work + pc.work := by
  rw [hworkers]
  exact sum_update s.workers WorkerPc.work i pc

/-- A client moves and hands over at most the work that it gives up. -/
theorem tasksWork_client {pc : ClientPc β}
    (hclients : s'.clients = Function.update s.clients c pc)
    (hworkers : s'.workers = s.workers)
    (hless : pc.work + queueWork s'.nvmQueue + queueWork s'.bufferQueue <
      (s.clients c).work + queueWork s.nvmQueue +
        queueWork s.bufferQueue) : s'.tasksWork < s.tasksWork := by
  have hsum := sum_clients_update hclients
  rw [tasksWork, tasksWork, hworkers]
  omega

theorem tasksWork_worker {pc : WorkerPc β}
    (hclients : s'.clients = s.clients)
    (hworkers : s'.workers = Function.update s.workers i pc)
    (hless : pc.work + queueWork s'.nvmQueue + queueWork s'.bufferQueue <
      (s.workers i).work + queueWork s.nvmQueue +
        queueWork s.bufferQueue) : s'.tasksWork < s.tasksWork := by
  have hsum := sum_workers_update hworkers
  rw [tasksWork, tasksWork, hclients]
  omega

end System

/-! ## Turns of the clients -/

section Clients

variable [BlockDevice σ β]

theorem clientStep_work (hstep : clientStep s c = some s') :
    s'.tasksWork < s.tasksWork := by
  unfold clientStep at hstep
  cases hpc : s.clients c with
  | idle => simp [hpc] at hstep
  | postNvm task =>
      simp only [hpc, Option.some.injEq] at hstep
      subst hstep
      refine System.tasksWork_client (c := c) rfl rfl ?_
      rw [hpc]
      rcases mixEnqueue_cases (s.nvmQueue (smallQueue task)) task with h | h
      · have happend := queueWork_append s.nvmQueue (smallQueue task) task
        simp only [h, ClientPc.work, System.setClient, System.setNvmQueue]
        omega
      · simp [h, ClientPc.work, System.setClient, System.setNvmQueue]
  | postSmall task =>
      simp only [hpc] at hstep
      rcases mixEnqueue_cases (s.bufferQueue (smallQueue task)) task with h | h
      · rw [h] at hstep
        cases hstep
        refine System.tasksWork_client (c := c) rfl rfl ?_
        have happend := queueWork_append s.bufferQueue (smallQueue task) task
        rw [hpc]
        simp only [ClientPc.work, System.setClient, System.setBufferQueue]
        omega
      · rw [h] at hstep
        cases hstep
  | postSub task n =>
      simp only [hpc] at hstep
      have hdone : (ClientPc.ssd task).work < (ClientPc.postSub task n).work := by
        simp only [ClientPc.work]
        omega
      split at hstep
      · rename_i hn
        have hsub := ClientPc.work_postSub task hn
        split at hstep
        · cases hstep
          refine System.tasksWork_client (c := c) rfl rfl ?_
          rw [hpc]
          simp only [System.setClient]
          omega
        · rcases mixEnqueue_cases (s.bufferQueue (subTask task n).1)
            (subTask task n).2 with h | h
          · rw [h] at hstep
            cases hstep
            refine System.tasksWork_client (c := c) rfl rfl ?_
            have happend := queueWork_append s.bufferQueue
              (subTask task n).1 (subTask task n).2
            rw [hpc, hsub]
            simp only [System.setClient, System.setBufferQueue]
            omega
          · rw [h] at hstep
            cases hstep
      · cases hstep
        refine System.tasksWork_client (c := c) rfl rfl ?_
        rw [hpc]
        simp only [System.setClient]
        omega
  | ssd task =>
      simp only [hpc] at hstep
      split at hstep
      · cases hstep
      · cases hstep
        obtain ⟨hclients, -, -, hworkers, hnvm, hbuffer, -⟩ :=
          ssdTransfer_fields s c task
        refine System.tasksWork_client (c := c)
          (by rw [System.setClient, hclients]) hworkers ?_
        rw [hpc]
        simp only [System.setClient, hnvm, hbuffer, ClientPc.work]
        omega
  | wait task =>
      simp only [hpc] at hstep
      split at hstep
      · cases hstep
      · cases hstep
        refine System.tasksWork_client (c := c) rfl rfl ?_
        rw [hpc]
        simp [System.setClient, ClientPc.work]
  | returned task =>
      simp only [hpc, Option.some.injEq] at hstep
      subst hstep
      refine System.tasksWork_client (c := c) rfl rfl ?_
      rw [hpc]
      simp [System.setClient, ClientPc.work]

end Clients

/-! ## Turns of the workers -/

/-- Worker `i` has looked into one of its queues and found nothing. -/
def System.pollNext (s : System T σ β) (i : Fin 4) : System T σ β :=
  { s with seq := Function.update s.seq i ((s.seq i + 1) % 2 ^ 8) }

/-- The worker goes on with less work than the task had in its queue. -/
theorem dispatch_work (s : System T σ β) (i : Fin 4) (task : IoTask β)
    (hready : s.workers i = .ready) : ∃ pc : WorkerPc β,
    (dispatch s i task).workers = Function.update s.workers i pc ∧
      pc.work < task.work := by
  have hsame : s.workers = Function.update s.workers i .ready :=
    hready ▸ (Function.update_eq_self i s.workers).symm
  unfold dispatch
  split
  · exact ⟨.nvmRead task 0, rfl, by simp [WorkerPc.work, IoTask.work]⟩
  · exact ⟨.nvmWrite task 0, rfl, by simp [WorkerPc.work, IoTask.work]⟩
  · exact ⟨.ready, hsame, by simp [WorkerPc.work, IoTask.work]⟩
  · exact ⟨.ready, hsame, by simp [WorkerPc.work, IoTask.work]⟩
  · exact ⟨.start task, rfl, by simp only [WorkerPc.work, IoTask.work]; omega⟩
  · exact ⟨.ready, hsame, by simp [WorkerPc.work, IoTask.work]⟩

/-- A poll takes a task, or finds nothing and turns to the other queue. -/
theorem workerPoll_work (hready : s.workers i = .ready) :
    (workerPoll s i).tasksWork < s.tasksWork ∨
      s.polled i = none ∧ workerPoll s i = s.pollNext i := by
  -- a task is taken out of a queue
  have htake : ∀ {r : System T σ β} {task : IoTask β},
      r.clients = s.clients → r.workers = s.workers →
      queueWork r.nvmQueue + queueWork r.bufferQueue + task.work =
        queueWork s.nvmQueue + queueWork s.bufferQueue →
      (dispatch r i task).tasksWork < s.tasksWork := by
    intro r task hclients hworkers hqueues
    obtain ⟨pc, hpc, hless⟩ :=
      dispatch_work r i task (by rw [hworkers, hready])
    obtain ⟨hclients', hnvm, hbuffer, -⟩ := dispatch_fields r i task
    refine System.tasksWork_worker (hclients'.trans hclients)
      (hworkers ▸ hpc) ?_
    rw [hnvm, hbuffer, hready]
    omega
  unfold workerPoll System.polled
  by_cases hseq : s.seq i % 2 = 1
  · simp only [hseq, if_true]
    cases hqueue : s.nvmQueue i with
    | nil => exact Or.inr ⟨rfl, rfl⟩
    | cons task rest =>
        refine Or.inl (htake rfl rfl ?_)
        have htail := queueWork_tail s.nvmQueue hqueue
        simp only [System.setNvmQueue]
        omega
  · simp only [hseq, if_false]
    cases hqueue : s.bufferQueue i with
    | nil => exact Or.inr ⟨rfl, rfl⟩
    | cons task rest =>
        refine Or.inl (htake rfl rfl ?_)
        have htail := queueWork_tail s.bufferQueue hqueue
        simp only [System.setBufferQueue]
        omega

theorem redirectStep_work {m m' : Machine T σ β} {pc pc' : WorkerPc β}
    (hstep : redirectStep i m pc = some (m', pc')) : pc'.work < pc.work := by
  cases redirectStep_moves hstep with
  | start hdev hpc =>
      rcases hpc with rfl | ⟨slot, rfl⟩ <;> simp [WorkerPc.work]
  | call | release | resume | data | record => simp [WorkerPc.work]

/-- A worker that is not ready goes on with its task. -/
theorem workerStep_work (hready : s.workers i ≠ .ready)
    (hstep : workerStep s i = some s') : s'.tasksWork < s.tasksWork := by
  have hkeep : ∀ {s' : System T σ β} {pc : WorkerPc β},
      s'.clients = s.clients →
      s'.workers = Function.update s.workers i pc →
      s'.nvmQueue = s.nvmQueue → s'.bufferQueue = s.bufferQueue →
      pc.work < (s.workers i).work → s'.tasksWork < s.tasksWork := by
    intro s' pc hclients hworkers hnvm hbuffer hless
    refine System.tasksWork_worker hclients hworkers ?_
    rw [hnvm, hbuffer]
    omega
  cases workerStep_moves hstep with
  | poll hpc | takeNvm hpc | takeBuffer hpc => exact absurd hpc hready
  | nvmRead hpc hn | nvmWrite hpc hn =>
      refine hkeep rfl rfl rfl rfl ?_
      rw [hpc]
      simp only [WorkerPc.work]
      omega
  | nvmReadEnd hpc hn | nvmWriteEnd hpc hn =>
      refine hkeep rfl rfl rfl rfl ?_
      rw [hpc]
      simp only [WorkerPc.work]
      omega
  | finish hpc =>
      refine hkeep rfl rfl rfl rfl ?_
      rw [hpc]
      simp [WorkerPc.work]
  | redirect hredirect =>
      exact hkeep rfl rfl rfl rfl (redirectStep_work hredirect)

/-! ## Polls -/

/-- The queue that is looked into next is the other one. -/
theorem System.polled_pollNext (s : System T σ β) (i : Fin 4) :
    (s.pollNext i).polled i =
      if s.seq i % 2 = 1 then (s.bufferQueue i).head?
      else (s.nvmQueue i).head? := by
  simp only [System.polled, System.pollNext, Function.update_self]
  by_cases hseq : s.seq i % 2 = 1
  · have hnext : ¬ (s.seq i + 1) % 2 ^ 8 % 2 = 1 := by omega
    rw [if_neg hnext, if_pos hseq]
  · have hnext : (s.seq i + 1) % 2 ^ 8 % 2 = 1 := by omega
    rw [if_pos hnext, if_neg hseq]

/-- A poll that finds nothing does not happen twice while there is a task. -/
theorem System.sum_offTurn_poll (hpolled : s.polled i = none) :
    ∑ j, (s.pollNext i).offTurn j + s.offTurn i = ∑ j, s.offTurn j := by
  have hself : (s.pollNext i).offTurn i = 0 := by
    have hnext := s.polled_pollNext i
    unfold System.polled at hpolled
    rw [System.offTurn, if_neg]
    rintro ⟨hnone, hsome⟩
    refine hsome ?_
    change s.nvmQueue i = [] ∧ s.bufferQueue i = []
    rw [hnext] at hnone
    by_cases hseq : s.seq i % 2 = 1
    · rw [if_pos hseq, Option.isNone_iff_eq_none,
        List.head?_eq_none_iff] at hnone
      rw [if_pos hseq, List.head?_eq_none_iff] at hpolled
      exact ⟨hpolled, hnone⟩
    · rw [if_neg hseq, Option.isNone_iff_eq_none,
        List.head?_eq_none_iff] at hnone
      rw [if_neg hseq, List.head?_eq_none_iff] at hpolled
      exact ⟨hnone, hpolled⟩
  have hupdate : (s.pollNext i).offTurn = Function.update s.offTurn i 0 := by
    funext j
    by_cases hj : j = i
    · subst hj
      rw [hself, Function.update_self]
    · have hpolled' : (s.pollNext i).polled j = s.polled j := by
        simp only [System.polled, System.pollNext, Function.update_of_ne hj]
      rw [Function.update_of_ne hj, System.offTurn, System.offTurn, hpolled']
      rfl
  have hsum := sum_update s.offTurn id i 0
  rw [hupdate]
  simpa using hsum

/-! ## Turns -/

/-- A turn of one of the parties: neither a new call nor a migration that is
called on its own. -/
def SystemEvent.IsTurn : SystemEvent T β → Prop
  | .call _ _ => False
  | .migrate _ => False
  | _ => True

/-- The turn is a poll of a worker that has nothing to do. -/
def System.PollsInVain (s : System T σ β) : SystemEvent T β → Prop
  | .worker i => s.workers i = .ready ∧ s.nvmQueue i = [] ∧
      s.bufferQueue i = []
  | _ => False

theorem System.polled_eq_none (hnvm : s.nvmQueue i = [])
    (hbuffer : s.bufferQueue i = []) : s.polled i = none := by
  rw [System.polled, hnvm, hbuffer]
  exact ite_self _

theorem System.offTurn_eq_zero (hnvm : s.nvmQueue i = [])
    (hbuffer : s.bufferQueue i = []) : s.offTurn i = 0 :=
  if_neg fun h => h.2 ⟨hnvm, hbuffer⟩

/-- A poll in vain only turns to the other queue. -/
theorem workerStep_vain (h : s.PollsInVain (.worker i))
    (hstep : workerStep s i = some s') : s' = s.pollNext i := by
  obtain ⟨hready, hnvm, hbuffer⟩ := h
  simp only [workerStep, hready, Option.some.injEq] at hstep
  subst hstep
  simp only [workerPoll, hnvm, hbuffer]
  exact ite_self _

variable [BlockDevice σ β]

theorem systemStep_rank_eq {event : SystemEvent T β}
    (hvain : s.PollsInVain event) (hstep : systemStep s event = some s') :
    s'.rank = s.rank := by
  cases event with
  | call _ _ | client _ | migrate _ | coord | thread _ => exact hvain.elim
  | worker i =>
      have hpoll := workerStep_vain hvain hstep
      obtain ⟨hready, hnvm, hbuffer⟩ := hvain
      have hsum := System.sum_offTurn_poll
        (System.polled_eq_none hnvm hbuffer)
      rw [System.offTurn_eq_zero hnvm hbuffer, Nat.add_zero] at hsum
      subst hpoll
      rw [System.rank, hsum]
      rfl

/-- Every other turn does some of the work. -/
theorem systemStep_rank_lt {event : SystemEvent T β} (h : ServiceInv s)
    (hturn : event.IsTurn) (hvain : ¬ s.PollsInVain event)
    (hstep : systemStep s event = some s') : s'.rank < s.rank := by
  cases event with
  | call _ _ | migrate _ => exact hturn.elim
  | client c => exact System.rank_lt_of_tasks (clientStep_work hstep)
  | worker i =>
      by_cases hready : s.workers i = .ready
      · have hpoll : workerPoll s i = s' := by
          simpa [systemStep, workerStep, hready] using hstep
        rcases workerPoll_work hready with hless | ⟨hpolled, heq⟩
        · exact System.rank_lt_of_tasks (hpoll ▸ hless)
        · have hsum := System.sum_offTurn_poll hpolled
          have hoff : s.offTurn i = 1 := by
            refine if_pos ⟨by rw [hpolled]; rfl, fun hnil => ?_⟩
            exact hvain ⟨hready, hnil.1, hnil.2⟩
          rw [← heq, hpoll, hoff] at hsum
          refine System.rank_lt_of_machine ?_ ?_
          · rw [← hpoll, heq]
            rfl
          · have hmachine : s'.machine = s.machine := by
              rw [← hpoll, heq]
              rfl
            rw [hmachine]
            omega
      · exact System.rank_lt_of_tasks (workerStep_work hready hstep)
  | coord =>
      simp only [systemStep, Option.map_eq_some_iff] at hstep
      obtain ⟨m, hm, rfl⟩ := hstep
      exact System.rank_lt_of_machine rfl (Nat.add_lt_add_right
        (coordStep_work (coordAdvance_eq_some hm).2) _)
  | thread t =>
      simp only [systemStep, Option.map_eq_some_iff] at hstep
      obtain ⟨m, hm, rfl⟩ := hstep
      exact System.rank_lt_of_machine rfl (Nat.add_lt_add_right
        (threadStep_work (fun _ _ hpc => h.machine.tables.pop_lt hpc) hm) _)

end Uhs
