import Uhs.Store.Steps
import Uhs.Support.Tickets
import Mathlib.Data.Fintype.Card

/-!
# Tasks in the store

What a client is doing belongs to its last request, and every task that
stands in a queue or that a worker executes is the one its client waits for.
The sub-tasks of a large write, which the workers skip, belong to nobody.
-/

namespace Uhs

open Support

variable {T : ℕ} {σ β : Type*}

/-! ## Requests -/

/-- The flags leave the operation bits alone, and a request that is sent to
the NVM lies in it. -/
structure Request.Posts (request : Request β) : Prop where
  flags : request.flags &&& (mixRead ||| mixWrite ||| mixClear) = 0
  len : 0 < request.len
  range : request.offset + request.len < nvmThreshold ∨
    nvmThreshold ≤ (request.offset + request.len) % 2 ^ 64

instance (request : Request β) : Decidable request.Posts :=
  decidable_of_iff
    (request.flags &&& (mixRead ||| mixWrite ||| mixClear) = 0 ∧
      0 < request.len ∧
      (request.offset + request.len < nvmThreshold ∨
        nvmThreshold ≤ (request.offset + request.len) % 2 ^ 64))
    ⟨fun h => ⟨h.1, h.2.1, h.2.2⟩, fun h => ⟨h.flags, h.len, h.range⟩⟩

variable {request : Request β} {c : Fin 16} {task : IoTask β}

/-- The opcode of a request without flags. -/
def Request.opcode (request : Request β) : ℕ :=
  if request.isWrite then mixWrite else mixRead

theorem Request.opcode_land (request : Request β) :
    request.opcode &&& (mixRead ||| mixWrite) = request.opcode := by
  unfold Request.opcode
  cases request.isWrite <;> rfl

theorem Request.opcode_land_clear (request : Request β) :
    request.opcode &&& (mixRead ||| mixWrite ||| mixClear) =
      request.opcode := by
  unfold Request.opcode
  cases request.isWrite <;> rfl

/-- The workers see the operation of the request. -/
theorem Request.Posts.lor_opcode_land (h : request.Posts) :
    (request.flags ||| request.opcode) &&&
        (mixRead ||| mixWrite ||| mixClear) = request.opcode := by
  rw [Nat.and_or_distrib_right, h.flags, Nat.zero_or]
  exact request.opcode_land_clear

/-- The posting functions see the operation of the request. -/
theorem Request.Posts.lor_opcode_postedOp (h : request.Posts) :
    (request.flags ||| request.opcode) &&& (mixRead ||| mixWrite) =
      request.opcode := by
  have hmask : mixRead ||| mixWrite =
      (mixRead ||| mixWrite ||| mixClear) &&& (mixRead ||| mixWrite) := rfl
  rw [hmask, ← Nat.and_assoc, h.lor_opcode_land]
  exact request.opcode_land

/-- A request of the NVM range is posted as an NVM task. -/
theorem Request.task_type_nvm
    (hnvm : request.offset + request.len < nvmThreshold) (c : Fin 16) :
    (request.task c).type = .nvm := by
  have hthreshold : nvmThreshold = 1928765 := rfl
  have hroute : (request.offset + request.len) % 2 ^ 64 < nvmThreshold := by
    omega
  rw [Request.task, mixPostTaskToIo]
  exact congrArg IoTask.type (if_pos hroute)

/-- What `mixdk_write` and `mixdk_read` post. -/
theorem Request.Posts.task_cases (h : request.Posts) (c : Fin 16) :
    request.offset + request.len < nvmThreshold ∧
        request.task c = ⟨request.buf, request.len, request.offset,
          request.flags ||| request.opcode, .nvm, c⟩ ∨
      request.task c = ⟨request.buf, request.len,
        toSizeT ((request.offset : ℤ) - nvmThreshold),
        request.flags ||| request.opcode, .ssd, c⟩ := by
  have hthreshold : nvmThreshold = 1928765 := rfl
  rw [Request.task]
  rcases h.range with hnvm | hssd
  · have hroute : (request.offset + request.len) % 2 ^ 64 < nvmThreshold := by
      omega
    exact Or.inl ⟨hnvm, if_pos hroute⟩
  · have hroute : ¬ (request.offset + request.len) % 2 ^ 64 <
        nvmThreshold := by
      omega
    exact Or.inr (if_neg hroute)

/-- A task keeps the data, the length and the slot of its request. -/
theorem Request.Posts.task_fields (h : request.Posts) (c : Fin 16) :
    (request.task c).buf = request.buf ∧
      (request.task c).len = request.len ∧
      (request.task c).opcode = request.flags ||| request.opcode ∧
      (request.task c).inflightBuffer = c := by
  rcases h.task_cases c with ⟨-, htask⟩ | htask
  · rw [htask]
    exact ⟨rfl, rfl, rfl, rfl⟩
  · rw [htask]
    exact ⟨rfl, rfl, rfl, rfl⟩

/-- The task of a large write carries the clear bit as well. -/
def IoTask.withClear (task : IoTask β) : IoTask β :=
  { task with opcode := task.opcode ||| mixClear }

/-- The client works on `request`, and its counter is that of the task. -/
def ClientPc.Serves (request : Request β) (c : Fin 16) (inflight : ℤ) :
    ClientPc β → Prop
  | .idle => True
  | .postNvm task => task = request.task c ∧ task.type = .nvm ∧
      inflight = task.len
  | .postSmall task => task = request.task c ∧ task.type = .ssd ∧
      request.isWrite = true ∧ request.len = 1 ∧ inflight = task.len
  | .postSub task _ => task = (request.task c).withClear ∧
      task.type = .ssd ∧ request.isWrite = true ∧ 1 < request.len
  | .ssd task => task.type = .ssd ∧
      (request.isWrite = true ∧ 1 < request.len ∧
          task = (request.task c).withClear ∨
        request.isWrite = false ∧ task = request.task c)
  | .wait task => task = request.task c ∧
      (task.type = .nvm ∨ task.type = .ssd ∧ request.isWrite = true ∧
        request.len = 1) ∧ (0 < inflight → inflight = task.len)
  | .returned _ => True

/-- The four ways on which a request is posted. -/
theorem Request.Posts.post_cases (h : request.Posts) (c : Fin 16) :
    (request.task c).type = .nvm ∧
        ClientPc.post (request.task c) = .postNvm (request.task c) ∨
      (request.task c).type = .ssd ∧
        (request.isWrite = true ∧ request.len = 1 ∧
            ClientPc.post (request.task c) = .postSmall (request.task c) ∨
          request.isWrite = true ∧ 1 < request.len ∧
            ClientPc.post (request.task c) =
              .postSub (request.task c).withClear 0 ∨
          request.isWrite = false ∧
            ClientPc.post (request.task c) = .ssd (request.task c)) := by
  have hlen := h.len
  obtain ⟨-, htaskLen, hopcode, -⟩ := h.task_fields c
  cases htype : (request.task c).type with
  | nvm =>
      refine Or.inl ⟨rfl, ?_⟩
      rw [ClientPc.post, htype]
  | ssd =>
      have hpost : ClientPc.post (request.task c) =
          mixPostTaskToData (request.task c) := by
        rw [ClientPc.post, htype]
      have hop : (request.task c).postedOp = request.opcode := by
        rw [IoTask.postedOp, hopcode]
        exact h.lor_opcode_postedOp
      have hsmall : smallThreshold = 1 := rfl
      refine Or.inr ⟨rfl, ?_⟩
      rw [hpost, mixPostTaskToData, hop]
      cases hwrite : request.isWrite with
      | true =>
          have hopWrite : request.opcode = mixWrite := by
            rw [Request.opcode, if_pos hwrite]
          by_cases hone : (request.task c).len ≤ smallThreshold
          · rw [if_pos ⟨hopWrite, hone⟩]
            exact Or.inl ⟨rfl, by omega, rfl⟩
          · rw [if_neg (fun h => hone h.2), if_pos ⟨hopWrite, by omega⟩]
            exact Or.inr (Or.inl ⟨rfl, by omega, rfl⟩)
      | false =>
          have hopRead : request.opcode = mixRead := by
            rw [Request.opcode, if_neg (by simp [hwrite])]
          have hne : ¬ request.opcode = mixWrite := by
            rw [hopRead]
            decide
          rw [if_neg (fun h => hne h.1), if_neg (fun h => hne h.1),
            if_pos hopRead]
          exact Or.inr (Or.inr ⟨rfl, rfl⟩)

theorem Request.Posts.serves_post (h : request.Posts) (c : Fin 16) :
    (ClientPc.post (request.task c)).Serves request c request.len := by
  obtain ⟨-, htaskLen, -, -⟩ := h.task_fields c
  rcases h.post_cases c with ⟨htype, hpost⟩ | ⟨htype, hcases⟩
  · rw [hpost]
    exact ⟨rfl, htype, by rw [htaskLen]⟩
  · rcases hcases with ⟨hwrite, hone, hpost⟩ | ⟨hwrite, hlarge, hpost⟩ |
      ⟨hread, hpost⟩
    · rw [hpost]
      exact ⟨rfl, htype, hwrite, hone, by rw [htaskLen]⟩
    · rw [hpost]
      exact ⟨rfl, htype, hwrite, hlarge⟩
    · rw [hpost]
      exact ⟨htype, Or.inr ⟨hread, rfl⟩⟩

/-- The branch of a task that a client waits for. -/
theorem Request.Posts.branch (h : request.Posts) (c : Fin 16)
    (hkind : (request.task c).type = .nvm ∨
      (request.task c).type = .ssd ∧ request.isWrite = true) :
    workerBranch (request.task c) =
      match (request.task c).type, request.isWrite with
      | .nvm, true => .nvmWrite
      | .nvm, false => .nvmRead
      | .ssd, _ => .redirectWrite := by
  obtain ⟨-, -, hopcode, -⟩ := h.task_fields c
  have hop := h.lor_opcode_land
  rw [← hopcode] at hop
  rcases hkind with hkind | ⟨hkind, hwrite⟩
  · rw [workerBranch, hkind, hop, Request.opcode]
    cases request.isWrite <;> simp [mixRead, mixWrite]
  · rw [workerBranch, hkind, hop, Request.opcode, hwrite]
    simp [mixRead, mixWrite, mixClear]

theorem Request.Posts.withClear_branch (h : request.Posts)
    (hwrite : request.isWrite = true)
    (htype : (request.task c).type = .ssd) (n : ℕ) :
    workerBranch (subTask (request.task c).withClear n).2 = .skip := by
  obtain ⟨-, -, hopcode, -⟩ := h.task_fields c
  refine (workerBranch_subTask _ n).trans (workerBranch_clear ?_ htype)
  rw [IoTask.postedOp, hopcode, h.lor_opcode_postedOp, Request.opcode,
    if_pos hwrite]

/-! ## Tasks under way -/

/-- The task that the worker executes. -/
def WorkerPc.current : WorkerPc β → Option (IoTask β)
  | .ready => none
  | .nvmRead task _ => some task
  | .nvmWrite task _ => some task
  | .start task => some task
  | .lock task => task
  | .migrating task => task
  | .data task _ => some task
  | .record task _ => some task
  | .finish task _ => some task

/-- The worker is in the branch of its task. -/
def WorkerPc.Fits : WorkerPc β → Prop
  | .ready => True
  | .nvmRead task n => workerBranch task = .nvmRead ∧ n ≤ task.len
  | .nvmWrite task n => workerBranch task = .nvmWrite ∧ n ≤ task.len
  | .start task => workerBranch task = .redirectWrite
  | .lock task => ∀ t, task = some t → workerBranch t = .redirectWrite
  | .migrating task => ∀ t, task = some t → workerBranch t = .redirectWrite
  | .data task _ => workerBranch task = .redirectWrite
  | .record task _ => workerBranch task = .redirectWrite
  | .finish task ret => ret = toInt32 task.len

namespace System

/-- The task that client `c` waits for. -/
def awaits (s : System T σ β) (c : Fin 16) : Option (IoTask β) :=
  match s.clients c with
  | .wait task => if 0 < s.inflight c then some task else none
  | _ => none

/-- The tasks of worker `i` that somebody waits for. -/
def pending (s : System T σ β) (i : Fin 4) : List (IoTask β) :=
  (s.workers i).current.toList ++ s.nvmQueue i ++
    (s.bufferQueue i).filter fun task => workerBranch task ≠ .skip

end System

/-- The invariant of the tasks. -/
structure PostInv (s : System T σ β) : Prop where
  posts : ∀ c, s.clients c ≠ .idle → (s.request c).Posts
  serves : ∀ c, (s.clients c).Serves (s.request c) c (s.inflight c)
  fits : ∀ i, (s.workers i).Fits
  tickets : Tickets IoTask.inflightBuffer smallQueue s.awaits s.pending

/-- What is known of a task under way. -/
structure Posted (s : System T σ β) (i : Fin 4) (task : IoTask β) :
    Prop where
  client : s.clients task.inflightBuffer = .wait task
  inflight : s.inflight task.inflightBuffer = task.len
  posts : (s.request task.inflightBuffer).Posts
  task_eq : task =
    (s.request task.inflightBuffer).task task.inflightBuffer
  queue : smallQueue task = i
  kind : task.type = .nvm ∨
    task.type = .ssd ∧ (s.request task.inflightBuffer).isWrite = true ∧
      (s.request task.inflightBuffer).len = 1

variable {s s' : System T σ β} {i : Fin 4}

theorem System.awaits_eq_some (h : s.awaits c = some task) :
    s.clients c = .wait task ∧ 0 < s.inflight c := by
  unfold System.awaits at h
  split at h
  · rename_i hpc
    split at h
    · rename_i hinflight
      cases h
      exact ⟨hpc, hinflight⟩
    · cases h
  · cases h

/-- A client does not wait for a task before it has posted one, nor after the
task has been completed. -/
theorem System.awaits_eq_none
    (h : ∀ task, s.clients c = .wait task → s.inflight c ≤ 0) :
    s.awaits c = none := by
  rw [Option.eq_none_iff_forall_ne_some]
  intro task hsome
  obtain ⟨hclient, hinflight⟩ := System.awaits_eq_some hsome
  have := h task hclient
  omega

theorem System.awaits_congr (hclient : s'.clients c = s.clients c)
    (hinflight : s'.inflight c = s.inflight c) :
    s'.awaits c = s.awaits c := by
  simp only [System.awaits, hclient, hinflight]

theorem System.mem_pending_of_worker (h : (s.workers i).current = some task) :
    task ∈ s.pending i := by
  simp [System.pending, h]

theorem System.mem_pending_of_finish {ret : ℤ}
    (h : s.workers i = .finish task ret) : task ∈ s.pending i :=
  System.mem_pending_of_worker (by rw [h]; rfl)

theorem PostInv.posted (h : PostInv s) (htask : task ∈ s.pending i) :
    Posted s i task := by
  obtain ⟨hclient, hinflight⟩ :=
    System.awaits_eq_some (h.tickets.waits i task htask)
  have hserves := h.serves task.inflightBuffer
  rw [hclient] at hserves
  obtain ⟨heq, hkind, hcount⟩ := hserves
  exact
    { client := hclient
      inflight := hcount hinflight
      posts := h.posts _ (by rw [hclient]; simp)
      task_eq := heq
      queue := h.tickets.route i task htask
      kind := hkind }

/-- The branch of a task under way. -/
theorem Posted.branch (h : Posted s i task) :
    workerBranch task =
      match task.type, (s.request task.inflightBuffer).isWrite with
      | .nvm, true => .nvmWrite
      | .nvm, false => .nvmRead
      | .ssd, _ => .redirectWrite := by
  have hbranch := h.posts.branch task.inflightBuffer (by
    rw [← h.task_eq]
    exact h.kind.imp id fun hssd => ⟨hssd.1, hssd.2.1⟩)
  rwa [← h.task_eq] at hbranch

theorem Posted.branch_cases (h : Posted s i task) :
    workerBranch task = .nvmRead ∨ workerBranch task = .nvmWrite ∨
      workerBranch task = .redirectWrite := by
  rw [h.branch]
  split
  · exact Or.inr (Or.inl rfl)
  · exact Or.inl rfl
  · exact Or.inr (Or.inr rfl)

theorem Posted.len (h : Posted s i task) :
    task.len = (s.request task.inflightBuffer).len := by
  have hlen := (h.posts.task_fields task.inflightBuffer).2.1
  rwa [← h.task_eq] at hlen

/-- The client of a posted task has something to wait for. -/
theorem Posted.inflight_pos (h : Posted s i task) :
    0 < s.inflight task.inflightBuffer := by
  have hlen := h.len
  have hpos := h.posts.len
  rw [h.inflight]
  omega

/-- Lengths of tasks under way fit into an `int`. -/
theorem Posted.toInt32_len (h : Posted s i task) :
    toInt32 task.len = task.len := by
  have hthreshold : nvmThreshold = 1928765 := rfl
  have hlen := h.len
  apply toInt32_of_lt
  rcases h.posts.task_cases task.inflightBuffer with ⟨hlt, -⟩ | heq
  · omega
  · rw [← h.task_eq] at heq
    rcases h.kind with hkind | ⟨-, -, hone⟩
    · rw [heq] at hkind
      cases hkind
    · omega

/-- No queue holds more tasks than there are clients. -/
theorem PostInv.length_pending_le (h : PostInv s) (i : Fin 4) :
    (s.pending i).length ≤ 16 := by
  have hnodup : ((s.pending i).map IoTask.inflightBuffer).Nodup := by
    refine (h.tickets.nodup i).map_on fun t ht u hu howner => ?_
    exact (h.tickets.owner_inj ht hu howner).1
  have hcard := hnodup.length_le_card
  rwa [List.length_map, Fintype.card_fin] at hcard

theorem PostInv.length_nvmQueue_le (h : PostInv s) (i : Fin 4) :
    (s.nvmQueue i).length ≤ 16 := by
  have hlen := h.length_pending_le i
  simp only [System.pending, List.length_append] at hlen
  omega

/-! ## What is pending -/

theorem System.pending_congr (hworkers : s'.workers i = s.workers i)
    (hnvm : s'.nvmQueue i = s.nvmQueue i)
    (hbuffer : s'.bufferQueue i = s.bufferQueue i) :
    s'.pending i = s.pending i := by
  simp only [System.pending, hworkers, hnvm, hbuffer]

theorem System.setNvmQueue_pending {queue : List (IoTask β)} :
    (s.setNvmQueue i queue).pending i =
      (s.workers i).current.toList ++ queue ++
        (s.bufferQueue i).filter fun task => workerBranch task ≠ .skip := by
  simp [System.pending, System.setNvmQueue]

theorem System.setBufferQueue_pending {queue : List (IoTask β)} :
    (s.setBufferQueue i queue).pending i =
      (s.workers i).current.toList ++ s.nvmQueue i ++
        queue.filter fun task => workerBranch task ≠ .skip := by
  simp [System.pending, System.setBufferQueue]

theorem System.setWorker_pending {pc : WorkerPc β} :
    (s.setWorker i pc).pending i =
      pc.current.toList ++ s.nvmQueue i ++
        (s.bufferQueue i).filter fun task => workerBranch task ≠ .skip := by
  simp [System.pending, System.setWorker]

theorem System.setNvmQueue_pending_of_ne (s : System T σ β)
    {queue : List (IoTask β)} {j : Fin 4} (hj : j ≠ i) :
    (s.setNvmQueue i queue).pending j = s.pending j :=
  System.pending_congr rfl (Function.update_of_ne hj _ _) rfl

theorem System.setBufferQueue_pending_of_ne (s : System T σ β)
    {queue : List (IoTask β)} {j : Fin 4} (hj : j ≠ i) :
    (s.setBufferQueue i queue).pending j = s.pending j :=
  System.pending_congr rfl rfl (Function.update_of_ne hj _ _)

/-- A worker that goes on with its task does not change what is pending. -/
theorem System.setWorker_pending_eq {pc : WorkerPc β}
    (hcurrent : pc.current = (s.workers i).current) :
    (s.setWorker i pc).pending = s.pending := by
  funext j
  by_cases hj : j = i
  · subst hj
    rw [System.setWorker_pending, hcurrent, System.pending]
  · exact System.pending_congr (Function.update_of_ne hj _ _) rfl rfl

end Uhs
