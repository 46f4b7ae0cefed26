import Uhs.Migration.Worker
import Uhs.Segment.Operations
import Uhs.Store.Request

/-!
# The store as a system

Clients, queues, workers and the machine of the migrations, one step for each
access to shared memory.  A queue is a bounded list; enqueueing under the spin
lock and dequeueing are each one step.
-/

namespace Uhs

open Support

/-- The capacity of a queue: `4096 * TASK_SIZE` bytes of `TASK_SIZE` each. -/
def queueCapacity : ℕ := 4096

/-- `mix_enqueue` of one task: the queue and the number enqueued. -/
def mixEnqueue {α : Type*} (queue : List α) (task : α) : List α × ℕ :=
  if queue.length < queueCapacity then (queue ++ [task], 1) else (queue, 0)

/-- The store with its clients and workers.  The last two fields are a history
that no step reads: the data of the write issued last to each logical block,
and the last request of each client. -/
structure System (T : ℕ) (σ β : Type*) where
  machine : Machine T σ β
  nvmQueue : Fin 4 → List (IoTask β)
  bufferQueue : Fin 4 → List (IoTask β)
  inflight : Fin 16 → ℤ
  dst : Fin 16 → ℕ → β
  clients : Fin 16 → ClientPc β
  workers : Fin 4 → WorkerPc β
  seq : Fin 4 → ℕ
  latest : ℕ → β
  request : Fin 16 → Request β

variable {T : ℕ} {σ β : Type*}

namespace System

def setClient (s : System T σ β) (c : Fin 16) (pc : ClientPc β) :
    System T σ β :=
  { s with clients := Function.update s.clients c pc }

def setWorker (s : System T σ β) (i : Fin 4) (pc : WorkerPc β) :
    System T σ β :=
  { s with workers := Function.update s.workers i pc }

def setMachine (s : System T σ β) (machine : Machine T σ β) :
    System T σ β :=
  { s with machine := machine }

def setDev (s : System T σ β) (dev : Devices σ β) : System T σ β :=
  s.setMachine (s.machine.setDev dev)

def setNvmQueue (s : System T σ β) (i : Fin 4) (queue : List (IoTask β)) :
    System T σ β :=
  { s with nvmQueue := Function.update s.nvmQueue i queue }

def setBufferQueue (s : System T σ β) (i : Fin 4)
    (queue : List (IoTask β)) : System T σ β :=
  { s with bufferQueue := Function.update s.bufferQueue i queue }

/-- `atomic_fetch_sub` of the counter of client `c`. -/
def fetchSub (s : System T σ β) (c : Fin 16) (n : ℤ) : System T σ β :=
  { s with inflight := Function.update s.inflight c (s.inflight c - n) }

/-- The memory of client `c` after block `i` of it has been written. -/
def deliver (s : System T σ β) (c : Fin 16) (i : ℕ) (x : β) :
    System T σ β :=
  { s with dst := Function.update s.dst c (Function.update (s.dst c) i x) }

variable (s : System T σ β)

@[simp] theorem setClient_self (c : Fin 16) (pc : ClientPc β) :
    (s.setClient c pc).clients c = pc := Function.update_self _ _ _

theorem setClient_of_ne {c d : Fin 16} (hd : d ≠ c) (pc : ClientPc β) :
    (s.setClient c pc).clients d = s.clients d := Function.update_of_ne hd _ _

@[simp] theorem setWorker_self (i : Fin 4) (pc : WorkerPc β) :
    (s.setWorker i pc).workers i = pc := Function.update_self _ _ _

theorem setWorker_of_ne {i j : Fin 4} (hj : j ≠ i) (pc : WorkerPc β) :
    (s.setWorker i pc).workers j = s.workers j := Function.update_of_ne hj _ _

@[simp] theorem fetchSub_self (c : Fin 16) (n : ℤ) :
    (s.fetchSub c n).inflight c = s.inflight c - n := Function.update_self _ _ _

end System

/-! ## Clients -/

/-- The contents of the logical blocks after a write has been issued. -/
def issued (latest : ℕ → β) (request : Request β) : ℕ → β :=
  if request.isWrite then fun b =>
    if request.offset ≤ b ∧ b < request.offset + request.len then
      request.buf (b - request.offset)
    else latest b
  else latest

/-- Client `c` calls `mixdk_write` or `mixdk_read`. -/
def clientCall (s : System T σ β) (c : Fin 16) (request : Request β) :
    System T σ β :=
  { s.setClient c (ClientPc.post (request.task c)) with
    inflight := Function.update s.inflight c request.len
    dst := Function.update s.dst c request.buf
    latest := issued s.latest request
    request := Function.update s.request c request }

variable [BlockDevice σ β]

/-- The transfer of `mix_post_task_to_ssd`. -/
def ssdTransfer (s : System T σ β) (c : Fin 16) (task : IoTask β) :
    System T σ β :=
  if task.postedOp = mixRead then
    let blocks := mixSsdRead s.machine.store.dev task.len task.offset
    { s with dst := Function.update s.dst c fun i =>
        blocks.getD i (s.dst c i) }
  else if task.postedOp = mixWrite then
    s.setDev (mixSsdWrite s.machine.store.dev task.buf task.len task.offset)
  else
    s

theorem ssdTransfer_fields (s : System T σ β) (c : Fin 16)
    (task : IoTask β) :
    (ssdTransfer s c task).clients = s.clients ∧
      (ssdTransfer s c task).inflight = s.inflight ∧
      (ssdTransfer s c task).request = s.request ∧
      (ssdTransfer s c task).workers = s.workers ∧
      (ssdTransfer s c task).nvmQueue = s.nvmQueue ∧
      (ssdTransfer s c task).bufferQueue = s.bufferQueue ∧
      (ssdTransfer s c task).latest = s.latest := by
  unfold ssdTransfer
  split
  · exact ⟨rfl, rfl, rfl, rfl, rfl, rfl, rfl⟩
  · split <;> exact ⟨rfl, rfl, rfl, rfl, rfl, rfl, rfl⟩

/-- One step of client `c`; `none` while it spins. -/
def clientStep (s : System T σ β) (c : Fin 16) : Option (System T σ β) :=
  match s.clients c with
  | .idle => none
  | .postNvm task =>
      let i := smallQueue task
      -- a task that does not fit is dropped
      let queue := (mixEnqueue (s.nvmQueue i) task).1
      some ((s.setNvmQueue i queue).setClient c (.wait task))
  | .postSmall task =>
      let i := smallQueue task
      let (queue, num) := mixEnqueue (s.bufferQueue i) task
      if num = 0 then none
      else some ((s.setBufferQueue i queue).setClient c (.wait task))
  | .postSub task n =>
      if n < bufferQueueNum then
        let (i, sub) := subTask task n
        if sub.len = 0 then
          some (s.setClient c (.ssd task))
        else
          let (queue, num) := mixEnqueue (s.bufferQueue i) sub
          if num = 0 then none
          else some ((s.setBufferQueue i queue).setClient c
            (.postSub task (n + 1)))
      else
        some (s.setClient c (.ssd task))
  | .ssd task =>
      if mixBufferMigrating s.machine.store.metaData then none
      else some ((ssdTransfer s c task).setClient c (.returned task))
  | .wait task =>
      if 0 < s.inflight c then none
      else some (s.setClient c (.returned task))
  | .returned _ => some (s.setClient c .idle)

/-! ## Workers -/

/-- Worker `i` executes the task it has dequeued. -/
def dispatch (s : System T σ β) (i : Fin 4) (task : IoTask β) :
    System T σ β :=
  match workerBranch task with
  | .nvmRead => s.setWorker i (.nvmRead task 0)
  | .nvmWrite => s.setWorker i (.nvmWrite task 0)
  | .clear =>
      s.setMachine (s.machine.setStore
        (mixClearBlock s.machine.store task i))
  -- the copies of `redirect_read` go to memory that no one here reads
  | .redirectRead => s.fetchSub task.inflightBuffer task.len
  | .redirectWrite => s.setWorker i (.start task)
  | .skip => s

omit [BlockDevice σ β] in
theorem dispatch_fields (s : System T σ β) (i : Fin 4) (task : IoTask β) :
    (dispatch s i task).clients = s.clients ∧
      (dispatch s i task).nvmQueue = s.nvmQueue ∧
      (dispatch s i task).bufferQueue = s.bufferQueue ∧
      (dispatch s i task).latest = s.latest := by
  unfold dispatch
  split <;> exact ⟨rfl, rfl, rfl, rfl⟩

/-- Worker `i` looks into its two queues in turn. -/
def workerPoll (s : System T σ β) (i : Fin 4) : System T σ β :=
  let next := { s with
    seq := Function.update s.seq i ((s.seq i + 1) % 2 ^ 8) }
  if s.seq i % 2 = 1 then
    match s.nvmQueue i with
    | [] => next
    | task :: rest => dispatch (next.setNvmQueue i rest) i task
  else
    match s.bufferQueue i with
    | [] => next
    | task :: rest => dispatch (next.setBufferQueue i rest) i task

/-- One step of worker `i`; `none` while it waits for a migration. -/
def workerStep (s : System T σ β) (i : Fin 4) : Option (System T σ β) :=
  match s.workers i with
  | .ready => some (workerPoll s i)
  | .nvmRead task n =>
      if n < task.len then
        some ((s.deliver task.inflightBuffer n
          (s.machine.store.dev.nvm (task.offset + n))).setWorker i
            (.nvmRead task (n + 1)))
      else
        some (s.setWorker i (.finish task (toInt32 task.len)))
  | .nvmWrite task n =>
      if n < task.len then
        let dev := mixNvmWrite s.machine.store.dev
          (fun _ => task.buf n) 1 (task.offset + n)
        some ((s.setDev dev).setWorker i (.nvmWrite task (n + 1)))
      else
        some (s.setWorker i (.finish task (toInt32 task.len)))
  | .finish task ret =>
      some ((s.fetchSub task.inflightBuffer ret).setWorker i .ready)
  | pc => (redirectStep i s.machine pc).map fun r =>
      (s.setMachine r.1).setWorker i r.2

/-! ## Runs -/

/-- A call by a client, a step of one of the parties, or a call of
`mix_migrate_segment` on its own. -/
inductive SystemEvent (T : ℕ) (β : Type*)
  | call (c : Fin 16) (request : Request β)
  | client (c : Fin 16)
  | worker (i : Fin 4)
  | migrate (i : Fin 4)
  | coord
  | thread (t : Fin T)

def systemStep (s : System T σ β) :
    SystemEvent T β → Option (System T σ β)
  | .call c request =>
      match s.clients c with
      | .idle => some (clientCall s c request)
      | _ => none
  | .client c => clientStep s c
  | .worker i => workerStep s i
  | .migrate i =>
      match s.workers i with
      | .ready => some (s.setWorker i (.lock none))
      | _ => none
  | .coord => (coordAdvance s.machine).map s.setMachine
  | .thread t => (threadStep t s.machine).map s.setMachine

/-- The system before the first call: `latest` holds what is on the devices. -/
def System.initial (T : ℕ) (store : Store σ β) (segmentIdx : Fin 4)
    (migrateBuf : Fin T → β) (inflight : Fin 16 → ℤ) (dst : Fin 16 → ℕ → β)
    (request : Fin 16 → Request β) : System T σ β where
  machine := Machine.initial T store segmentIdx migrateBuf
  nvmQueue := fun _ => []
  bufferQueue := fun _ => []
  inflight := inflight
  dst := dst
  clients := fun _ => .idle
  workers := fun _ => .ready
  seq := fun _ => 0
  latest := fun b =>
    if b < nvmThreshold then store.dev.nvm b
    else store.dev.ssdBlock (b - nvmThreshold)
  request := request

/-! ## A small system for closed runs -/

/-- The system over a fresh store, with eight migrate threads. -/
def freshSystem : System 8 (ℕ → ℕ) ℕ :=
  System.initial 8 (freshStore 32 (fun _ => false) zeroDevices) 0
    (fun _ => 0) (fun _ => 0) (fun _ _ => 0) fun _ => ⟨false, fun _ => 0, 0, 0, 0⟩

/-- A write of `x, x + 1, ...` to the SSD blocks from `lba` on. -/
def writeRequest (lba len x : ℕ) : Request ℕ where
  isWrite := true
  buf := fun i => x + i
  len := len
  offset := nvmThreshold + lba
  flags := 0

/-- A write of one block of segment `0` that finds its block mapped or a slot
free, with worker `0` about to look into its buffer queue. -/
def bufferedCall (lba x : ℕ) : List (SystemEvent 8 ℕ) :=
  [.call 0 (writeRequest lba 1 x), .client 0] ++
    List.replicate 5 (.worker 0) ++ [.client 0, .client 0]

/-- The steps after the call of a write to the blocks `0` and `1`. -/
def largeSteps : List (SystemEvent 8 ℕ) :=
  List.replicate 5 (.client 0) ++ [.worker 0, .worker 0, .worker 1]

end Uhs
