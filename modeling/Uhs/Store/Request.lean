import Uhs.Core.HashFunction
import Uhs.Core.Task

/-!
# Requests

How a request is split over the devices and the queues: `mixdk.c`, the routing
of `scheduler.c`, and the posting functions and the opcode switch of
`nvm_worker.cpp`.
-/

namespace Uhs

/-- `threshold` of `scheduler.c`: the NVM range ends before this block. -/
def nvmThreshold : ℕ := 1928765

/-- `threshold` of `nvm_worker.cpp`: the length of the longest small write. -/
def smallThreshold : ℕ := 1

/-- `stripe_size`. -/
def stripeSize : ℕ := 4

/-- `BUFFER_QUEUE_NUM`. -/
def bufferQueueNum : ℕ := 4

/-- Conversion to `size_t`. -/
def toSizeT (n : ℤ) : ℕ := (n % 2 ^ 64).toNat

/-- The arguments of `mixdk_write` or `mixdk_read`.  The memory of a read is
the one it delivers to. -/
structure Request (β : Type*) where
  isWrite : Bool
  buf : ℕ → β
  len : ℕ
  offset : ℕ
  flags : ℕ

variable {β : Type*}

/-- `init_io_task`, which `mixdk_read` spells out.  The type of the task is set
by `mix_post_task_to_io`. -/
def initIoTask (buf : ℕ → β) (len offset opcode : ℕ) (idx : Fin 16) :
    IoTask β where
  buf := buf
  len := len
  offset := offset
  opcode := opcode
  type := .nvm
  inflightBuffer := idx

/-- The routing of `mix_post_task_to_io`, in `size_t`. -/
def mixPostTaskToIo (task : IoTask β) : IoTask β :=
  if (task.offset + task.len) % 2 ^ 64 < nvmThreshold then
    { task with type := .nvm }
  else
    { task with
      offset := toSizeT (task.offset - nvmThreshold)
      type := .ssd }

/-- The task that `mixdk_write` or `mixdk_read` posts. -/
def Request.task (request : Request β) (idx : Fin 16) : IoTask β :=
  mixPostTaskToIo (initIoTask request.buf request.len request.offset
    (request.flags ||| if request.isWrite then mixWrite else mixRead) idx)

/-- Program counter of a client in `mixdk_write` or `mixdk_read`. -/
inductive ClientPc (β : Type*)
  /-- no call is running -/
  | idle
  /-- before the `mix_enqueue` of `mix_post_task_to_metadata` -/
  | postNvm (task : IoTask β)
  /-- before the `mix_enqueue` of `mix_post_small_task_to_buffer` -/
  | postSmall (task : IoTask β)
  /-- at the head of the loop of `mix_post_task_to_buffer` -/
  | postSub (task : IoTask β) (i : ℕ)
  /-- in `mix_post_task_to_ssd` -/
  | ssd (task : IoTask β)
  /-- in `mix_wait_for_task_completed` -/
  | wait (task : IoTask β)
  /-- the call has returned -/
  | returned (task : IoTask β)

/-- The operation bits that the posting functions look at. -/
def IoTask.postedOp (task : IoTask β) : ℕ :=
  task.opcode &&& (mixRead ||| mixWrite)

/-- The branches of `mix_post_task_to_data`. -/
def mixPostTaskToData (task : IoTask β) : ClientPc β :=
  if task.postedOp = mixWrite ∧ task.len ≤ smallThreshold then
    .postSmall task
  else if task.postedOp = mixWrite ∧ smallThreshold < task.len then
    .postSub { task with opcode := task.opcode ||| mixClear } 0
  else if task.postedOp = mixRead then
    .ssd task
  else
    .returned task

/-- Where a routed task is posted. -/
def ClientPc.post (task : IoTask β) : ClientPc β :=
  match task.type with
  | .nvm => .postNvm task
  | .ssd => mixPostTaskToData task

/-- The queue of a small task, `offset & 3`. -/
def smallQueue (task : IoTask β) : Fin 4 := Fin.ofNat 4 task.offset

/-- Sub-task `i` of `mix_post_task_to_buffer`, with its queue.  The bounds are
computed in `int`; the data pointer is left uninitialised and never read. -/
def subTask (task : IoTask β) (i : ℕ) : Fin 4 × IoTask β :=
  let offset := toInt32 task.offset
  let last := toInt32 (task.offset + task.len)
  let span := Int.bmod (last - offset) (2 ^ 32)
  let len := Int.tdiv span bufferQueueNum
  let extra : ℤ := if i < span % bufferQueueNum then 1 else 0
  (Fin.ofNat 4 (task.offset / stripeSize % bufferQueueNum + i),
    { task with
      offset := toSizeT (Int.bmod (offset + i) (2 ^ 32))
      len := toSizeT (len + extra) })

/-! ## The opcode switch of a worker -/

/-- The branches of `nvm_worker`. -/
inductive WorkerBranch
  | nvmRead
  | nvmWrite
  | clear
  | redirectRead
  | redirectWrite
  | skip
  deriving DecidableEq

/-- The branch that `nvm_worker` takes for a task. -/
def workerBranch (task : IoTask β) : WorkerBranch :=
  let op := task.opcode &&& (mixRead ||| mixWrite ||| mixClear)
  match task.type with
  | .nvm =>
      if op = mixRead then .nvmRead
      else if op = mixWrite then .nvmWrite
      else .skip
  | .ssd =>
      if op = mixClear then .clear
      else if op = mixRead then .redirectRead
      else if op = mixWrite then .redirectWrite
      else .skip

/-- A task with both the write and the clear bit has no branch. -/
theorem workerBranch_clear {task : IoTask β} (hop : task.postedOp = mixWrite)
    (htype : task.type = .ssd) :
    workerBranch { task with opcode := task.opcode ||| mixClear } =
      .skip := by
  set op := (task.opcode ||| mixClear) &&& (mixRead ||| mixWrite ||| mixClear)
    with hdef
  have hlow : op &&& (mixRead ||| mixWrite) = mixWrite := by
    rw [hdef, Nat.and_assoc, Nat.and_or_distrib_right]
    exact (Nat.or_zero _).trans hop
  have hhigh : op &&& mixClear = mixClear := by
    rw [hdef, Nat.and_assoc, Nat.and_or_distrib_right]
    change task.opcode &&& mixClear ||| mixClear = mixClear
    refine Nat.eq_of_testBit_eq fun i => ?_
    rw [Nat.testBit_or, Nat.testBit_and]
    cases mixClear.testBit i <;> simp
  have hclear : op ≠ mixClear := fun h => by rw [h] at hlow; cases hlow
  have hread : op ≠ mixRead := fun h => by rw [h] at hhigh; cases hhigh
  have hwrite : op ≠ mixWrite := fun h => by rw [h] at hhigh; cases hhigh
  simp only [workerBranch, htype]
  rw [if_neg hclear, if_neg hread, if_neg hwrite]

theorem workerBranch_congr {task task' : IoTask β}
    (hop : task.opcode = task'.opcode) (htype : task.type = task'.type) :
    workerBranch task = workerBranch task' := by
  simp only [workerBranch, hop, htype]

/-- A sub-task differs from its task in the range. -/
theorem subTask_eq (task : IoTask β) (i : ℕ) : ∃ offset len,
    (subTask task i).2 = { task with offset := offset, len := len } :=
  ⟨_, _, rfl⟩

theorem workerBranch_subTask (task : IoTask β) (i : ℕ) :
    workerBranch (subTask task i).2 = workerBranch task := by
  obtain ⟨offset, len, heq⟩ := subTask_eq task i
  rw [heq]
  exact workerBranch_congr rfl rfl

end Uhs
