import Uhs.Store.Request

/-!
# Where the blocks of a request go

`mix_post_task_to_io` decides by the end of a request and shifts its start;
`mix_post_task_to_buffer` numbers the queues from the stripe of the start
where a single block goes by its own address.  Each is right for the requests
for which both ways of counting agree.
-/

namespace Uhs

variable {β : Type*}

/-! ## The two regions -/

/-- The device block of a logical block. -/
def deviceBlock (b : ℕ) : TaskType × ℕ :=
  if b < nvmThreshold then (.nvm, b) else (.ssd, b - nvmThreshold)

/-- Different logical blocks have different device blocks. -/
theorem deviceBlock_injective : Function.Injective deviceBlock := by
  intro a b h
  rw [deviceBlock, deviceBlock] at h
  split_ifs at h with ha hb hb
  · exact (Prod.mk.inj h).2
  · cases (Prod.mk.inj h).1
  · cases (Prod.mk.inj h).1
  · have hsub := (Prod.mk.inj h).2
    omega

/-- Block `i` of a task that has been routed. -/
def IoTask.block (task : IoTask β) (i : ℕ) : TaskType × ℕ :=
  (task.type, task.offset + i)

/-- Every block of the request goes to its device block, and the start is not
shifted below zero. -/
structure Translates (task : IoTask β) : Prop where
  block : ∀ i < task.len,
    (mixPostTaskToIo task).block i = deviceBlock (task.offset + i)
  shift : (mixPostTaskToIo task).type = .ssd → nvmThreshold ≤ task.offset

/-- The request lies in the NVM range and ends before its last block, or lies
behind the NVM range and its end does not wrap into it. -/
def InOneRegion (task : IoTask β) : Prop :=
  task.offset + task.len < nvmThreshold ∨
    nvmThreshold ≤ task.offset ∧
      nvmThreshold ≤ (task.offset + task.len) % 2 ^ 64

instance (task : IoTask β) : Decidable (InOneRegion task) :=
  inferInstanceAs (Decidable (_ ∨ _ ∧ _))

theorem toSizeT_sub {a b : ℕ} (hle : b ≤ a) (hlt : a < 2 ^ 64) :
    toSizeT (a - b) = a - b := by
  rw [toSizeT]
  omega

/-- A request is translated block by block if and only if it lies in one of
the two regions and ends before the last block of the first. -/
theorem translates_iff {task : IoTask β} (hoffset : task.offset < 2 ^ 64)
    (hlen : task.len < 2 ^ 64) (hpos : 1 ≤ task.len) :
    Translates task ↔ InOneRegion task := by
  have hthreshold : nvmThreshold < 2 ^ 64 := by decide
  constructor
  · rintro ⟨hblock, hshift⟩
    by_cases hnvm : (task.offset + task.len) % 2 ^ 64 < nvmThreshold
    · have htask : mixPostTaskToIo task = { task with type := .nvm } :=
        if_pos hnvm
      -- the last block is an NVM block, so the sum has not wrapped
      have hlast := hblock (task.len - 1) (by omega)
      rw [htask, deviceBlock] at hlast
      split_ifs at hlast with hlt
      · left
        omega
      · cases (Prod.mk.inj hlast).1
    · have htask : (mixPostTaskToIo task).type = .ssd := by
        rw [mixPostTaskToIo, if_neg hnvm]
      exact Or.inr ⟨hshift htask, Nat.not_lt.mp hnvm⟩
  · rintro (hnvm | ⟨hssd, hend⟩)
    · have hend : (task.offset + task.len) % 2 ^ 64 < nvmThreshold := by
        omega
      have htask : mixPostTaskToIo task = { task with type := .nvm } :=
        if_pos hend
      refine ⟨fun i hi => ?_, fun htype => ?_⟩
      · rw [htask, deviceBlock, if_pos (by omega)]
        rfl
      · rw [htask] at htype
        cases htype
    · have htask : mixPostTaskToIo task =
          { task with offset := task.offset - nvmThreshold, type := .ssd } := by
        rw [mixPostTaskToIo, if_neg (by omega), toSizeT_sub hssd hoffset]
      refine ⟨fun i hi => ?_, fun _ => hssd⟩
      rw [htask, deviceBlock, if_neg (by omega), Nat.sub_add_comm hssd]
      rfl

/-- Two requests that are translated meet on a device where they meet as
requests, and nowhere else. -/
theorem Translates.block_eq_iff {task task' : IoTask β}
    (h : Translates task) (h' : Translates task') {i j : ℕ}
    (hi : i < task.len) (hj : j < task'.len) :
    (mixPostTaskToIo task).block i = (mixPostTaskToIo task').block j ↔
      task.offset + i = task'.offset + j := by
  rw [h.block i hi, h'.block j hj]
  exact deviceBlock_injective.eq_iff

/-- A request of two blocks in the SSD range. -/
theorem translates_iff_example :
    Translates (initIoTask (id : ℕ → ℕ) 2 2000000 mixWrite 0) ↔
      InOneRegion (initIoTask (id : ℕ → ℕ) 2 2000000 mixWrite 0) :=
  translates_iff (by decide) (by decide) (by decide)

/-- A request that ends at the threshold: its only block is an NVM block and
goes to the SSD, at an address below zero. -/
theorem translates_fails :
    ¬ Translates (initIoTask (id : ℕ → ℕ) 1 (nvmThreshold - 1) mixWrite 0) := by
  intro h
  have hblock := h.block 0 (by decide)
  exact absurd hblock (by decide +kernel)

/-! ## The owner of a block -/

/-- A sub-task carries every fourth block from its offset on. -/
def IoTask.Carries (sub : IoTask β) (b : ℕ) : Prop :=
  ∃ j < sub.len, b = sub.offset + j * bufferQueueNum

/-- Every block of a large write is carried by one sub-task, which goes to the
queue of a small write of the block. -/
def OwnersAgree (task : IoTask β) : Prop :=
  ∀ b, task.offset ≤ b → b < task.offset + task.len →
    ∃ i < bufferQueueNum, (subTask task i).2.Carries b ∧
      (∀ j < bufferQueueNum, (subTask task j).2.Carries b → j = i) ∧
      (subTask task i).1 = smallQueue { task with offset := b, len := 1 }

/-- `int` arithmetic that stays in range. -/
theorem bmod_natCast {n : ℕ} (h : n < 2 ^ 31) :
    Int.bmod (n : ℤ) (2 ^ 32) = n := by
  rw [Int.bmod_def]
  omega

theorem toSizeT_natCast {n : ℕ} (h : n < 2 ^ 64) : toSizeT n = n := by
  rw [toSizeT]
  omega

section SubTasks

variable {task : IoTask β} (h : task.offset + task.len < 2 ^ 31)

include h

/-- The number of blocks of sub-task `i`. -/
theorem subTask_len (i : ℕ) : (subTask task i).2.len =
    task.len / 4 + if i < task.len % 4 then 1 else 0 := by
  have hspan : ((task.offset + task.len : ℕ) : ℤ) - task.offset =
      (task.len : ℕ) := by omega
  simp only [subTask, toInt32_of_lt h,
    toInt32_of_lt (show task.offset < 2 ^ 31 by omega), hspan,
    bmod_natCast (show task.len < 2 ^ 31 by omega), bufferQueueNum]
  rw [← Int.ofNat_tdiv]
  split_ifs with hint hnat hnat
  · rw [← Int.natCast_succ, toSizeT_natCast (by omega)]
  · omega
  · omega
  · rw [Int.add_zero, toSizeT_natCast (by omega), Nat.add_zero]

/-- The first block of sub-task `i`. -/
theorem subTask_offset {i : ℕ} (hi : i < task.len) :
    (subTask task i).2.offset = task.offset + i := by
  simp only [subTask, toInt32_of_lt (show task.offset < 2 ^ 31 by omega)]
  rw [← Int.natCast_add, bmod_natCast (by omega), toSizeT_natCast (by omega)]

/-- A block is carried by the sub-task of its remainder. -/
theorem subTask_carries_iff {i b : ℕ} (hi : i < bufferQueueNum)
    (hle : task.offset ≤ b) (hlt : b < task.offset + task.len) :
    (subTask task i).2.Carries b ↔ (b - task.offset) % 4 = i := by
  rw [bufferQueueNum] at hi
  have hlen := subTask_len h i
  constructor
  · rintro ⟨j, hj, heq⟩
    have hlong : i < task.len := by
      split_ifs at hlen <;> omega
    rw [subTask_offset h hlong, bufferQueueNum] at heq
    omega
  · intro hmod
    have hlong : i < task.len := by omega
    refine ⟨(b - task.offset) / 4, ?_, ?_⟩
    · rw [hlen]
      split_ifs <;> omega
    · rw [subTask_offset h hlong, bufferQueueNum]
      omega

end SubTasks

/-- The queue of sub-task `i` and the queue of a small write of block `b`. -/
theorem subTask_queue_eq_iff (task : IoTask β) (i b : ℕ) :
    (subTask task i).1 = smallQueue { task with offset := b, len := 1 } ↔
      (task.offset / 4 + i) % 4 = b % 4 := by
  rw [← Fin.val_inj]
  simp only [subTask, smallQueue, Fin.ofNat, stripeSize, bufferQueueNum,
    Nat.mod_add_mod]

/-- Large and small writes agree on the owner of every block if and only if
the stripe of the first block has the number of its own queue. -/
theorem ownersAgree_iff {task : IoTask β} (hlen : 1 < task.len)
    (h : task.offset + task.len < 2 ^ 31) :
    OwnersAgree task ↔ task.offset / 4 % 4 = task.offset % 4 := by
  constructor
  · intro hagree
    obtain ⟨i, hi, hcarries, -, hqueue⟩ :=
      hagree task.offset (Nat.le_refl _) (by omega)
    rw [subTask_carries_iff h hi (Nat.le_refl _) (by omega)] at hcarries
    rw [subTask_queue_eq_iff] at hqueue
    omega
  · intro halign b hle hlt
    have hi : (b - task.offset) % 4 < bufferQueueNum :=
      Nat.mod_lt _ (by decide)
    refine ⟨(b - task.offset) % 4, hi, ?_, fun j hj hcarries => ?_, ?_⟩
    · rw [subTask_carries_iff h hi hle hlt]
    · exact ((subTask_carries_iff h hj hle hlt).mp hcarries).symm
    · rw [subTask_queue_eq_iff]
      omega

/-- A write of two blocks that starts at the head of a row of stripes. -/
theorem ownersAgree_iff_example :
    OwnersAgree (initIoTask (id : ℕ → ℕ) 2 16 mixWrite 0) ↔
      16 / 4 % 4 = 16 % 4 :=
  ownersAgree_iff (by decide) (by decide)

/-- A write of two blocks from block 1 on: block 1 goes to queue 0. -/
theorem ownersAgree_fails :
    ¬ OwnersAgree (initIoTask (id : ℕ → ℕ) 2 1 mixWrite 0) := by
  intro hagree
  obtain ⟨i, hi, hcarries, -, hqueue⟩ :=
    hagree 1 (by decide) (by decide)
  rw [subTask_carries_iff (by decide) hi (by decide) (by decide)] at hcarries
  obtain rfl : 0 = i := hcarries
  exact absurd hqueue (by decide +kernel)

end Uhs
