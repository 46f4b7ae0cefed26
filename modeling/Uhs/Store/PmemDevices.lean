import Uhs.Store.Regions

/-!
# The devices that the persistent memory shows

The bytes of the mapping are read as the blocks and the records of `Devices`,
whose regions are separate by definition.  The accesses of `nvm.cpp` to the
bytes do there what the accesses of `Devices` do to the blocks.
-/

namespace Uhs.Pmem

open Support

/-- The bytes of a block. -/
abbrev Block : Type := Fin blockSize → BitVec 8

/-- The block at an address. -/
def blockAt (memory : ByteMemory) (a : ℕ) : Block := fun t => memory (a + t)

/-- The NVM blocks, the data blocks and the records are those of `dev`. -/
structure Represents {σ : Type*} (nvmInfo : NvmInfo) (bufferInfo : BufferInfo)
    (memory : ByteMemory) (dev : Devices σ Block) : Prop where
  nvm : ∀ b < nvmInfo.blockNum.toNat,
    blockAt memory (nvmInfo.nvmAddr + blockSize * b) = dev.nvm b
  buffer : ∀ s < bufferInfo.blockNum.toNat,
    blockAt memory (bufferInfo.bufferAddr + blockSize * s) = dev.buffer s
  bufferMeta : ∀ s < bufferInfo.blockNum.toNat,
    readMeta memory (bufferInfo.metaAddr + metaSize * s) = dev.bufferMeta s

/-- The operation on the blocks. -/
def PmemOp.apply {σ : Type*} (dev : Devices σ Block) :
    PmemOp → Devices σ Block
  | .nvmWrite task =>
      Uhs.mixNvmWrite dev (fun i => blockAt task.buf (blockSize * i))
        task.len task.offset
  | .bufferWrite src srcBlock dstBlock flags =>
      Uhs.mixBufferWrite dev (blockAt src 0) srcBlock.toNat dstBlock.toNat
        flags.toNat
  | .bufferClear dstBlock => Uhs.mixBufferClear dev dstBlock.toNat

variable {σ : Type*}
  {pmemMemcpy : ByteMemory → ℕ → ByteMemory → ℕ → ByteMemory}
  {nvmInfo : NvmInfo} {bufferInfo : BufferInfo} {memory memory' : ByteMemory}
  {dev : Devices σ Block} {op : PmemOp} {task : IoTask (BitVec 8)}
  {src : ByteMemory} {srcBlock dstBlock flags : UInt64} {b s : ℕ}

theorem blockAt_congr {a : ℕ}
    (h : ∀ i ∈ bytesAt a blockSize, memory' i = memory i) :
    blockAt memory' a = blockAt memory a := by
  funext t
  exact h _ ⟨Nat.le_add_right _ _, Nat.add_lt_add_left t.isLt _⟩

/-! ## What an operation leaves alone -/

/-- A block of the NVM zone. -/
theorem Layout.zoneBlock_subset (h : Layout nvmInfo bufferInfo)
    (hb : b < nvmInfo.blockNum.toNat) :
    cell nvmInfo.nvmAddr blockSize b ⊆ zoneBytes nvmInfo := by
  rw [zoneBytes, h.capacity]
  exact cell_subset hb

theorem blockAt_of_disjoint (hcopies : CopiesBytes pmemMemcpy)
    (h : Layout nvmInfo bufferInfo) (hop : op.Admitted bufferInfo)
    (hstep : pmemStep pmemMemcpy nvmInfo bufferInfo memory op = some memory')
    {a : ℕ}
    (hapart : Disjoint (bytesAt a blockSize) (op.bytes nvmInfo bufferInfo)) :
    blockAt memory' a = blockAt memory a :=
  blockAt_congr fun _ hi => pmemStep_of_notMem hcopies h hop hstep
    (Set.disjoint_left.mp hapart hi)

/-- The bytes of a slot are no bytes of the NVM zone. -/
theorem Layout.zone_disjoint_slot (h : Layout nvmInfo bufferInfo)
    (hslot : op.slot ≠ none) :
    Disjoint (zoneBytes nvmInfo) (op.bytes nvmInfo bufferInfo) := by
  have hapart := h.regionsApart
  cases op with
  | nvmWrite task => exact absurd rfl hslot
  | bufferWrite src srcBlock dstBlock flags =>
      exact Disjoint.union_right (hapart.zone_data _) (hapart.zone_record _)
  | bufferClear dstBlock =>
      exact (hapart.zone_record _).mono_right (statusBytes_subset _)

/-- A data block is no byte of another operation. -/
theorem Layout.data_disjoint (h : Layout nvmInfo bufferInfo)
    (hop : op.Admitted bufferInfo)
    (hother : ∀ src srcBlock dstBlock flags,
      op = .bufferWrite src srcBlock dstBlock flags → s ≠ dstBlock.toNat) :
    Disjoint (dataBytes bufferInfo s) (op.bytes nvmInfo bufferInfo) := by
  have hapart := h.regionsApart
  cases op with
  | nvmWrite task =>
      exact (hapart.zone_data s).symm.mono_right (h.bytes_subset_zone hop)
  | bufferWrite src srcBlock dstBlock flags =>
      have hslot := UInt64.lt_iff_toNat_lt.mp hop
      exact Disjoint.union_right
        (hapart.data_data _ _ (hother _ _ _ _ rfl))
        (hapart.record_data _ hslot s).symm
  | bufferClear dstBlock =>
      have hslot := UInt64.lt_iff_toNat_lt.mp hop
      exact (hapart.record_data _ hslot s).symm.mono_right
        (statusBytes_subset _)

/-! ## One operation -/

/-- The records of the other slots are still those of `dev`. -/
theorem Represents.bufferMeta_of_slot_ne (hcopies : CopiesBytes pmemMemcpy)
    (h : Layout nvmInfo bufferInfo)
    (hdev : Represents nvmInfo bufferInfo memory dev)
    (hop : op.Admitted bufferInfo)
    (hstep : pmemStep pmemMemcpy nvmInfo bufferInfo memory op = some memory')
    (hs : s < bufferInfo.blockNum.toNat)
    (hne : ∀ slot, op.slot = some slot → s ≠ slot.toNat) :
    readMeta memory' (bufferInfo.metaAddr + metaSize * s) =
      dev.bufferMeta s := by
  have hword : (UInt64.ofNat s).toNat = s := by
    have hlt := bufferInfo.blockNum.toNat_lt
    rw [UInt64.toNat_ofNat', Nat.mod_eq_of_lt (by omega)]
  have hslot : UInt64.ofNat s < bufferInfo.blockNum := by
    rw [UInt64.lt_iff_toNat_lt, hword]
    exact hs
  have hkept := readMeta_of_slot_ne hcopies h hop hslot (fun heq =>
    hne _ heq hword.symm) hstep
  rw [hword] at hkept
  rw [hkept]
  exact hdev.bufferMeta s hs

/-- An operation on a slot changes the record of that slot alone. -/
theorem Represents.bufferMeta_update (hcopies : CopiesBytes pmemMemcpy)
    (h : Layout nvmInfo bufferInfo)
    (hdev : Represents nvmInfo bufferInfo memory dev)
    (hop : op.Admitted bufferInfo)
    (hstep : pmemStep pmemMemcpy nvmInfo bufferInfo memory op = some memory')
    (hslot : op.slot = some dstBlock)
    (hs : s < bufferInfo.blockNum.toNat) {record : BufferMeta}
    (hrecord : dstBlock.toNat < bufferInfo.blockNum.toNat →
      readMeta memory' (bufferInfo.metaAddr + metaSize * dstBlock.toNat) =
        record) :
    readMeta memory' (bufferInfo.metaAddr + metaSize * s) =
      Function.update dev.bufferMeta dstBlock.toNat record s := by
  by_cases heq : s = dstBlock.toNat
  · subst heq
    rw [Function.update_self]
    exact hrecord hs
  · rw [Function.update_of_ne heq]
    refine hdev.bufferMeta_of_slot_ne hcopies h hop hstep hs ?_
    intro slot hother
    rw [hslot] at hother
    rw [← Option.some.inj hother]
    exact heq

/-- An operation on a slot leaves the NVM blocks alone. -/
theorem Represents.nvm_of_slot (hcopies : CopiesBytes pmemMemcpy)
    (h : Layout nvmInfo bufferInfo)
    (hdev : Represents nvmInfo bufferInfo memory dev)
    (hop : op.Admitted bufferInfo)
    (hstep : pmemStep pmemMemcpy nvmInfo bufferInfo memory op = some memory')
    (hslot : op.slot ≠ none) (hb : b < nvmInfo.blockNum.toNat) :
    blockAt memory' (nvmInfo.nvmAddr + blockSize * b) = dev.nvm b := by
  rw [blockAt_of_disjoint hcopies h hop hstep
    ((h.zone_disjoint_slot hslot).mono_left (h.zoneBlock_subset hb))]
  exact hdev.nvm b hb

/-- A data block that is not written stays as it is. -/
theorem Represents.buffer_of_ne (hcopies : CopiesBytes pmemMemcpy)
    (h : Layout nvmInfo bufferInfo)
    (hdev : Represents nvmInfo bufferInfo memory dev)
    (hop : op.Admitted bufferInfo)
    (hstep : pmemStep pmemMemcpy nvmInfo bufferInfo memory op = some memory')
    (hs : s < bufferInfo.blockNum.toNat)
    (hother : ∀ src srcBlock dstBlock flags,
      op = .bufferWrite src srcBlock dstBlock flags → s ≠ dstBlock.toNat) :
    blockAt memory' (bufferInfo.bufferAddr + blockSize * s) =
      dev.buffer s := by
  rw [blockAt_of_disjoint hcopies h hop hstep (h.data_disjoint hop hother)]
  exact hdev.buffer s hs

theorem Represents.nvmWrite (hcopies : CopiesBytes pmemMemcpy)
    (h : Layout nvmInfo bufferInfo)
    (hdev : Represents nvmInfo bufferInfo memory dev)
    (hop : (PmemOp.nvmWrite task).Admitted bufferInfo)
    (hstep : pmemStep pmemMemcpy nvmInfo bufferInfo memory
      (.nvmWrite task) = some memory') :
    Represents nvmInfo bufferInfo memory'
      ((PmemOp.nvmWrite task).apply dev) where
  nvm b hb := by
    funext t
    rw [pmemStep, copies_nvmWrite hop] at hstep
    rw [blockAt, ← Option.some.inj hstep]
    refine (hcopies.array task.buf t.isLt).trans ?_
    change _ = (if task.offset ≤ b ∧ b < task.offset + task.len then _
      else dev.nvm b) t
    split_ifs with hin
    · rfl
    · exact congrFun (hdev.nvm b hb) t
  buffer s hs := by
    have hkept := hdev.buffer_of_ne hcopies h hop hstep hs
      fun _ _ _ _ heq => by cases heq
    exact hkept
  bufferMeta s hs := by
    have hkept := hdev.bufferMeta_of_slot_ne hcopies h hop hstep hs
      fun _ heq => by cases heq
    exact hkept

theorem Represents.bufferWrite (hcopies : CopiesBytes pmemMemcpy)
    (h : Layout nvmInfo bufferInfo)
    (hdev : Represents nvmInfo bufferInfo memory dev)
    (hop : (PmemOp.bufferWrite src srcBlock dstBlock flags).Admitted
      bufferInfo)
    (hstep : pmemStep pmemMemcpy nvmInfo bufferInfo memory
      (.bufferWrite src srcBlock dstBlock flags) = some memory') :
    Represents nvmInfo bufferInfo memory'
      ((PmemOp.bufferWrite src srcBlock dstBlock flags).apply dev) where
  nvm b hb := by
    have hkept := hdev.nvm_of_slot hcopies h hop hstep
      (Option.some_ne_none dstBlock) hb
    exact hkept
  buffer s hs := by
    have happly : ((PmemOp.bufferWrite src srcBlock dstBlock flags).apply
        dev).buffer =
          Function.update dev.buffer dstBlock.toNat (blockAt src 0) := rfl
    rw [happly]
    by_cases heq : s = dstBlock.toNat
    · subst heq
      rw [Function.update_self]
      funext t
      rw [pmemStep, copies_bufferWrite h hop] at hstep
      have hdata : bufferInfo.bufferAddr + blockSize * dstBlock.toNat + t ∈
          dataBytes bufferInfo dstBlock.toNat :=
        ⟨Nat.le_add_right _ _, Nat.add_lt_add_left t.isLt _⟩
      rw [blockAt, blockAt, ← Option.some.inj hstep, Nat.zero_add]
      -- the record is written behind the data block
      refine (hcopies.outside _ _ _ _ _ ?_).trans
        (hcopies.inside _ _ _ _ _ t.isLt)
      exact Set.disjoint_right.mp (h.regionsApart.record_data _ hs _) hdata
    · rw [Function.update_of_ne heq]
      refine hdev.buffer_of_ne hcopies h hop hstep hs ?_
      rintro _ _ _ _ hwrite
      cases hwrite
      exact heq
  bufferMeta s hs := by
    refine hdev.bufferMeta_update hcopies h hop hstep rfl hs fun _ => ?_
    rw [← mixBufferGetMeta_natCast h hop]
    exact mixBufferGetMeta_bufferWrite hcopies h hop hstep

/-- The status is zero after a clear, and the other fields are as before. -/
theorem readMeta_bufferClear (hcopies : CopiesBytes pmemMemcpy)
    (h : Layout nvmInfo bufferInfo)
    (hop : (PmemOp.bufferClear dstBlock).Admitted bufferInfo)
    (hstep : pmemStep pmemMemcpy nvmInfo bufferInfo memory
      (.bufferClear dstBlock) = some memory') :
    readMeta memory' (bufferInfo.metaAddr + metaSize * dstBlock.toNat) =
      { readMeta memory (bufferInfo.metaAddr + metaSize * dstBlock.toNat) with
        status := 0 } := by
  have hstatus : readNumber memory'
      (bufferInfo.metaAddr + metaSize * dstBlock.toNat) 8 = 0 := by
    have hread : readNumber memory'
        (bufferInfo.metaAddr + metaSize * dstBlock.toNat) 8 =
          0 % 256 ^ 8 := by
      apply readNumber_of_bytes
      intro i hi
      rw [pmemStep, copies_bufferClear h hop] at hstep
      rw [← Option.some.inj hstep]
      exact hcopies.inside _ _ _ _ i hi
    rw [hread, Nat.zero_mod]
  have hkept : ∀ k, 8 ≤ k → readNumber memory'
      (bufferInfo.metaAddr + metaSize * dstBlock.toNat + k) 8 =
        readNumber memory
          (bufferInfo.metaAddr + metaSize * dstBlock.toNat + k) 8 := by
    intro k hk
    apply readNumber_congr
    intro a ha
    apply pmemStep_of_notMem hcopies h hop hstep
    intro hmem
    have hlow := ha.1
    have hhigh := hmem.2
    omega
  simp only [readMeta, hstatus, hkept 8 (by omega), hkept 16 (by omega),
    hkept 24 (by omega)]

theorem Represents.bufferClear (hcopies : CopiesBytes pmemMemcpy)
    (h : Layout nvmInfo bufferInfo)
    (hdev : Represents nvmInfo bufferInfo memory dev)
    (hop : (PmemOp.bufferClear dstBlock).Admitted bufferInfo)
    (hstep : pmemStep pmemMemcpy nvmInfo bufferInfo memory
      (.bufferClear dstBlock) = some memory') :
    Represents nvmInfo bufferInfo memory'
      ((PmemOp.bufferClear dstBlock).apply dev) where
  nvm b hb := by
    have hkept := hdev.nvm_of_slot hcopies h hop hstep
      (Option.some_ne_none dstBlock) hb
    exact hkept
  buffer s hs := by
    have hkept := hdev.buffer_of_ne hcopies h hop hstep hs
      fun _ _ _ _ heq => by cases heq
    exact hkept
  bufferMeta s hs := by
    refine hdev.bufferMeta_update hcopies h hop hstep rfl hs fun hslot => ?_
    rw [readMeta_bufferClear hcopies h hop hstep, hdev.bufferMeta _ hslot]

/-! ## Runs -/

/-- An operation does to the bytes what it does to the blocks. -/
theorem Represents.step (hcopies : CopiesBytes pmemMemcpy)
    (h : Layout nvmInfo bufferInfo)
    (hdev : Represents nvmInfo bufferInfo memory dev)
    (hop : op.Admitted bufferInfo)
    (hstep : pmemStep pmemMemcpy nvmInfo bufferInfo memory op =
      some memory') :
    Represents nvmInfo bufferInfo memory' (op.apply dev) := by
  cases op with
  | nvmWrite task => exact hdev.nvmWrite hcopies h hop hstep
  | bufferWrite src srcBlock dstBlock flags =>
      exact hdev.bufferWrite hcopies h hop hstep
  | bufferClear dstBlock => exact hdev.bufferClear hcopies h hop hstep

/-- After every run the bytes are those of the devices after the same run. -/
theorem represents_run (hcopies : CopiesBytes pmemMemcpy)
    (h : Layout nvmInfo bufferInfo) {ops : List PmemOp}
    (hops : ∀ op ∈ ops, op.Admitted bufferInfo)
    (hdev : Represents nvmInfo bufferInfo memory dev)
    (hrun : runOps (pmemStep pmemMemcpy nvmInfo bufferInfo) memory ops =
      some memory') :
    Represents nvmInfo bufferInfo memory' (ops.foldl PmemOp.apply dev) := by
  induction ops generalizing memory dev with
  | nil =>
      rw [← Option.some.inj hrun]
      exact hdev
  | cons op ops ih =>
      obtain ⟨hop, hops⟩ := List.forall_mem_cons.mp hops
      exact ih hops (hdev.step hcopies h hop rfl) hrun

/-! ## Reads -/

/-- A read of a slot delivers its block. -/
theorem Represents.bufferRead (h : Layout nvmInfo bufferInfo)
    (hdev : Represents nvmInfo bufferInfo memory dev)
    (hslot : dstBlock < bufferInfo.blockNum) :
    blockAt (mixBufferRead bufferInfo memory src dstBlock) 0 =
      Uhs.mixBufferRead dev dstBlock.toNat := by
  have hoff := toNat_mul_ofNat (show blockSize < 2 ^ 32 by decide)
    (h.slot_lt hslot)
  rw [Uhs.mixBufferRead, ← hdev.buffer _ (UInt64.lt_iff_toNat_lt.mp hslot)]
  funext t
  have ht := t.isLt
  rw [blockAt, mixBufferRead, hoff, memcpy, if_pos ⟨by omega, by omega⟩,
    blockAt, Nat.sub_zero, Nat.zero_add]

/-- A read of the NVM zone delivers the blocks of the task. -/
theorem Represents.nvmRead (h : Layout nvmInfo bufferInfo)
    (hdev : Represents nvmInfo bufferInfo memory dev) {len offset : UInt64}
    (hend : len.toNat + offset.toNat ≤ nvmInfo.blockNum.toNat) (i : ℕ)
    (hi : i < len.toNat) :
    (Uhs.mixNvmRead dev len.toNat offset.toNat)[i]? =
      some (blockAt (mixNvmRead nvmInfo memory src len offset)
        (blockSize * i)) := by
  rw [h.zone] at hend
  have hoff := toNat_mul_ofNat (n := offset)
    (show blockSize < 2 ^ 32 by decide) (by omega)
  have hlen := toNat_mul_ofNat (n := len)
    (show blockSize < 2 ^ 32 by decide) (by omega)
  have hblock := hdev.nvm (offset.toNat + i) (by rw [h.zone]; omega)
  have hlast : blockSize * i + blockSize ≤ blockSize * len.toNat := by
    rw [← Nat.mul_add_one]
    exact Nat.mul_le_mul_left _ hi
  rw [Uhs.mixNvmRead, blocksOf, List.getElem?_map, List.getElem?_range hi,
    Option.map_some, Option.some.injEq, ← hblock]
  funext t
  have ht := t.isLt
  rw [blockAt, blockAt, mixNvmRead, hoff, hlen, memcpy,
    if_pos ⟨by omega, by omega⟩, Nat.sub_zero, Nat.mul_add]
  congr 1
  omega

/-- The record that is read is that of the slot. -/
theorem Represents.bufferGetMeta (h : Layout nvmInfo bufferInfo)
    (hdev : Represents nvmInfo bufferInfo memory dev)
    (hslot : dstBlock < bufferInfo.blockNum) :
    mixBufferGetMeta bufferInfo memory dstBlock.toNat =
      Uhs.mixBufferGetMeta dev dstBlock.toNat := by
  rw [mixBufferGetMeta_natCast h hslot]
  exact hdev.bufferMeta _ (UInt64.lt_iff_toNat_lt.mp hslot)

end Uhs.Pmem
