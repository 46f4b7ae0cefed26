import Uhs.Store.Pmem
import Uhs.Support.Runs

/-!
# The regions of the persistent memory

Behind the mapping the NVM zone, the records and the data blocks have no byte
in common: every operation stays within the bytes of its own task or slot, and
a record is read back as it was written.  The three separate regions of
`Devices` are what the bytes show.
-/

namespace Uhs.Pmem

open Support

/-- What the initialisation and `mix_mmap` leave: the records lie behind the
NVM zone and the data blocks behind the records. -/
structure Layout (nvmInfo : NvmInfo) (bufferInfo : BufferInfo) : Prop where
  zone : nvmInfo.blockNum.toNat = 3 * 1024 * 1024
  capacity : nvmInfo.nvmCapacity.toNat = blockSize * nvmInfo.blockNum.toNat
  slots : bufferInfo.blockNum.toNat = segmentNum * segmentBlockNum
  metaAddr : bufferInfo.metaAddr =
    nvmInfo.nvmAddr + nvmInfo.nvmCapacity.toNat
  bufferAddr : bufferInfo.bufferAddr =
    bufferInfo.metaAddr + metaSize * bufferInfo.blockNum.toNat

variable {pmemMemcpy : ByteMemory → ℕ → ByteMemory → ℕ → ByteMemory}
  {pmemMapFile : ℕ → Option (ℕ × Bool)} {nvmInfo : NvmInfo}
  {bufferInfo : BufferInfo}

theorem mixMmap_layout
    (h : mixMmap pmemMapFile mixNvmInit mixBufferInit =
      some (nvmInfo, bufferInfo)) :
    pmemMapFile pmemLen = some (nvmInfo.nvmAddr, true) ∧
      Layout nvmInfo bufferInfo := by
  rw [mixMmap] at h
  cases hfile : pmemMapFile pmemLen with
  | none =>
      rw [hfile] at h
      cases h
  | some mapping =>
      obtain ⟨mmapAddr, isPmem⟩ := mapping
      rw [hfile] at h
      cases isPmem with
      | false => cases h
      | true =>
          have hzone : mixNvmInit.blockNum.toNat = 3 * 1024 * 1024 := by
            decide
          have hcapacity : mixNvmInit.nvmCapacity.toNat =
              blockSize * mixNvmInit.blockNum.toNat := by decide
          have hslots : mixBufferInit.blockNum.toNat =
              segmentNum * segmentBlockNum := by decide
          have hrecords : (mixBufferInit.blockNum *
              UInt64.ofNat metaSize).toNat =
                metaSize * mixBufferInit.blockNum.toNat := by decide
          obtain ⟨rfl, rfl⟩ := Prod.mk.inj (Option.some.inj h)
          exact ⟨rfl, hzone, hcapacity, hslots, rfl,
            congrArg (mmapAddr + mixNvmInit.nvmCapacity.toNat + ·) hrecords⟩

theorem Layout.slot_lt (h : Layout nvmInfo bufferInfo) {dstBlock : UInt64}
    (hslot : dstBlock < bufferInfo.blockNum) : dstBlock.toNat < 2 ^ 32 := by
  have hlt := UInt64.lt_iff_toNat_lt.mp hslot
  rw [h.slots] at hlt
  exact hlt.trans (by decide)

/-! ## No byte in common -/

/-- All regions lie in the mapping and no two of them have a byte in
common. -/
structure RegionsApart (nvmInfo : NvmInfo) (bufferInfo : BufferInfo) :
    Prop where
  zone_mapped : zoneBytes nvmInfo ⊆ mapped nvmInfo
  data_mapped : ∀ s < bufferInfo.blockNum.toNat,
    dataBytes bufferInfo s ⊆ mapped nvmInfo
  record_mapped : ∀ s < bufferInfo.blockNum.toNat,
    recordBytes bufferInfo s ⊆ mapped nvmInfo
  zone_data : ∀ s, Disjoint (zoneBytes nvmInfo) (dataBytes bufferInfo s)
  zone_record : ∀ s, Disjoint (zoneBytes nvmInfo) (recordBytes bufferInfo s)
  record_data : ∀ s < bufferInfo.blockNum.toNat, ∀ t,
    Disjoint (recordBytes bufferInfo s) (dataBytes bufferInfo t)
  data_data : ∀ s t, s ≠ t →
    Disjoint (dataBytes bufferInfo s) (dataBytes bufferInfo t)
  record_record : ∀ s t, s ≠ t →
    Disjoint (recordBytes bufferInfo s) (recordBytes bufferInfo t)

theorem Layout.regionsApart (h : Layout nvmInfo bufferInfo) :
    RegionsApart nvmInfo bufferInfo := by
  have hmeta := h.metaAddr
  have hbuffer := h.bufferAddr
  have hcapacity := h.capacity
  have hzone := h.zone
  have hslots := h.slots
  rw [segmentNum, segmentBlockNum] at hslots
  rw [blockSize] at hcapacity
  rw [metaSize] at hbuffer
  exact
    { zone_mapped := bytesAt_subset le_rfl (by rw [pmemLen]; omega)
      data_mapped := by
        intro s hs
        refine (cell_subset hs).trans (bytesAt_subset ?_ ?_)
        · omega
        · rw [blockSize, pmemLen]
          omega
      record_mapped := by
        intro s hs
        refine (cell_subset hs).trans (bytesAt_subset ?_ ?_)
        · omega
        · rw [metaSize, pmemLen]
          omega
      zone_data := fun s => bytesAt_disjoint (by omega)
      zone_record := fun s => bytesAt_disjoint (by omega)
      record_data := by
        intro s hs t
        refine Disjoint.mono_left (cell_subset hs) (bytesAt_disjoint ?_)
        rw [metaSize]
        omega
      data_data := fun s t => cell_disjoint
      record_record := fun s t => cell_disjoint }

/-! ## The bytes of an operation -/

/-- The bytes of the blocks of a task, or of the slot of an operation. -/
def PmemOp.bytes (nvmInfo : NvmInfo) (bufferInfo : BufferInfo) :
    PmemOp → Set ℕ
  | .nvmWrite task =>
      bytesAt (nvmInfo.nvmAddr + blockSize * task.offset)
        (blockSize * task.len)
  | .bufferWrite _ _ dstBlock _ =>
      dataBytes bufferInfo dstBlock.toNat ∪
        recordBytes bufferInfo dstBlock.toNat
  | .bufferClear dstBlock => statusBytes bufferInfo dstBlock.toNat

/-- A small product does not wrap around. -/
theorem toNat_mul_ofNat {n : UInt64} {k : ℕ} (hk : k < 2 ^ 32)
    (hn : n.toNat < 2 ^ 32) : (n * UInt64.ofNat k).toNat = k * n.toNat := by
  have hlt : n.toNat * k < 2 ^ 32 * 2 ^ 32 := Nat.mul_lt_mul'' hn hk
  have hword : k % 2 ^ 64 = k := Nat.mod_eq_of_lt (by omega)
  rw [UInt64.toNat_mul, UInt64.toNat_ofNat', hword,
    Nat.mod_eq_of_lt (by omega), Nat.mul_comm]

/-- The bytes of the blocks of a task in the NVM zone. -/
theorem toNat_mul_blockSize {n : ℕ} (hn : n < nvmThreshold) :
    (UInt64.ofNat n * UInt64.ofNat blockSize).toNat = blockSize * n := by
  rw [nvmThreshold] at hn
  have hword : (UInt64.ofNat n).toNat = n := by
    rw [UInt64.toNat_ofNat', Nat.mod_eq_of_lt (by omega)]
  rw [toNat_mul_ofNat (by decide) (by omega), hword]

variable {task : IoTask (BitVec 8)} {src : ByteMemory}
  {srcBlock dstBlock flags : UInt64} {memory memory' : ByteMemory}
  {op : PmemOp}

/-- An NVM task is written to its own blocks. -/
theorem copies_nvmWrite
    (hop : (PmemOp.nvmWrite task).Admitted bufferInfo) :
    (PmemOp.nvmWrite task).copies nvmInfo bufferInfo =
      [{ dst := nvmInfo.nvmAddr + blockSize * task.offset
         src := task.buf
         len := blockSize * task.len }] := by
  obtain ⟨htype, hend⟩ := hop
  have hrouted : mixPostTaskToIo task = { task with type := .nvm } := by
    rw [mixPostTaskToIo] at htype ⊢
    split_ifs at htype ⊢
    rfl
  simp only [PmemOp.copies, hrouted, mixNvmWrite,
    toNat_mul_blockSize (show task.offset < nvmThreshold by omega),
    toNat_mul_blockSize (show task.len < nvmThreshold by omega)]

/-- A slot is written in its data block and its record. -/
theorem copies_bufferWrite (h : Layout nvmInfo bufferInfo)
    (hop : dstBlock < bufferInfo.blockNum) :
    (PmemOp.bufferWrite src srcBlock dstBlock flags).copies nvmInfo
        bufferInfo =
      [{ dst := bufferInfo.bufferAddr + blockSize * dstBlock.toNat
         src := src
         len := blockSize },
       { dst := bufferInfo.metaAddr + metaSize * dstBlock.toNat
         src := metaBytes ⟨1, 0, srcBlock.toNat, flags.toNat⟩
         len := metaSize }] := by
  have hlt := h.slot_lt hop
  simp only [PmemOp.copies, mixBufferWrite, UInt64.mul_comm (UInt64.ofNat _),
    toNat_mul_ofNat (show blockSize < 2 ^ 32 by decide) hlt,
    toNat_mul_ofNat (show metaSize < 2 ^ 32 by decide) hlt]

/-- A slot is cleared in the status field of its record. -/
theorem copies_bufferClear (h : Layout nvmInfo bufferInfo)
    (hop : dstBlock < bufferInfo.blockNum) :
    (PmemOp.bufferClear dstBlock).copies nvmInfo bufferInfo =
      [{ dst := bufferInfo.metaAddr + metaSize * dstBlock.toNat
         src := byteOf 0
         len := 8 }] := by
  simp only [PmemOp.copies, mixBufferClear,
    toNat_mul_ofNat (show metaSize < 2 ^ 32 by decide) (h.slot_lt hop)]

/-- The copies of an operation stay within its bytes. -/
theorem copy_bytes_subset (h : Layout nvmInfo bufferInfo)
    (hop : op.Admitted bufferInfo) :
    ∀ copy ∈ op.copies nvmInfo bufferInfo,
      copy.bytes ⊆ op.bytes nvmInfo bufferInfo := by
  cases op with
  | nvmWrite task =>
      rw [copies_nvmWrite hop]
      exact List.forall_mem_singleton.mpr subset_rfl
  | bufferWrite src srcBlock dstBlock flags =>
      rw [copies_bufferWrite h hop, List.forall_mem_cons]
      refine ⟨Set.subset_union_left, ?_⟩
      exact List.forall_mem_singleton.mpr Set.subset_union_right
  | bufferClear dstBlock =>
      rw [copies_bufferClear h hop]
      exact List.forall_mem_singleton.mpr subset_rfl

/-- An operation changes no byte but its own. -/
theorem pmemStep_of_notMem (hcopies : CopiesBytes pmemMemcpy)
    (h : Layout nvmInfo bufferInfo) (hop : op.Admitted bufferInfo)
    (hstep : pmemStep pmemMemcpy nvmInfo bufferInfo memory op = some memory')
    {a : ℕ} (ha : a ∉ op.bytes nvmInfo bufferInfo) :
    memory' a = memory a := by
  rw [← Option.some.inj hstep]
  apply hcopies.runCopies_of_notMem
  intro copy hcopy hmem
  exact ha (copy_bytes_subset h hop copy hcopy hmem)

/-! ## One operation -/

/-- The bytes that an operation has to leave alone: an NVM write the slots of
the buffer, the others all bytes but those of their own slot, or of its
status. -/
def PmemOp.leaves (bufferInfo : BufferInfo) : PmemOp → Set ℕ
  | .nvmWrite _ => {a | ∃ s < bufferInfo.blockNum.toNat,
      a ∈ dataBytes bufferInfo s ∪ recordBytes bufferInfo s}
  | .bufferWrite _ _ dstBlock _ =>
      (dataBytes bufferInfo dstBlock.toNat ∪
        recordBytes bufferInfo dstBlock.toNat)ᶜ
  | .bufferClear dstBlock => (statusBytes bufferInfo dstBlock.toNat)ᶜ

/-- An operation touches bytes of the mapping alone and changes none that it
has to leave alone. -/
structure Separate
    (pmemMemcpy : ByteMemory → ℕ → ByteMemory → ℕ → ByteMemory)
    (nvmInfo : NvmInfo) (bufferInfo : BufferInfo) (memory : ByteMemory)
    (op : PmemOp) : Prop where
  touched : ∀ copy ∈ op.copies nvmInfo bufferInfo,
    copy.bytes ⊆ mapped nvmInfo
  kept : ∀ memory',
    pmemStep pmemMemcpy nvmInfo bufferInfo memory op = some memory' →
      ∀ a ∈ op.leaves bufferInfo, memory' a = memory a

theorem statusBytes_subset (slot : ℕ) :
    statusBytes bufferInfo slot ⊆ recordBytes bufferInfo slot :=
  bytesAt_subset le_rfl (Nat.add_le_add_left (by decide) _)

/-- The blocks of an NVM task lie in the NVM zone. -/
theorem Layout.bytes_subset_zone (h : Layout nvmInfo bufferInfo)
    (hop : (PmemOp.nvmWrite task).Admitted bufferInfo) :
    (PmemOp.nvmWrite task).bytes nvmInfo bufferInfo ⊆ zoneBytes nvmInfo := by
  have hend := hop.2
  have hcapacity := h.capacity
  rw [h.zone] at hcapacity
  rw [nvmThreshold] at hend
  rw [blockSize] at hcapacity
  apply bytesAt_subset (Nat.le_add_right _ _)
  rw [blockSize]
  omega

theorem Layout.bytes_subset_mapped (h : Layout nvmInfo bufferInfo)
    (hop : op.Admitted bufferInfo) :
    op.bytes nvmInfo bufferInfo ⊆ mapped nvmInfo := by
  have hapart := h.regionsApart
  cases op with
  | nvmWrite task => exact (h.bytes_subset_zone hop).trans hapart.zone_mapped
  | bufferWrite src srcBlock dstBlock flags =>
      have hslot := UInt64.lt_iff_toNat_lt.mp hop
      exact Set.union_subset (hapart.data_mapped _ hslot)
        (hapart.record_mapped _ hslot)
  | bufferClear dstBlock =>
      have hslot := UInt64.lt_iff_toNat_lt.mp hop
      exact (statusBytes_subset _).trans (hapart.record_mapped _ hslot)

/-- What an operation has to leave alone is not among its bytes. -/
theorem Layout.notMem_bytes_of_leaves (h : Layout nvmInfo bufferInfo)
    (hop : op.Admitted bufferInfo) {a : ℕ} (ha : a ∈ op.leaves bufferInfo) :
    a ∉ op.bytes nvmInfo bufferInfo := by
  have hapart := h.regionsApart
  cases op with
  | nvmWrite task =>
      intro hmem
      have hzone := h.bytes_subset_zone hop hmem
      obtain ⟨s, -, hdata | hrecord⟩ := ha
      · exact Set.disjoint_left.mp (hapart.zone_data s) hzone hdata
      · exact Set.disjoint_left.mp (hapart.zone_record s) hzone hrecord
  | bufferWrite src srcBlock dstBlock flags => exact ha
  | bufferClear dstBlock => exact ha

theorem Layout.separate (h : Layout nvmInfo bufferInfo)
    (hcopies : CopiesBytes pmemMemcpy) (hop : op.Admitted bufferInfo)
    (memory : ByteMemory) :
    Separate pmemMemcpy nvmInfo bufferInfo memory op where
  touched copy hcopy :=
    (copy_bytes_subset h hop copy hcopy).trans (h.bytes_subset_mapped hop)
  kept := by
    intro memory' hstep a ha
    exact pmemStep_of_notMem hcopies h hop hstep
      (h.notMem_bytes_of_leaves hop ha)

/-! ## Records -/

/-- The record of a slot of the buffer. -/
theorem mixBufferGetMeta_natCast (h : Layout nvmInfo bufferInfo)
    (hslot : dstBlock < bufferInfo.blockNum) :
    mixBufferGetMeta bufferInfo memory dstBlock.toNat =
      readMeta memory (bufferInfo.metaAddr + metaSize * dstBlock.toNat) := by
  have hlt := h.slot_lt hslot
  have haddr : toSizeT (metaSize * (dstBlock.toNat : ℤ)) =
      metaSize * dstBlock.toNat := by
    rw [toSizeT, metaSize]
    omega
  rw [mixBufferGetMeta, haddr]

/-- The record that was written is read back. -/
theorem mixBufferGetMeta_bufferWrite (hcopies : CopiesBytes pmemMemcpy)
    (h : Layout nvmInfo bufferInfo) (hslot : dstBlock < bufferInfo.blockNum)
    (hstep : pmemStep pmemMemcpy nvmInfo bufferInfo memory
      (.bufferWrite src srcBlock dstBlock flags) = some memory') :
    mixBufferGetMeta bufferInfo memory' dstBlock.toNat =
      ⟨1, 0, srcBlock.toNat, flags.toNat⟩ := by
  rw [mixBufferGetMeta_natCast h hslot, ← Option.some.inj hstep,
    copies_bufferWrite h hslot]
  apply readMeta_metaBytes
  · exact Nat.one_lt_two_pow (by decide)
  · exact Nat.two_pow_pos 64
  · exact srcBlock.toNat_lt
  · exact flags.toNat_lt
  · intro i hi
    exact hcopies.inside _ _ _ _ i hi

/-- A record stays as it is while other slots are written or cleared. -/
theorem readMeta_of_slot_ne (hcopies : CopiesBytes pmemMemcpy)
    (h : Layout nvmInfo bufferInfo) (hop : op.Admitted bufferInfo)
    (hslot : dstBlock < bufferInfo.blockNum)
    (hne : op.slot ≠ some dstBlock)
    (hstep : pmemStep pmemMemcpy nvmInfo bufferInfo memory op =
      some memory') :
    readMeta memory' (bufferInfo.metaAddr + metaSize * dstBlock.toNat) =
      readMeta memory
        (bufferInfo.metaAddr + metaSize * dstBlock.toNat) := by
  have hapart := h.regionsApart
  have hlt := UInt64.lt_iff_toNat_lt.mp hslot
  have hother : ∀ slot : UInt64, some slot ≠ some dstBlock →
      dstBlock.toNat ≠ slot.toNat := by
    intro slot hslots heq
    exact hslots (congrArg some (UInt64.toNat.inj heq.symm))
  apply readMeta_congr
  intro a ha
  apply pmemStep_of_notMem hcopies h hop hstep
  cases op with
  | nvmWrite task =>
      exact fun hmem => Set.disjoint_left.mp (hapart.zone_record _)
        (h.bytes_subset_zone hop hmem) ha
  | bufferWrite src srcBlock slot flags =>
      rintro (hdata | hrecord)
      · exact Set.disjoint_left.mp (hapart.record_data _ hlt _) ha hdata
      · exact Set.disjoint_left.mp
          (hapart.record_record _ _ (hother slot hne)) ha hrecord
  | bufferClear slot =>
      exact fun hstatus => Set.disjoint_left.mp
        (hapart.record_record _ _ (hother slot hne)) ha
        (statusBytes_subset _ hstatus)

/-! ## Runs -/

variable (pmemMemcpy nvmInfo bufferInfo) in
/-- Every run of operations ends. -/
theorem pmemRun_returns (memory : ByteMemory) (ops : List PmemOp) :
    ∃ memory', runOps (pmemStep pmemMemcpy nvmInfo bufferInfo) memory ops =
      some memory' := by
  induction ops generalizing memory with
  | nil => exact ⟨memory, rfl⟩
  | cons op ops ih => exact ih _

theorem Layout.separate_allSteps (h : Layout nvmInfo bufferInfo)
    (hcopies : CopiesBytes pmemMemcpy) (memory : ByteMemory)
    {ops : List PmemOp} (hops : ∀ op ∈ ops, op.Admitted bufferInfo) :
    AllSteps (pmemStep pmemMemcpy nvmInfo bufferInfo)
      (Separate pmemMemcpy nvmInfo bufferInfo) memory ops := by
  have hall : AllSteps (pmemStep pmemMemcpy nvmInfo bufferInfo)
      (fun _ _ => True) memory ops := allSteps_true memory ops
  exact (hall.and_of_forall_mem hops).mono fun memory op hop =>
    h.separate hcopies hop.1 memory

/-- A record stays as it is along a run on other slots. -/
theorem mixBufferGetMeta_of_runOps (hcopies : CopiesBytes pmemMemcpy)
    (h : Layout nvmInfo bufferInfo) (hslot : dstBlock < bufferInfo.blockNum)
    {ops : List PmemOp}
    (hops : ∀ op ∈ ops, op.Admitted bufferInfo ∧ op.slot ≠ some dstBlock)
    (hrun : runOps (pmemStep pmemMemcpy nvmInfo bufferInfo) memory ops =
      some memory') :
    mixBufferGetMeta bufferInfo memory' dstBlock.toNat =
      mixBufferGetMeta bufferInfo memory dstBlock.toNat := by
  rw [mixBufferGetMeta_natCast h hslot, mixBufferGetMeta_natCast h hslot]
  refine inv_of_runOps (I := fun m => readMeta m _ = readMeta memory _)
    (fun m op m' hm hop hstep => ?_) rfl hops hrun
  exact (readMeta_of_slot_ne hcopies h hop.1 hslot hop.2 hstep).trans hm

/-- The regions that the initialisation and `mix_mmap` lay out have no byte in
common, and in every run each operation stays within its own; the record that
a slot was written with is read back until the slot is used again. -/
theorem mixMmap_regions_separate
    (pmemMemcpy : ByteMemory → ℕ → ByteMemory → ℕ → ByteMemory)
    (hcopies : CopiesBytes pmemMemcpy)
    (pmemMapFile : ℕ → Option (ℕ × Bool)) (nvmInfo : NvmInfo)
    (bufferInfo : BufferInfo)
    (hmap : mixMmap pmemMapFile mixNvmInit mixBufferInit =
      some (nvmInfo, bufferInfo))
    (memory : ByteMemory) (ops : List PmemOp)
    (hops : ∀ op ∈ ops, op.Admitted bufferInfo) :
    pmemMapFile pmemLen = some (nvmInfo.nvmAddr, true) ∧
      RegionsApart nvmInfo bufferInfo ∧
      AllSteps (pmemStep pmemMemcpy nvmInfo bufferInfo)
        (Separate pmemMemcpy nvmInfo bufferInfo) memory ops ∧
      ∀ before src srcBlock dstBlock flags after,
        ops = before ++ .bufferWrite src srcBlock dstBlock flags :: after →
        (∀ op ∈ after, op.slot ≠ some dstBlock) →
        ∃ memory',
          runOps (pmemStep pmemMemcpy nvmInfo bufferInfo) memory ops =
            some memory' ∧
          mixBufferGetMeta bufferInfo memory' dstBlock.toNat =
            ⟨1, 0, srcBlock.toNat, flags.toNat⟩ := by
  obtain ⟨hfile, h⟩ := mixMmap_layout hmap
  refine ⟨hfile, h.regionsApart, h.separate_allSteps hcopies memory hops, ?_⟩
  rintro before src srcBlock dstBlock flags after rfl hothers
  obtain ⟨hbefore, hafter⟩ := List.forall_mem_append.mp hops
  obtain ⟨hslot, hafter⟩ := List.forall_mem_cons.mp hafter
  obtain ⟨memory₁, hrun₁⟩ :=
    pmemRun_returns pmemMemcpy nvmInfo bufferInfo memory before
  have hstep : pmemStep pmemMemcpy nvmInfo bufferInfo memory₁
      (.bufferWrite src srcBlock dstBlock flags) = some _ := rfl
  obtain ⟨memory₂, hrun₂⟩ :=
    pmemRun_returns pmemMemcpy nvmInfo bufferInfo _ after
  refine ⟨memory₂, ?_, ?_⟩
  · rw [runOps_append, hrun₁]
    exact hrun₂
  · rw [mixBufferGetMeta_of_runOps hcopies h hslot
      (fun op hop => ⟨hafter op hop, hothers op hop⟩) hrun₂]
    exact mixBufferGetMeta_bufferWrite hcopies h hslot hstep

/-- Slot `3` is written, two blocks of the NVM zone and slot `4` are written,
and slot `4` is cleared. -/
def slotThree : List PmemOp :=
  [.bufferWrite (fun _ => 7) 5 3 2,
    .nvmWrite (initIoTask (fun _ => 1) 2 10 mixWrite 0),
    .bufferWrite (fun _ => 8) 6 4 2, .bufferClear 4]

/-- The layout of a mapping at address `4096`. -/
def lowMapping : NvmInfo × BufferInfo :=
  (mixMmap (fun _ => some (4096, true)) mixNvmInit mixBufferInit).get rfl

/-- The record of slot `3` is read back. -/
theorem mixMmap_regions_separate_slotThree :
    ∃ memory',
      runOps (pmemStep (fun m dst src len => memcpy m dst src 0 len)
        lowMapping.1 lowMapping.2) (fun _ => 0) slotThree = some memory' ∧
      mixBufferGetMeta lowMapping.2 memory' 3 = ⟨1, 0, 5, 2⟩ := by
  have hops : ∀ op ∈ slotThree, op.Admitted lowMapping.2 := by decide
  have hseparate := mixMmap_regions_separate
    (fun m dst src len => memcpy m dst src 0 len) copiesBytes_memcpy
    (fun _ => some (4096, true)) lowMapping.1 lowMapping.2 rfl (fun _ => 0)
    slotThree hops
  obtain ⟨memory', hrun, hrecord⟩ :=
    hseparate.2.2.2 [] (fun _ => 7) 5 3 2 _ rfl (by decide)
  exact ⟨memory', hrun, hrecord⟩

end Uhs.Pmem
