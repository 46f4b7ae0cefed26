import Uhs.Core.Device
import Uhs.Core.Metadata
import Uhs.Store.Request
import Uhs.Support.Copies

/-!
# The persistent memory, byte by byte

Model of the mapping of `nvm.cpp` and of its accesses.  The NVM zone, the
metadata records and the data blocks of the buffer lie one behind the other in
one mapping, which is a part of a memory of bytes.  A pointer is an address;
`size_t` wraps around.  A write is the list of its `pmem_memcpy` calls, in
order; `pmem_memcpy` and `pmem_map_file` are functions of a library and taken as
parameters.  The calls of `malloc` succeed.
-/

namespace Uhs.Pmem

open Support

/-! ## The layout -/

/-- `PMEM_LEN`. -/
def pmemLen : ℕ := 16 * 1024 * 1024 * 1024

/-- `META_SIZE`, the size of the packed `buffer_meta_t`. -/
def metaSize : ℕ := 32

/-- `SEGMENT_BLOCK_NUM`. -/
def segmentBlockNum : ℕ := 512

/-- `nvm_info_t`. -/
structure NvmInfo where
  nvmAddr : ℕ
  blockNum : UInt64
  perBlockNum : UInt64
  nvmCapacity : UInt64
  blockSize : ℕ
  queueNum : ℕ

/-- `buffer_info_t`. -/
structure BufferInfo where
  bufferAddr : ℕ
  metaAddr : ℕ
  blockNum : UInt64
  bufferCapacity : UInt64
  segmentNum : ℕ

/-- `mix_nvm_init`. -/
def mixNvmInit : NvmInfo :=
  let blockNum : UInt64 := 3 * 1024 * 1024
  let queueNum := 4
  { nvmAddr := 0
    blockNum := blockNum
    perBlockNum := blockNum / UInt64.ofNat queueNum
    nvmCapacity := blockNum * UInt64.ofNat blockSize
    blockSize := blockSize
    queueNum := queueNum }

/-- `mix_buffer_init`. -/
def mixBufferInit : BufferInfo :=
  let blockNum := UInt64.ofNat (segmentNum * segmentBlockNum)
  { bufferAddr := 0
    metaAddr := 0
    blockNum := blockNum
    bufferCapacity := blockNum * UInt64.ofNat (blockSize + metaSize)
    segmentNum := segmentNum }

/-- `mix_mmap`; `pmemMapFile` is the answer of `pmem_map_file` to a length: the
address of the mapping, and whether it is persistent memory.  In the other
cases the program ends. -/
def mixMmap (pmemMapFile : ℕ → Option (ℕ × Bool)) (nvmInfo : NvmInfo)
    (bufferInfo : BufferInfo) : Option (NvmInfo × BufferInfo) :=
  match pmemMapFile pmemLen with
  | none => none
  | some (mmapAddr, isPmem) =>
      if !isPmem then none
      else
        let metaAddr := mmapAddr + nvmInfo.nvmCapacity.toNat
        some
          ({ nvmInfo with nvmAddr := mmapAddr },
            { bufferInfo with
              metaAddr := metaAddr
              bufferAddr := metaAddr +
                (bufferInfo.blockNum * UInt64.ofNat metaSize).toNat })

/-! ## The accesses -/

/-- The bytes of a `buffer_meta_t`. -/
def metaBytes (record : BufferMeta) : ByteMemory := fun i =>
  if i < 8 then byteOf record.status i
  else if i < 16 then byteOf record.timestamp (i - 8)
  else if i < 24 then byteOf record.offset (i - 16)
  else byteOf record.flags (i - 24)

/-- The `buffer_meta_t` at an address. -/
def readMeta (memory : ByteMemory) (a : ℕ) : BufferMeta where
  status := readNumber memory a 8
  timestamp := readNumber memory (a + 8) 8
  offset := readNumber memory (a + 16) 8
  flags := readNumber memory (a + 24) 8

/-- `mix_nvm_read`, which copies to `dst`. -/
def mixNvmRead (nvmInfo : NvmInfo) (memory dst : ByteMemory)
    (len offset : UInt64) : ByteMemory :=
  memcpy dst 0 memory
    (nvmInfo.nvmAddr + (offset * UInt64.ofNat blockSize).toNat)
    (len * UInt64.ofNat blockSize).toNat

/-- `mix_nvm_write`. -/
def mixNvmWrite (nvmInfo : NvmInfo) (src : ByteMemory)
    (len offset : UInt64) : List Copy :=
  let l := len * UInt64.ofNat blockSize
  let off := offset * UInt64.ofNat blockSize
  [{ dst := nvmInfo.nvmAddr + off.toNat, src := src, len := l.toNat }]

/-- `mix_buffer_read`, which copies to `src`. -/
def mixBufferRead (bufferInfo : BufferInfo) (memory src : ByteMemory)
    (dstBlock : UInt64) : ByteMemory :=
  memcpy src 0 memory
    (bufferInfo.bufferAddr + (dstBlock * UInt64.ofNat blockSize).toNat)
    blockSize

/-- `mix_buffer_write`. -/
def mixBufferWrite (bufferInfo : BufferInfo) (src : ByteMemory)
    (srcBlock dstBlock flags : UInt64) : List Copy :=
  let record : BufferMeta :=
    { flags := flags.toNat
      status := 1
      timestamp := 0
      offset := srcBlock.toNat }
  [{ dst := bufferInfo.bufferAddr +
       (dstBlock * UInt64.ofNat blockSize).toNat
     src := src
     len := blockSize },
   { dst := bufferInfo.metaAddr + (UInt64.ofNat metaSize * dstBlock).toNat
     src := metaBytes record
     len := metaSize }]

/-- `mix_buffer_clear`. -/
def mixBufferClear (bufferInfo : BufferInfo) (dstBlock : UInt64) :
    List Copy :=
  let status := 0
  [{ dst := bufferInfo.metaAddr + (dstBlock * UInt64.ofNat metaSize).toNat
     src := byteOf status
     len := 8 }]

/-- `mix_buffer_get_meta`, whose `dst_block` is an `int`. -/
def mixBufferGetMeta (bufferInfo : BufferInfo) (memory : ByteMemory)
    (dstBlock : ℤ) : BufferMeta :=
  readMeta memory (bufferInfo.metaAddr + toSizeT (metaSize * dstBlock))

/-! ## Operations -/

/-- A write of an NVM task, or one of a buffer slot. -/
inductive PmemOp
  | nvmWrite (task : IoTask (BitVec 8))
  | bufferWrite (src : ByteMemory) (srcBlock dstBlock flags : UInt64)
  | bufferClear (dstBlock : UInt64)

/-- The copies of an operation; a task is one that `mix_post_task_to_io` has
routed. -/
def PmemOp.copies (nvmInfo : NvmInfo) (bufferInfo : BufferInfo) :
    PmemOp → List Copy
  | .nvmWrite task =>
      let routed := mixPostTaskToIo task
      mixNvmWrite nvmInfo routed.buf (UInt64.ofNat routed.len)
        (UInt64.ofNat routed.offset)
  | .bufferWrite src srcBlock dstBlock flags =>
      mixBufferWrite bufferInfo src srcBlock dstBlock flags
  | .bufferClear dstBlock => mixBufferClear bufferInfo dstBlock

/-- The memory after an operation. -/
def pmemStep (pmemMemcpy : ByteMemory → ℕ → ByteMemory → ℕ → ByteMemory)
    (nvmInfo : NvmInfo) (bufferInfo : BufferInfo) (memory : ByteMemory)
    (op : PmemOp) : Option ByteMemory :=
  some (runCopies pmemMemcpy memory (op.copies nvmInfo bufferInfo))

/-- The task goes to the NVM zone and ends before the threshold, the slot is
one of the buffer. -/
def PmemOp.Admitted (bufferInfo : BufferInfo) : PmemOp → Prop
  | .nvmWrite task => (mixPostTaskToIo task).type = .nvm ∧
      task.offset + task.len < nvmThreshold
  | .bufferWrite _ _ dstBlock _ => dstBlock < bufferInfo.blockNum
  | .bufferClear dstBlock => dstBlock < bufferInfo.blockNum

instance (bufferInfo : BufferInfo) :
    DecidablePred (PmemOp.Admitted bufferInfo)
  | .nvmWrite _ => inferInstanceAs (Decidable (_ ∧ _))
  | .bufferWrite _ _ _ _ => inferInstanceAs (Decidable (_ < _))
  | .bufferClear _ => inferInstanceAs (Decidable (_ < _))

/-- The buffer slot of an operation. -/
def PmemOp.slot : PmemOp → Option UInt64
  | .nvmWrite _ => none
  | .bufferWrite _ _ dstBlock _ => some dstBlock
  | .bufferClear dstBlock => some dstBlock

/-! ## The regions -/

/-- The bytes of the mapping. -/
def mapped (nvmInfo : NvmInfo) : Set ℕ := bytesAt nvmInfo.nvmAddr pmemLen

/-- The NVM zone. -/
def zoneBytes (nvmInfo : NvmInfo) : Set ℕ :=
  bytesAt nvmInfo.nvmAddr nvmInfo.nvmCapacity.toNat

/-- The data block of a slot. -/
def dataBytes (bufferInfo : BufferInfo) (slot : ℕ) : Set ℕ :=
  cell bufferInfo.bufferAddr blockSize slot

/-- The metadata record of a slot. -/
def recordBytes (bufferInfo : BufferInfo) (slot : ℕ) : Set ℕ :=
  cell bufferInfo.metaAddr metaSize slot

/-- The status field of the record of a slot, its first. -/
def statusBytes (bufferInfo : BufferInfo) (slot : ℕ) : Set ℕ :=
  bytesAt (bufferInfo.metaAddr + metaSize * slot) 8

/-! ## Records -/

/-- A record is read back from its bytes. -/
theorem readMeta_metaBytes {memory : ByteMemory} {a : ℕ} {record : BufferMeta}
    (hstatus : record.status < 2 ^ 64) (htimestamp : record.timestamp < 2 ^ 64)
    (hoffset : record.offset < 2 ^ 64) (hflags : record.flags < 2 ^ 64)
    (h : ∀ i < metaSize, memory (a + i) = metaBytes record i) :
    readMeta memory a = record := by
  have hfield : ∀ {v k : ℕ}, v < 2 ^ 64 → k + 8 ≤ metaSize →
      (∀ i < 8, metaBytes record (k + i) = byteOf v i) →
      readNumber memory (a + k) 8 = v := by
    intro v k hv hk hbytes
    have hread : readNumber memory (a + k) 8 = v % 256 ^ 8 := by
      apply readNumber_of_bytes
      intro i hi
      rw [Nat.add_assoc, h (k + i) (by omega), hbytes i hi]
    have hsize : 256 ^ 8 = 2 ^ 64 := by decide
    rw [hread, hsize, Nat.mod_eq_of_lt hv]
  have h₀ := hfield (k := 0) hstatus (by decide) fun i hi => by
    simp [metaBytes, hi]
  have h₁ := hfield (k := 8) htimestamp (by decide) fun i hi => by
    have hlt : 8 + i < 16 := by omega
    simp [metaBytes, hlt]
  have h₂ := hfield (k := 16) hoffset (by decide) fun i hi => by
    have hge : ¬ 16 + i < 8 := by omega
    have hlt : 16 + i < 24 := by omega
    simp [metaBytes, hge, hlt]
  have h₃ := hfield (k := 24) hflags (by decide) fun i hi => by
    have hge : ¬ 24 + i < 8 := by omega
    have hge' : ¬ 24 + i < 16 := by omega
    simp [metaBytes, hge, hge']
  rw [Nat.add_zero] at h₀
  rw [readMeta, h₀, h₁, h₂, h₃]

theorem readMeta_congr {memory memory' : ByteMemory} {a : ℕ}
    (h : ∀ b ∈ bytesAt a metaSize, memory' b = memory b) :
    readMeta memory' a = readMeta memory a := by
  have hfield : ∀ k, k + 8 ≤ metaSize →
      readNumber memory' (a + k) 8 = readNumber memory (a + k) 8 := by
    intro k hk
    apply readNumber_congr
    intro b hb
    apply h
    exact bytesAt_subset (Nat.le_add_right a k) (by omega) hb
  have h₀ := hfield 0 (by decide)
  rw [Nat.add_zero] at h₀
  rw [readMeta, readMeta, h₀, hfield 8 (by decide), hfield 16 (by decide),
    hfield 24 (by decide)]

end Uhs.Pmem
