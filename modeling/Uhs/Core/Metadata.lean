import Uhs.Core.Bitmap
import Uhs.Core.Device
import Uhs.Core.Hash
import Uhs.Core.Task
import Uhs.Support.Strides

/-!
# Segment metadata

Model of `mix_meta.c`: the four segments with their bitmaps, counters and hash
indexes, the operations of a worker on its segment, and the work of the
migrate threads.  `migrate` is given here by what its threads do one after the
other; their interleaving is the subject of `Uhs.Migration`.
-/

namespace Uhs

open Support

/-- `SEGMENT_NUM`, which is also `BUFFER_QUEUE_NUM` and `NVM_QUEUE_NUM`. -/
def segmentNum : ℕ := 4

/-- `BLOCK_SIZE`. -/
def blockSize : ℕ := 4096

/-- `free_segment_t`. -/
structure FreeSegment where
  size : ℕ
  blockNum : ℕ
  migration : Bool
  usedBlockNum : ℤ
  bitmap : MixBitmap

/-- `mix_metadata_t`. -/
structure MixMetadata where
  perBlockNum : ℕ
  migrateThreadNum : ℕ
  hash : Fin 4 → MixHash
  segments : Fin 4 → FreeSegment

/-- `mix_free_segment_init`.  The flag `migration` is not initialised: its
value is whatever the allocation held. -/
def mixFreeSegmentInit (size : ℕ) (migration : Bool) : FreeSegment where
  size := size
  blockNum := size / blockSize
  migration := migration
  usedBlockNum := 0
  bitmap := mixBitmapInit (size / blockSize)

/-- `mix_metadata_init`; the size of a segment is computed in `uint32_t`. -/
def mixMetadataInit (blockNum : ℕ) (migration : Fin 4 → Bool) :
    MixMetadata where
  perBlockNum := blockNum / segmentNum
  migrateThreadNum := 8
  hash := fun _ => mixHashInit (blockNum / segmentNum) 100
  segments := fun i =>
    mixFreeSegmentInit (blockSize * (blockNum / segmentNum) % 2 ^ 32)
      (migration i)

/-! ## Updates of one segment -/

namespace MixMetadata

variable (metaData : MixMetadata) (idx : Fin 4)

def setHash (hash : MixHash) : MixMetadata :=
  { metaData with hash := Function.update metaData.hash idx hash }

def setSegment (segment : FreeSegment) : MixMetadata :=
  { metaData with
    segments := Function.update metaData.segments idx segment }

def setBitmap (bitmap : MixBitmap) : MixMetadata :=
  metaData.setSegment idx { metaData.segments idx with bitmap := bitmap }

def addUsed (count : ℤ) : MixMetadata :=
  metaData.setSegment idx { metaData.segments idx with
    usedBlockNum := (metaData.segments idx).usedBlockNum + count }

/-- Physical block of a slot of a segment, computed in `uint32_t`. -/
def bufferBlock (offset : ℤ) : ℕ :=
  ((idx.val * metaData.perBlockNum + offset) % 2 ^ 32).toNat

variable {metaData idx} {j : Fin 4}

@[simp] theorem setHash_self (hash : MixHash) :
    (metaData.setHash idx hash).hash idx = hash := by
  simp [setHash]

theorem setHash_of_ne (hash : MixHash) (hj : j ≠ idx) :
    (metaData.setHash idx hash).hash j = metaData.hash j := by
  simp [setHash, hj]

@[simp] theorem setHash_eq_self :
    metaData.setHash idx (metaData.hash idx) = metaData := by
  simp [setHash]

@[simp] theorem setHash_segments (hash : MixHash) :
    (metaData.setHash idx hash).segments = metaData.segments := rfl

@[simp] theorem setHash_perBlockNum (hash : MixHash) :
    (metaData.setHash idx hash).perBlockNum = metaData.perBlockNum := rfl

@[simp] theorem setHash_migrateThreadNum (hash : MixHash) :
    (metaData.setHash idx hash).migrateThreadNum =
      metaData.migrateThreadNum := rfl

@[simp] theorem setSegment_hash (segment : FreeSegment) :
    (metaData.setSegment idx segment).hash = metaData.hash := rfl

@[simp] theorem setBitmap_hash (bitmap : MixBitmap) :
    (metaData.setBitmap idx bitmap).hash = metaData.hash := rfl

@[simp] theorem setBitmap_self (bitmap : MixBitmap) :
    (metaData.setBitmap idx bitmap).segments idx =
      { metaData.segments idx with bitmap := bitmap } := by
  simp [setBitmap, setSegment]

theorem setBitmap_eq_self {bitmap : MixBitmap}
    (h : bitmap = (metaData.segments idx).bitmap) :
    metaData.setBitmap idx bitmap = metaData := by
  subst h
  simp [setBitmap, setSegment]

theorem setBitmap_of_ne (bitmap : MixBitmap) (hj : j ≠ idx) :
    (metaData.setBitmap idx bitmap).segments j = metaData.segments j := by
  simp [setBitmap, setSegment, hj]

@[simp] theorem setBitmap_perBlockNum (bitmap : MixBitmap) :
    (metaData.setBitmap idx bitmap).perBlockNum = metaData.perBlockNum := rfl

@[simp] theorem setBitmap_migrateThreadNum (bitmap : MixBitmap) :
    (metaData.setBitmap idx bitmap).migrateThreadNum =
      metaData.migrateThreadNum := rfl

@[simp] theorem addUsed_hash (count : ℤ) :
    (metaData.addUsed idx count).hash = metaData.hash := rfl

@[simp] theorem addUsed_self (count : ℤ) :
    (metaData.addUsed idx count).segments idx =
      { metaData.segments idx with
        usedBlockNum := (metaData.segments idx).usedBlockNum + count } := by
  simp [addUsed, setSegment]

theorem addUsed_of_ne (count : ℤ) (hj : j ≠ idx) :
    (metaData.addUsed idx count).segments j = metaData.segments j := by
  simp [addUsed, setSegment, hj]

@[simp] theorem addUsed_perBlockNum (count : ℤ) :
    (metaData.addUsed idx count).perBlockNum = metaData.perBlockNum := rfl

@[simp] theorem addUsed_migrateThreadNum (count : ℤ) :
    (metaData.addUsed idx count).migrateThreadNum =
      metaData.migrateThreadNum := rfl

/-- Outside segment `idx` nothing has changed. -/
structure SameElsewhere (idx : Fin 4) (m m' : MixMetadata) : Prop where
  perBlockNum : m'.perBlockNum = m.perBlockNum
  migrateThreadNum : m'.migrateThreadNum = m.migrateThreadNum
  hash_ne : ∀ j, j ≠ idx → m'.hash j = m.hash j
  segments_ne : ∀ j, j ≠ idx → m'.segments j = m.segments j

theorem SameElsewhere.refl (idx : Fin 4) (m : MixMetadata) :
    SameElsewhere idx m m :=
  ⟨rfl, rfl, fun _ _ => rfl, fun _ _ => rfl⟩

theorem SameElsewhere.trans {m m' m'' : MixMetadata}
    (h : SameElsewhere idx m m') (h' : SameElsewhere idx m' m'') :
    SameElsewhere idx m m'' where
  perBlockNum := h'.perBlockNum.trans h.perBlockNum
  migrateThreadNum := h'.migrateThreadNum.trans h.migrateThreadNum
  hash_ne := fun j hj => (h'.hash_ne j hj).trans (h.hash_ne j hj)
  segments_ne := fun j hj => (h'.segments_ne j hj).trans (h.segments_ne j hj)

theorem sameElsewhere_setHash (metaData : MixMetadata) (idx : Fin 4)
    (hash : MixHash) :
    SameElsewhere idx metaData (metaData.setHash idx hash) :=
  ⟨rfl, rfl, fun _ hj => setHash_of_ne hash hj, fun _ _ => rfl⟩

theorem sameElsewhere_setBitmap (metaData : MixMetadata) (idx : Fin 4)
    (bitmap : MixBitmap) :
    SameElsewhere idx metaData (metaData.setBitmap idx bitmap) :=
  ⟨rfl, rfl, fun _ _ => rfl, fun _ hj => setBitmap_of_ne bitmap hj⟩

theorem sameElsewhere_addUsed (metaData : MixMetadata) (idx : Fin 4)
    (count : ℤ) : SameElsewhere idx metaData (metaData.addUsed idx count) :=
  ⟨rfl, rfl, fun _ _ => rfl, fun _ hj => addUsed_of_ne count hj⟩

theorem bufferBlock_congr {other : MixMetadata}
    (h : other.perBlockNum = metaData.perBlockNum) (i : Fin 4) (offset : ℤ) :
    other.bufferBlock i offset = metaData.bufferBlock i offset := by
  simp [bufferBlock, h]

/-- Without wrap-around the block of a slot is `idx * per_block_num + slot`. -/
theorem bufferBlock_natCast (hper : metaData.perBlockNum < 2 ^ 20) {slot : ℕ}
    (hslot : slot < metaData.perBlockNum) :
    metaData.bufferBlock idx slot =
      idx.val * metaData.perBlockNum + slot := by
  have hidx := idx.isLt
  have hmul : idx.val * metaData.perBlockNum ≤ 3 * metaData.perBlockNum :=
    Nat.mul_le_mul_right _ (by omega)
  have hcast : ((idx.val * metaData.perBlockNum + slot : ℤ)) =
      ((idx.val * metaData.perBlockNum + slot : ℕ) : ℤ) := by
    push_cast
    rfl
  rw [bufferBlock, hcast, Int.emod_eq_of_lt (by omega) (by omega),
    Int.toNat_natCast]

/-- Blocks of different segments, or of different slots, differ. -/
theorem bufferBlock_inj {i : Fin 4} (hper : metaData.perBlockNum < 2 ^ 20)
    {u v : ℕ} (hu : u < metaData.perBlockNum) (hv : v < metaData.perBlockNum)
    (h : metaData.bufferBlock i u = metaData.bufferBlock j v) :
    i = j ∧ u = v := by
  rw [bufferBlock_natCast hper hu,
    bufferBlock_natCast hper hv] at h
  have hdiv : ∀ a w, w < metaData.perBlockNum →
      (a * metaData.perBlockNum + w) / metaData.perBlockNum = a := by
    intro a w hw
    rw [Nat.add_comm, Nat.add_mul_div_right _ _ (by omega),
      Nat.div_eq_of_lt hw, Nat.zero_add]
  have hij : i = j := by
    apply Fin.ext
    rw [← hdiv i.val u hu, h, hdiv j.val v hv]
  subst hij
  exact ⟨rfl, by omega⟩

end MixMetadata

/-! ## Slots -/

/-- `mix_get_next_free_block`: a slot, or `-1` when the segment is full. -/
def mixGetNextFreeBlock (metaData : MixMetadata) (idx : Fin 4) :
    Option (ℤ × MixMetadata) :=
  if (metaData.segments idx).usedBlockNum = metaData.perBlockNum then
    some (-1, metaData)
  else
    (mixBitmapNextZeroBit (metaData.segments idx).bitmap).map fun r =>
      (r.1, metaData.setBitmap idx r.2)

/-- The bitmap bit that `mix_write_redirect_blockmeta` computes for a slot:
`(value - idx) / SEGMENT_NUM` in `int`, stored in a `uint32_t`. -/
def guardBit (idx : Fin 4) (value : ℤ) : ℕ :=
  (Int.tdiv (value - idx.val) segmentNum % 2 ^ 32).toNat

/-- `mix_write_redirect_blockmeta`, which always returns `false`. -/
def mixWriteRedirectBlockmeta (metaData : MixMetadata) (idx : Fin 4)
    (offset : ℕ) (value : ℤ) : Option MixMetadata :=
  let (old, bitmap) :=
    mixBitmapSetBit (metaData.segments idx).bitmap (guardBit idx value)
  let metaData := metaData.setBitmap idx bitmap
  -- `mix_bitmap_set_bit` gives the old bit, so a clear bit ends the call here
  if !old then
    some metaData
  else
    (mixHashPut (metaData.hash idx) (offset % 2 ^ 32)
      (value % 2 ^ 32).toNat).map fun hash =>
      (metaData.setHash idx hash).addUsed idx 1

/-- The bit of a stored value, `value % per_block_num` in `uint32_t`. -/
def valueBit (metaData : MixMetadata) (value : ℤ) : ℕ :=
  (value % 2 ^ 32).toNat % metaData.perBlockNum

/-- `mix_buffer_block_test`: the slot of a buffered block, or `-1`. -/
def mixBufferBlockTest (metaData : MixMetadata) (offset : ℕ) (idx : Fin 4) :
    ℤ :=
  let value := mixHashGet (metaData.hash idx) (offset % 2 ^ 32)
  if value = -1 then
    -1
  else if !mixBitmapTestBit (metaData.segments idx).bitmap
      (valueBit metaData value) then
    -1
  else
    value

/-- `mix_buffer_migrating`. -/
def mixBufferMigrating (metaData : MixMetadata) : Bool :=
  (metaData.segments 0).migration && (metaData.segments 1).migration &&
    (metaData.segments 2).migration && (metaData.segments 3).migration

/-! ## Operations that also touch the devices -/

/-- The volatile metadata and the devices. -/
structure Store (σ β : Type*) where
  metaData : MixMetadata
  dev : Devices σ β

variable {σ β : Type*}

/-- One round of the loop of `mix_clear_block`, on the block `lba`; `none`
when the block is not in the hash. -/
def clearOne (s : Store σ β) (idx : Fin 4) (lba : ℕ) : Option (Store σ β) :=
  let value := mixHashGet (s.metaData.hash idx) (lba % 2 ^ 32)
  if value = -1 then
    none
  else
    let metaData := s.metaData.setHash idx
      (mixHashDelete (s.metaData.hash idx) (lba % 2 ^ 32))
    let bit := valueBit s.metaData value
    let metaData := metaData.setBitmap idx
      (mixBitmapClearBit (metaData.segments idx).bitmap bit).2
    some {
      metaData := metaData.addUsed idx (-1)
      dev := mixBufferClear s.dev (s.metaData.bufferBlock idx bit) }

/-- The loop of `mix_clear_block` over the blocks `offset`,
`offset + BUFFER_QUEUE_NUM`, ...  It returns at the first unmapped one. -/
def clearFrom (idx : Fin 4) : ℕ → ℕ → Store σ β → Store σ β
  | 0, _, s => s
  | len + 1, lba, s =>
      match clearOne s idx lba with
      | none => s
      | some s => clearFrom idx len (lba + segmentNum) s

/-- `mix_clear_block`. -/
def mixClearBlock (s : Store σ β) (task : IoTask β) (idx : Fin 4) :
    Store σ β :=
  clearFrom idx task.len task.offset s

/-- The loop of `mix_buffer_rebuild` over the slots below `off`. -/
def rebuildBelow (dev : Devices σ β) (idx : Fin 4) :
    ℕ → MixMetadata → Option MixMetadata
  | 0, metaData => some metaData
  | off + 1, metaData =>
      (rebuildBelow dev idx off metaData).bind fun metaData =>
        let bufferMeta := mixBufferGetMeta dev (metaData.bufferBlock idx off)
        if bufferMeta.status % 2 = 1 then
          let metaData := metaData.setBitmap idx
            (mixBitmapSetBit (metaData.segments idx).bitmap off).2
          let metaData := metaData.addUsed idx 1
          (mixHashPut (metaData.hash idx) (bufferMeta.offset % 2 ^ 32)
            off).map (metaData.setHash idx)
        else
          some metaData

/-- `mix_buffer_rebuild`. -/
def mixBufferRebuild (metaData : MixMetadata) (dev : Devices σ β)
    (idx : Fin 4) : Option MixMetadata :=
  rebuildBelow dev idx metaData.perBlockNum metaData

/-- `mix_segment_clear`: zero the status word of every slot. -/
def mixSegmentClear (s : Store σ β) (idx : Fin 4) : Store σ β :=
  { s with
    dev := (List.range s.metaData.perBlockNum).foldl
      (fun dev (i : ℕ) => mixBufferClear dev (s.metaData.bufferBlock idx i))
      s.dev }

/-- `mix_rebuild`, which `mix_segments_clear` calls, on running workers: they
have rebuilt their segments once, and nobody waits for the flag any more. -/
def mixRebuild (s : Store σ β) : Store σ β :=
  (List.finRange 4).foldl mixSegmentClear s

variable [BlockDevice σ β]

/-- `migrate_from_buffer_to_ssd`; the third argument only selects the staging
buffer. -/
def migrateFromBufferToSsd (dev : Devices σ β) (src dst : ℕ) : Devices σ β :=
  let migrateBuf := mixBufferRead dev src
  let dev := mixSsdWrite dev (fun _ => migrateBuf) 1 dst
  mixBufferClear dev src

/-- The pair with which a migrate thread leaves a bucket. -/
def IsSentinel (kv : MixKv) : Prop := kv.1 = uint32Max ∨ kv.2 = uint32Max

instance : DecidablePred IsSentinel := fun kv =>
  inferInstanceAs (Decidable (kv.1 = uint32Max ∨ kv.2 = uint32Max))

/-- The inner loop of `migrate`, which drains one bucket. -/
def migrateBucket (idx : Fin 4) (migrateIdx : ℕ) :
    ℕ → Store σ β → Store σ β
  | 0, s => s
  | fuel + 1, s =>
      let (kv, hash) := mixHashGetEntryByIdx (s.metaData.hash idx) migrateIdx
      let metaData := s.metaData.setHash idx hash
      if IsSentinel kv then
        { s with metaData := metaData }
      else
        migrateBucket idx migrateIdx fuel {
          metaData := metaData.addUsed idx (-1)
          dev := migrateFromBufferToSsd s.dev kv.2 kv.1 }

/-- Drain one bucket; every round but the last one pops a node. -/
def drainBucket (idx : Fin 4) (s : Store σ β) (migrateIdx : ℕ) : Store σ β :=
  migrateBucket idx migrateIdx
    (((s.metaData.hash idx).hashNodes migrateIdx).list.length + 1) s

/-- One pass of a migrate thread over the buckets of its residue class. -/
def migrateThread (idx : Fin 4) (s : Store σ β) (threadIdx : ℕ) : Store σ β :=
  (stride (s.metaData.hash idx).hashSize s.metaData.migrateThreadNum
    threadIdx).foldl (drainBucket idx) s

/-- `mix_segment_migration_end`, once every thread is done. -/
def mixSegmentMigrationEnd (s : Store σ β) (idx : Fin 4) : Store σ β :=
  let bitmap := mixBitmapClear (s.metaData.segments idx).bitmap
  { s with metaData := s.metaData.setBitmap idx bitmap }

end Uhs
