import Uhs.Segment.Index
import Uhs.Support.Runs

/-!
# Runs of one segment

The operations that a worker applies to its segment, the freshly initialised
segment, and the invariant of the index along a run.  A pair with the key
`2 ^ 32 - 1` ends the drain of its bucket, so a migration must not meet it.
-/

namespace Uhs

open Support

/-- Operations on a segment. -/
inductive SegmentOp (β : Type*)
  | write (task : IoTask β)
  | clear (task : IoTask β)
  | migrate

/-- Sizes for which `per_block_num` is a positive multiple of 8 below
`2 ^ 20`. -/
structure ValidSize (blockNum : ℕ) : Prop where
  pos : 0 < blockNum / segmentNum
  dvd : 8 ∣ blockNum / segmentNum
  lt : blockNum / segmentNum < 2 ^ 20

instance (blockNum : ℕ) : Decidable (ValidSize blockNum) :=
  decidable_of_iff
    (0 < blockNum / segmentNum ∧ 8 ∣ blockNum / segmentNum ∧
      blockNum / segmentNum < 2 ^ 20)
    ⟨fun h => ⟨h.1, h.2.1, h.2.2⟩, fun h => ⟨h.pos, h.dvd, h.lt⟩⟩

section Fresh

variable {blockNum : ℕ} (migration : Fin 4 → Bool) (idx : Fin 4)

theorem mixMetadataInit_entries :
    ((mixMetadataInit blockNum migration).hash idx).entries = [] :=
  mixHashInit_entries _ _

theorem mixMetadataInit_ready (hsize : ValidSize blockNum) :
    ((mixMetadataInit blockNum migration).segments idx).bitmap.Ready
      (blockNum / segmentNum) := by
  obtain ⟨hpos, ⟨k, hk⟩, hlt⟩ := hsize
  have hbytes : blockSize * (blockNum / segmentNum) % 2 ^ 32 / blockSize =
      blockNum / segmentNum := by
    rw [blockSize]
    omega
  refine ⟨?_, by omega, hpos⟩
  simp only [mixMetadataInit, mixFreeSegmentInit, mixBitmapInit,
    MixBitmap.bits, hbytes, bitsPerByte]
  omega

theorem testBit_mixMetadataInit (i : ℕ) :
    testBit ((mixMetadataInit blockNum migration).segments idx).bitmap.array i
      = false := by
  simp [mixMetadataInit, mixFreeSegmentInit, mixBitmapInit,
    testBit_eq_getLsbD]

/-- A freshly initialised segment is well formed. -/
theorem mixMetadataInit_indexInv (hsize : ValidSize blockNum) :
    IndexInv idx (mixMetadataInit blockNum migration) := by
  refine IndexInv.of_empty ?_ (mixMetadataInit_entries migration idx) rfl
  exact
    { per_lt := hsize.lt
      threads_pos := by simp [mixMetadataInit]
      wf := mixHashInit_wf _ (by decide)
      ready := mixMetadataInit_ready migration idx hsize }

end Fresh

variable {σ β : Type*}

/-- The store after `mix_metadata_init`. -/
def freshStore (blockNum : ℕ) (migration : Fin 4 → Bool)
    (dev : Devices σ β) : Store σ β :=
  ⟨mixMetadataInit blockNum migration, dev⟩

variable [BlockDevice σ β] {idx : Fin 4} {s s' : Store σ β}

/-- One operation on segment `idx`. -/
def segmentStep (idx : Fin 4) (s : Store σ β) :
    SegmentOp β → Option (Store σ β)
  | .write task => (redirectWrite s task idx).map Prod.snd
  | .clear task => some (mixClearBlock s task idx)
  | .migrate => some (mixMigrateSegment s idx)

theorem segmentStep_write {task : IoTask β}
    (h : segmentStep idx s (.write task) = some s') :
    ∃ choice, redirectSlot s task idx = some choice ∧
      s' = choice.write task idx := by
  simp only [segmentStep, redirectWrite, Option.map_map,
    Option.map_eq_some_iff] at h
  obtain ⟨choice, hslot, rfl⟩ := h
  exact ⟨choice, hslot, rfl⟩

theorem segmentStep_write_eq {task : IoTask β} {choice : SlotChoice σ β}
    (h : redirectSlot s task idx = some choice) :
    segmentStep idx s (.write task) = some (choice.write task idx) := by
  simp [segmentStep, redirectWrite, h]

/-- The operation is about to migrate the segment. -/
def Migrates (idx : Fin 4) (s : Store σ β) : SegmentOp β → Prop
  | .write task =>
      lbaKey task.offset ∉ (s.metaData.hash idx).keys ∧ IsFull idx s.metaData
  | .clear _ => False
  | .migrate => True

/-- No migration starts while the block `2 ^ 32 - 1` is mapped. -/
def DrainsCleanly (idx : Fin 4) (s : Store σ β) (op : SegmentOp β) : Prop :=
  Migrates idx s op → uint32Max ∉ (s.metaData.hash idx).keys

instance : DecidablePred (Migrates idx s)
  | .write _ => inferInstanceAs (Decidable (_ ∧ _))
  | .clear _ => inferInstanceAs (Decidable False)
  | .migrate => inferInstanceAs (Decidable True)

instance : DecidablePred (DrainsCleanly idx s) := fun _ =>
  inferInstanceAs (Decidable (_ → _))

theorem segmentStep_indexInv {op : SegmentOp β}
    (hinv : IndexInv idx s.metaData) (hclean : DrainsCleanly idx s op)
    (h : segmentStep idx s op = some s') : IndexInv idx s'.metaData := by
  cases op with
  | write task =>
      obtain ⟨choice, hslot, rfl⟩ := segmentStep_write h
      exact redirectSlot_indexInv hinv
        (fun hkey hfull => hclean ⟨hkey, hfull⟩) hslot
  | clear task =>
      simp only [segmentStep, Option.some.injEq] at h
      subst h
      exact mixClearBlock_indexInv hinv task
  | migrate =>
      simp only [segmentStep, Option.some.injEq] at h
      subst h
      exact (mixMigrateSegment_indexInv hinv (hclean trivial)).1

/-- Along a run whose migrations do not meet the block `2 ^ 32 - 1` the index
stays well formed. -/
theorem indexInv_of_runOps {blockNum : ℕ} (hsize : ValidSize blockNum)
    (migration : Fin 4 → Bool) (dev : Devices σ β) {ops : List (SegmentOp β)}
    (hclean : AllSteps (segmentStep idx) (DrainsCleanly idx)
      (freshStore blockNum migration dev) ops)
    (hrun : runOps (segmentStep idx) (freshStore blockNum migration dev) ops =
      some s) : IndexInv idx s.metaData := by
  have hfresh : IndexInv idx (freshStore blockNum migration dev).metaData :=
    mixMetadataInit_indexInv migration idx hsize
  have hall := allStates_of_allSteps
    (I := fun s : Store σ β => IndexInv idx s.metaData)
    (fun _ _ _ hinv hP hstep => segmentStep_indexInv hinv hP hstep)
    hfresh hclean
  exact hall.of_runOps hfresh hrun

/-! ## No two blocks share a slot -/

/-- Mapped blocks have slots of their own, all of them marked as used, and
the allocator hands out none of them. -/
structure SlotsDistinct (idx : Fin 4) (m : MixMetadata) : Prop where
  keys_nodup : (m.hash idx).keys.Nodup
  values_nodup : (m.hash idx).values.Nodup
  value_lt : ∀ v ∈ (m.hash idx).values, v < m.perBlockNum
  bit : ∀ v ∈ (m.hash idx).values,
    mixBitmapTestBit (m.segments idx).bitmap v = true
  next_notMem : ∀ slot m', mixGetNextFreeBlock m idx = some (slot, m') →
    ∀ v ∈ (m.hash idx).values, (v : ℤ) ≠ slot

theorem IndexInv.slotsDistinct {m : MixMetadata} (hinv : IndexInv idx m) :
    SlotsDistinct idx m where
  keys_nodup := hinv.keys_nodup
  values_nodup := hinv.values_nodup
  value_lt := hinv.value_lt
  bit := hinv.bit
  next_notMem := by
    intro slot m' hnext v hv heq
    by_cases hfull : IsFull idx m
    · rw [mixGetNextFreeBlock_of_full hfull, Option.some.injEq,
        Prod.mk.injEq] at hnext
      omega
    · obtain ⟨n, bitmap, hr, hclear, -⟩ :=
        mixGetNextFreeBlock_of_room hinv.toSegmentShape hfull hnext
      simp only [Prod.mk.injEq] at hr
      have hvn : v = n := by omega
      have hbit := hinv.bit v hv
      rw [hvn, hclear.1] at hbit
      exact Bool.noConfusion hbit

/-- As long as no migration meets the block `2 ^ 32 - 1`, mapped blocks never
share a slot. -/
theorem slotsDistinct_allStates {blockNum : ℕ} (hsize : ValidSize blockNum)
    (migration : Fin 4 → Bool) (dev : Devices σ β) (idx : Fin 4)
    (ops : List (SegmentOp β))
    (hclean : AllSteps (segmentStep idx) (DrainsCleanly idx)
      (freshStore blockNum migration dev) ops) :
    AllStates (segmentStep idx) (fun s => SlotsDistinct idx s.metaData)
      (freshStore blockNum migration dev) ops := by
  have hfresh : IndexInv idx (freshStore blockNum migration dev).metaData :=
    mixMetadataInit_indexInv migration idx hsize
  have hall := allStates_of_allSteps
    (I := fun s : Store σ β => IndexInv idx s.metaData)
    (fun _ _ _ hinv hP hstep => segmentStep_indexInv hinv hP hstep)
    hfresh hclean
  exact hall.mono fun _ hinv => hinv.slotsDistinct

/-! ## Small devices for closed runs -/

/-- Devices whose blocks are numbers, all of them `0`. -/
def zeroDevices : Devices (ℕ → ℕ) ℕ where
  nvm := fun _ => 0
  buffer := fun _ => 0
  bufferMeta := fun _ => ⟨0, 0, 0, 0⟩
  ssd := fun _ => 0

/-- A one-block write of `x` to `lba`. -/
def smallWrite (lba x : ℕ) : IoTask ℕ where
  buf := fun _ => x
  len := 1
  offset := lba
  opcode := mixWrite
  type := .ssd
  inflightBuffer := 0

theorem slotsDistinct_allStates_example :
    AllStates (segmentStep 1) (fun s => SlotsDistinct 1 s.metaData)
      (freshStore 32 (fun _ => false) zeroDevices)
      [.write (smallWrite 16 1), .write (smallWrite 93 2), .migrate,
        .write (smallWrite 16 3), .clear (smallWrite 16 0)] :=
  slotsDistinct_allStates (by decide) _ _ _ _ (by decide +kernel)

/-- Blocks `16` and `2 ^ 32 - 1` share a bucket; the migration leaves block
`16` mapped to a slot that it marks as free. -/
theorem slotsDistinct_fails :
    ¬ AllStates (segmentStep 0) (fun s => SlotsDistinct 0 s.metaData)
      (freshStore 32 (fun _ => false) zeroDevices)
      [.write (smallWrite 16 1), .write (smallWrite uint32Max 2),
        .migrate] := by
  intro hall
  have hbit := hall.mono fun _ h => h.bit
  exact absurd hbit (by decide +kernel)

end Uhs
