import Uhs.Core.Drain
import Uhs.Segment.Slots

/-!
# The index of a segment

The invariant that ties the hash of a segment to its bitmap and its counter,
and its preservation by the single operations.  Stray bits are allowed: the
bitmap may hold more set bits than there are mapped slots.
-/

namespace Uhs

open Support

/-- An index with distinct keys and with slots of its segment; the number of
buffer blocks is a `uint32_t`. -/
structure SlotIndex (idx : Fin 4) (m : MixMetadata) : Prop where
  blocks_lt : segmentNum * m.perBlockNum < 2 ^ 32
  keyed : (m.hash idx).Keyed
  keys_nodup : (m.hash idx).keys.Nodup
  value_lt : ∀ v ∈ (m.hash idx).values, v < m.perBlockNum

variable {idx : Fin 4} {m m' : MixMetadata} {lba key slot v : ℕ}

theorem MixHash.mem_keys {hash : MixHash} :
    key ∈ hash.keys ↔ ∃ v, (key, v) ∈ hash.entries := by
  simp [MixHash.keys]

theorem MixHash.mem_values_of_mem {hash : MixHash} {kv : MixKv}
    (h : kv ∈ hash.entries) : kv.2 ∈ hash.values :=
  List.mem_map_of_mem h

theorem MixHash.mem_keys_of_mem {hash : MixHash} {kv : MixKv}
    (h : kv ∈ hash.entries) : kv.1 ∈ hash.keys :=
  List.mem_map_of_mem h

/-- A mapped block is found with its slot. -/
theorem SlotIndex.get_of_mem (h : SlotIndex idx m)
    (hmem : (key, v) ∈ (m.hash idx).entries) :
    mixHashGet (m.hash idx) key = v := by
  have hblocks := h.blocks_lt
  have hlt := h.value_lt v (MixHash.mem_values_of_mem hmem)
  rw [segmentNum] at hblocks
  rw [mixHashGet_of_mem h.keyed h.keys_nodup hmem, toInt32_of_lt (by omega)]

/-- The bit of a slot is the slot. -/
theorem valueBit_natCast (hblocks : segmentNum * m.perBlockNum < 2 ^ 32)
    (hlt : v < m.perBlockNum) : valueBit m v = v := by
  rw [segmentNum] at hblocks
  have hcast : ((v : ℤ) % 2 ^ 32).toNat = v := by omega
  rw [valueBit, hcast, Nat.mod_eq_of_lt hlt]

/-- Keys are distinct, values are distinct slots whose bits are set, and the
counter is the number of entries. -/
structure IndexInv (idx : Fin 4) (m : MixMetadata) : Prop
    extends SegmentShape idx m where
  keys_nodup : (m.hash idx).keys.Nodup
  values_nodup : (m.hash idx).values.Nodup
  value_lt : ∀ v ∈ (m.hash idx).values, v < m.perBlockNum
  bit : ∀ v ∈ (m.hash idx).values,
    testBit (m.segments idx).bitmap.array v = true
  used : (m.segments idx).usedBlockNum = (m.hash idx).entries.length

theorem IndexInv.slotIndex (hinv : IndexInv idx m) : SlotIndex idx m where
  blocks_lt := by
    have hper := hinv.per_lt
    rw [segmentNum]
    omega
  keyed := hinv.wf.keyed
  keys_nodup := hinv.keys_nodup
  value_lt := hinv.value_lt

theorem IndexInv.isFull_iff (hinv : IndexInv idx m) :
    IsFull idx m ↔ (m.hash idx).entries.length = m.perBlockNum := by
  rw [IsFull, hinv.used]
  exact Nat.cast_inj

/-- Only the key `2 ^ 32 - 1` makes a pair a sentinel. -/
theorem IndexInv.sentinelFree_iff (hinv : IndexInv idx m) :
    (∀ kv ∈ (m.hash idx).entries, ¬ IsSentinel kv) ↔
      uint32Max ∉ (m.hash idx).keys := by
  have hper := hinv.per_lt
  constructor
  · intro h hmem
    obtain ⟨v, hv⟩ := MixHash.mem_keys.mp hmem
    exact h _ hv (Or.inl rfl)
  · rintro h kv hkv (hkey | hvalue)
    · exact h (hkey ▸ MixHash.mem_keys_of_mem hkv)
    · have hlt := hinv.value_lt _ (MixHash.mem_values_of_mem hkv)
      rw [hvalue, uint32Max] at hlt
      omega

/-! ## Looking a block up -/

theorem IndexInv.blockTest_of_mem (hinv : IndexInv idx m)
    (hmem : (lbaKey lba, v) ∈ (m.hash idx).entries) :
    mixBufferBlockTest m lba idx = v := by
  have hvalue := MixHash.mem_values_of_mem hmem
  have hget : mixHashGet (m.hash idx) (lba % 2 ^ 32) = v :=
    hinv.slotIndex.get_of_mem hmem
  have hne : ¬ ((v : ℤ) = -1) := by omega
  have hbit := valueBit_natCast hinv.slotIndex.blocks_lt
    (hinv.value_lt v hvalue)
  simp only [mixBufferBlockTest, hget, hne, if_false, hbit, mixBitmapTestBit,
    hinv.bit _ hvalue]
  rfl

theorem IndexInv.blockTest_of_notMem (hinv : IndexInv idx m)
    (hmem : lbaKey lba ∉ (m.hash idx).keys) :
    mixBufferBlockTest m lba idx = -1 := by
  have hget : mixHashGet (m.hash idx) (lba % 2 ^ 32) = -1 :=
    mixHashGet_of_notMem hinv.wf.keyed hmem
  simp only [mixBufferBlockTest, hget, if_true]

/-! ## Taking a slot -/

theorem Claimed.indexInv (h : Claimed idx key slot m m')
    (hinv : IndexInv idx m) (hkey : key ∉ (m.hash idx).keys)
    (hslot : slot < m.perBlockNum)
    (hclear : testBit (m.segments idx).bitmap.array slot = false) :
    IndexInv idx m' := by
  have hkeys : (m'.hash idx).keys.Perm (key :: (m.hash idx).keys) :=
    h.entries.map Prod.fst
  have hvalues : (m'.hash idx).values.Perm (slot :: (m.hash idx).values) :=
    h.entries.map Prod.snd
  have hfree : slot ∉ (m.hash idx).values := by
    intro hmem
    rw [hinv.bit slot hmem] at hclear
    exact Bool.noConfusion hclear
  refine ⟨h.shape, ?_, ?_, ?_, ?_, ?_⟩
  · rw [hkeys.nodup_iff, List.nodup_cons]
    exact ⟨hkey, hinv.keys_nodup⟩
  · rw [hvalues.nodup_iff, List.nodup_cons]
    exact ⟨hfree, hinv.values_nodup⟩
  · intro v hv
    rw [h.perBlockNum]
    rcases List.mem_cons.mp (hvalues.mem_iff.mp hv) with rfl | hv
    · exact hslot
    · exact hinv.value_lt v hv
  · intro v hv
    rw [h.array, testBit_setBit]
    rcases List.mem_cons.mp (hvalues.mem_iff.mp hv) with rfl | hv
    · simp
    · simp [hinv.bit v hv]
  · rw [h.used, hinv.used, h.entries.length_eq, List.length_cons]
    push_cast
    rfl

theorem Strayed.indexInv (h : Strayed idx slot m m')
    (hinv : IndexInv idx m) : IndexInv idx m' where
  toSegmentShape := h.shape
  keys_nodup := h.hash ▸ hinv.keys_nodup
  values_nodup := h.hash ▸ hinv.values_nodup
  value_lt := by
    rw [h.hash, h.perBlockNum]
    exact hinv.value_lt
  bit := by
    rw [h.hash, h.array]
    intro v hv
    simp [testBit_setBit, hinv.bit v hv]
  used := by rw [h.used, h.hash, hinv.used]

variable {σ β : Type*} {s s' : Store σ β} {task : IoTask β}
  {choice : SlotChoice σ β}

theorem takeSlot_indexInv {migrated : Bool}
    (hinv : IndexInv idx s.metaData) (hroom : ¬ IsFull idx s.metaData)
    (hkey : lbaKey task.offset ∉ (s.metaData.hash idx).keys)
    (h : takeSlot s task idx migrated = some choice) :
    IndexInv idx choice.store.metaData := by
  obtain ⟨slot, hclear, -, -, -, ⟨-, hclaimed⟩ | ⟨-, hstrayed⟩⟩ :=
    takeSlot_spec hinv.toSegmentShape hroom h
  · exact hclaimed.indexInv hinv hkey hclear.lt hclear.1
  · exact hstrayed.indexInv hinv

/-! ## Clearing a block -/

/-- Effect of taking the pair of `key` and slot `v` out of the index. -/
structure Unmaps (idx : Fin 4) (key v : ℕ) (s s' : Store σ β) : Prop
    extends MixMetadata.SameElsewhere idx s.metaData s'.metaData where
  hash : s'.metaData.hash idx = mixHashDelete (s.metaData.hash idx) key
  entries : (s.metaData.hash idx).entries.Perm
    ((key, v) :: (s'.metaData.hash idx).entries)
  used : (s'.metaData.segments idx).usedBlockNum =
    (s.metaData.segments idx).usedBlockNum - 1
  bitmap : (s'.metaData.segments idx).bitmap =
    (mixBitmapClearBit (s.metaData.segments idx).bitmap v).2
  dev : s'.dev = mixBufferClear s.dev (s.metaData.bufferBlock idx v)

theorem clearOne_of_notMem (hkeyed : (s.metaData.hash idx).Keyed)
    (hkey : lbaKey lba ∉ (s.metaData.hash idx).keys) :
    clearOne s idx lba = none := by
  have hget : mixHashGet (s.metaData.hash idx) (lba % 2 ^ 32) = -1 :=
    mixHashGet_of_notMem hkeyed hkey
  simp only [clearOne, hget, if_true]

theorem clearOne_unmaps (h : SlotIndex idx s.metaData)
    (hmem : (lbaKey lba, v) ∈ (s.metaData.hash idx).entries) :
    ∃ s', clearOne s idx lba = some s' ∧ Unmaps idx (lbaKey lba) v s s' := by
  have hget : mixHashGet (s.metaData.hash idx) (lba % 2 ^ 32) = v :=
    h.get_of_mem hmem
  have hbit := valueBit_natCast h.blocks_lt
    (h.value_lt v (MixHash.mem_values_of_mem hmem))
  have hne : ¬ ((v : ℤ) = -1) := by omega
  refine ⟨_, by simp only [clearOne, hget, hne, if_false, hbit]; rfl, ?_⟩
  exact
    { toSameElsewhere := ((MixMetadata.sameElsewhere_setHash _ _ _).trans
        (MixMetadata.sameElsewhere_setBitmap _ _ _)).trans
          (MixMetadata.sameElsewhere_addUsed _ _ _)
      hash := by simp [lbaKey]
      entries := by
        simpa [lbaKey] using h.keyed.delete_perm h.keys_nodup hmem
      used := by simp [sub_eq_add_neg]
      bitmap := by simp
      dev := rfl }

theorem Unmaps.keys_perm (h : Unmaps idx key v s s') :
    (s.metaData.hash idx).keys.Perm (key :: (s'.metaData.hash idx).keys) :=
  h.entries.map Prod.fst

theorem Unmaps.slotIndex (h : Unmaps idx key v s s')
    (hindex : SlotIndex idx s.metaData) : SlotIndex idx s'.metaData where
  blocks_lt := by
    rw [h.perBlockNum]
    exact hindex.blocks_lt
  keyed := by
    rw [h.hash]
    exact hindex.keyed.delete key
  keys_nodup :=
    (List.nodup_cons.mp (h.keys_perm.nodup_iff.mp hindex.keys_nodup)).2
  value_lt := by
    intro w hw
    rw [h.perBlockNum]
    exact hindex.value_lt w
      ((h.entries.map Prod.snd).mem_iff.mpr (List.mem_cons_of_mem v hw))

theorem Unmaps.notMem_keys (h : Unmaps idx key v s s')
    (hindex : SlotIndex idx s.metaData) :
    key ∉ (s'.metaData.hash idx).keys :=
  (List.nodup_cons.mp (h.keys_perm.nodup_iff.mp hindex.keys_nodup)).1

/-- Effect of clearing the block mapped to slot `v`. -/
structure Cleared (idx : Fin 4) (key v : ℕ) (s s' : Store σ β) :
    Prop extends MixMetadata.SameElsewhere idx s.metaData s'.metaData where
  shape : SegmentShape idx s'.metaData
  entries : (s.metaData.hash idx).entries.Perm
    ((key, v) :: (s'.metaData.hash idx).entries)
  used : (s'.metaData.segments idx).usedBlockNum =
    (s.metaData.segments idx).usedBlockNum - 1
  array : (s'.metaData.segments idx).bitmap.array =
    clearBit (s.metaData.segments idx).bitmap.array v
  dev : s'.dev = mixBufferClear s.dev (s.metaData.bufferBlock idx v)

theorem clearOne_of_mem (hinv : IndexInv idx s.metaData)
    (hmem : (lbaKey lba, v) ∈ (s.metaData.hash idx).entries) :
    ∃ s', clearOne s idx lba = some s' ∧
      Cleared idx (lbaKey lba) v s s' := by
  obtain ⟨s', hclear, h⟩ := clearOne_unmaps hinv.slotIndex hmem
  have hwf := (mixHashDelete_spec hinv.wf hinv.keys_nodup hmem).1
  have hready := hinv.ready
  refine ⟨s', hclear, ?_⟩
  exact
    { toSameElsewhere := h.toSameElsewhere
      shape :=
        { per_lt := h.perBlockNum ▸ hinv.per_lt
          threads_pos := h.migrateThreadNum ▸ hinv.threads_pos
          wf := h.hash ▸ hwf
          ready := by
            rw [h.bitmap, h.perBlockNum]
            exact ⟨hready.bits_eq, hready.one_lt, hready.nextBit_lt⟩ }
      entries := h.entries
      used := h.used
      array := by rw [h.bitmap]; rfl
      dev := h.dev }

theorem Cleared.indexInv {v : ℕ} (h : Cleared idx key v s s')
    (hinv : IndexInv idx s.metaData) : IndexInv idx s'.metaData := by
  have hkeys : (s.metaData.hash idx).keys.Perm
      (key :: (s'.metaData.hash idx).keys) := h.entries.map Prod.fst
  have hvalues : (s.metaData.hash idx).values.Perm
      (v :: (s'.metaData.hash idx).values) := h.entries.map Prod.snd
  have hkeysNodup := hkeys.nodup_iff.mp hinv.keys_nodup
  have hvaluesNodup := hvalues.nodup_iff.mp hinv.values_nodup
  rw [List.nodup_cons] at hkeysNodup hvaluesNodup
  have hmem : ∀ w ∈ (s'.metaData.hash idx).values,
      w ∈ (s.metaData.hash idx).values :=
    fun w hw => hvalues.mem_iff.mpr (List.mem_cons_of_mem v hw)
  refine ⟨h.shape, hkeysNodup.2, hvaluesNodup.2, ?_, ?_, ?_⟩
  · intro w hw
    rw [h.perBlockNum]
    exact hinv.value_lt w (hmem w hw)
  · intro w hw
    have hne : w ≠ v := fun heq => hvaluesNodup.1 (heq ▸ hw)
    rw [h.array, testBit_clearBit]
    simp [hne, hinv.bit w (hmem w hw)]
  · rw [h.used, hinv.used, h.entries.length_eq, List.length_cons]
    push_cast
    ring

/-- A property kept by every cleared block is kept by `mix_clear_block`. -/
theorem clearFrom_induction {P : Store σ β → Prop}
    (hindex : ∀ s, P s → IndexInv idx s.metaData)
    (hstep : ∀ s s' key v, P s → Cleared idx key v s s' → P s')
    (len : ℕ) (hs : P s) : P (clearFrom idx len lba s) := by
  induction len generalizing s lba with
  | zero => exact hs
  | succ len ih =>
      rw [clearFrom]
      by_cases hkey : lbaKey lba ∈ (s.metaData.hash idx).keys
      · obtain ⟨v, hmem⟩ := MixHash.mem_keys.mp hkey
        obtain ⟨s', hclear, hcleared⟩ := clearOne_of_mem (hindex s hs) hmem
        rw [hclear]
        exact ih (hstep s s' _ v hs hcleared)
      · rw [clearOne_of_notMem (hindex s hs).wf.keyed hkey]
        exact hs

theorem mixClearBlock_indexInv (hinv : IndexInv idx s.metaData)
    (task : IoTask β) : IndexInv idx (mixClearBlock s task idx).metaData :=
  clearFrom_induction (P := fun s => IndexInv idx s.metaData)
    (fun _ h => h) (fun _ _ _ _ h hcleared => hcleared.indexInv h) _ hinv

/-! ## Migrating -/

variable [BlockDevice σ β] {es : List MixKv}

theorem Migrated.shape (h : Migrated idx es s s')
    (hshape : SegmentShape idx s.metaData) : SegmentShape idx s'.metaData where
  per_lt := h.perBlockNum ▸ hshape.per_lt
  threads_pos := h.migrateThreadNum ▸ hshape.threads_pos
  wf := h.wf
  ready := by
    rw [h.bitmap, h.perBlockNum]
    exact mixBitmapClear_ready hshape.ready

/-- After a migration no bit of the segment is set. -/
theorem Migrated.testBit_eq_false (h : Migrated idx es s s')
    (hshape : SegmentShape idx s.metaData) {i : ℕ}
    (hi : i < s.metaData.perBlockNum) :
    testBit (s'.metaData.segments idx).bitmap.array i = false := by
  rw [h.bitmap]
  exact testBit_mixBitmapClear hshape.ready hi

/-- Without the key `2 ^ 32 - 1` a migration empties the segment. -/
theorem Migrated.empty (h : Migrated idx es s s')
    (hinv : IndexInv idx s.metaData)
    (hfree : uint32Max ∉ (s.metaData.hash idx).keys) :
    (s'.metaData.hash idx).entries = [] ∧
      (s'.metaData.segments idx).usedBlockNum = 0 := by
  obtain ⟨hperm, hnil, -⟩ :=
    h.of_sentinelFree (hinv.sentinelFree_iff.mpr hfree)
  refine ⟨hnil, ?_⟩
  have hused := h.used
  rw [hinv.used, hperm.length_eq] at hused
  omega

theorem IndexInv.of_empty (hshape : SegmentShape idx m)
    (hnil : (m.hash idx).entries = [])
    (hused : (m.segments idx).usedBlockNum = 0) : IndexInv idx m where
  toSegmentShape := hshape
  keys_nodup := by simp [MixHash.keys, hnil]
  values_nodup := by simp [MixHash.values, hnil]
  value_lt := by simp [MixHash.values, hnil]
  bit := by simp [MixHash.values, hnil]
  used := by simp [hused, hnil]

theorem mixMigrateSegment_indexInv (hinv : IndexInv idx s.metaData)
    (hfree : uint32Max ∉ (s.metaData.hash idx).keys) :
    IndexInv idx (mixMigrateSegment s idx).metaData ∧
      ((mixMigrateSegment s idx).metaData.hash idx).entries = [] := by
  obtain ⟨es, h⟩ := mixMigrateSegment_migrated hinv.threads_pos hinv.wf
  obtain ⟨hnil, hused⟩ := h.empty hinv hfree
  exact ⟨IndexInv.of_empty (h.shape hinv.toSegmentShape) hnil hused, hnil⟩

/-! ## Redirected writes -/

/-- The three paths of `redirect_write` on a well-formed index. -/
theorem IndexInv.redirectSlot_cases (hinv : IndexInv idx s.metaData)
    (h : redirectSlot s task idx = some choice) :
    (∃ v, (lbaKey task.offset, v) ∈ (s.metaData.hash idx).entries ∧
        choice = ⟨false, v, s⟩) ∨
      lbaKey task.offset ∉ (s.metaData.hash idx).keys ∧
        (¬ IsFull idx s.metaData ∧
            takeSlot s task idx false = some choice ∨
          IsFull idx s.metaData ∧
            takeSlot (mixMigrateSegment s idx) task idx true =
              some choice) := by
  by_cases hkey : lbaKey task.offset ∈ (s.metaData.hash idx).keys
  · obtain ⟨v, hmem⟩ := MixHash.mem_keys.mp hkey
    have hit := hinv.blockTest_of_mem hmem
    rw [redirectSlot_of_hit hit (by omega), Option.some.injEq] at h
    exact Or.inl ⟨v, hmem, h.symm⟩
  · refine Or.inr ⟨hkey, ?_⟩
    have hmiss := hinv.blockTest_of_notMem hkey
    by_cases hfull : IsFull idx s.metaData
    · rw [redirectSlot_of_full hmiss hfull] at h
      exact Or.inr ⟨hfull, h⟩
    · rw [redirectSlot_of_room hinv.toSegmentShape hmiss hfull] at h
      exact Or.inl ⟨hfull, h⟩

/-- An empty segment is not full. -/
theorem IndexInv.not_isFull_of_nil (hinv : IndexInv idx m)
    (hnil : (m.hash idx).entries = []) : ¬ IsFull idx m := by
  have hone := hinv.ready.one_lt
  rw [hinv.isFull_iff, hnil, List.length_nil]
  omega

theorem redirectSlot_indexInv (hinv : IndexInv idx s.metaData)
    (hfree : lbaKey task.offset ∉ (s.metaData.hash idx).keys →
      IsFull idx s.metaData → uint32Max ∉ (s.metaData.hash idx).keys)
    (h : redirectSlot s task idx = some choice) :
    IndexInv idx choice.store.metaData := by
  rcases hinv.redirectSlot_cases h with ⟨v, -, rfl⟩ | ⟨hkey, hcases⟩
  · exact hinv
  · rcases hcases with ⟨hroom, htake⟩ | ⟨hfull, htake⟩
    · exact takeSlot_indexInv hinv hroom hkey htake
    · obtain ⟨hinv', hnil⟩ :=
        mixMigrateSegment_indexInv hinv (hfree hkey hfull)
      refine takeSlot_indexInv hinv' (hinv'.not_isFull_of_nil hnil) ?_ htake
      simp [MixHash.keys, hnil]

end Uhs
