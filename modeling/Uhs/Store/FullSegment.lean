import Uhs.Segment.Aliasing
import Uhs.Segment.Drained
import Uhs.Store.SmallWrite

/-!
# Small writes to a full segment

A small write of an unmapped block finds its segment full, migrates it and
takes slot `0`; when the migration moves nothing, the segment is still full,
and the block goes to slot `-1`, which is the last one of the segment before.
-/

namespace Uhs

open Support

variable {σ β : Type*} [BlockDevice σ β]

/-- The slot that is taken in a segment that was full. -/
def slotAfter (idx : Fin 4) (s : Store σ β) : ℤ :=
  if MovesSome idx s then 0 else -1

/-- What a write of an unmapped block to a full segment leaves. -/
structure WritesFull (task : IoTask β) (s s' : Store σ β) : Prop
    extends MixMetadata.SameElsewhere (smallQueue task)
      s.metaData s'.metaData where
  test : ∀ b, mixBufferBlockTest s'.metaData b (smallQueue task) =
    if MovesSome (smallQueue task) s ∧ (lbaKey b = lbaKey task.offset ∨
      LeftBehind (smallQueue task) s (lbaKey b, 0)) then 0 else -1
  entries_ne : (s'.metaData.hash (smallQueue task)).entries ≠
    (s.metaData.hash (smallQueue task)).entries
  buffer : s'.dev.buffer = Function.update s.dev.buffer
    (s.metaData.bufferBlock (smallQueue task)
      (slotAfter (smallQueue task) s)) (task.buf 0)
  ssd_mapped : ∀ b w,
    (lbaKey b, w) ∈ (s.metaData.hash (smallQueue task)).entries →
    s'.dev.ssdBlock b =
      if ¬ LeftBehind (smallQueue task) s (lbaKey b, w) ∧ b < uint32Max then
        s.dev.buffer w
      else s.dev.ssdBlock b
  ssd_other : ∀ b ∉ (s.metaData.hash (smallQueue task)).keys,
    s'.dev.ssdBlock b = s.dev.ssdBlock b

/-- What is read of a block with slot `w` of a full segment, after `data` was
written to an unmapped block of the segment. -/
def readAfter (idx : Fin 4) (s : Store σ β) (data : β) (b w : ℕ) : β :=
  if MovesSome idx s ∧ LeftBehind idx s (lbaKey b, w) ∧ w = 0 then data
  else if ¬ LeftBehind idx s (lbaKey b, w) ∧ b < uint32Max then
    s.dev.buffer w
  else s.dev.ssdBlock b

/-- A write of `data` to the unmapped block `a` of a full segment changes the
contents of this block alone. -/
structure FullExact (blocks : ℕ) (s : Store σ β) (a : ℕ) (data : β) :
    Prop where
  shared : MovesSome (segmentOf a) s → ∀ b < blocks, b ≠ a →
    lbaKey b = lbaKey a → s.contents b = data
  segment : ∀ b < blocks, ∀ w,
    (lbaKey b, w) ∈ (s.metaData.hash (segmentOf a)).entries →
      s.contents b = readAfter (segmentOf a) s data b w
  stray : ¬ MovesSome (segmentOf a) s → s.contents a = data ∧
    ∀ b < blocks, segmentOf b ≠ segmentOf a → ∀ w : ℕ,
      (lbaKey b, w) ∈ (s.metaData.hash (segmentOf b)).entries →
      s.metaData.bufferBlock (segmentOf b) w =
        s.metaData.bufferBlock (segmentOf a) (-1) → s.contents b = data

variable {idx : Fin 4} {es : List MixKv} {s s₁ s' : Store σ β}
  {task : IoTask β} {m' : MixMetadata} {key v b w : ℕ}

/-! ## The index after the migration -/

/-- A full segment is full after the migration when nothing was moved. -/
theorem Migrated.isFull_iff (h : Migrated idx es s s₁)
    (hfull : IsFull idx s.metaData) : IsFull idx s₁.metaData ↔ es = [] := by
  have hused := h.used
  rw [IsFull] at hfull ⊢
  rw [h.perBlockNum, ← List.length_eq_zero_iff]
  omega

/-- A migration that moves something leaves a free node. -/
theorem Migrated.freeNodes_ne_zero_of_moved (h : Migrated idx es s s₁)
    (hinv : BufferInv idx s.metaData) (hfull : IsFull idx s.metaData) :
    (s₁.metaData.hash idx).freeNodes ≠ 0 := by
  by_cases hsentinel : uint32Max ∈ (s.metaData.hash idx).keys
  · exact h.freeNodes_ne_zero hsentinel
  · obtain ⟨-, -, hfree⟩ :=
      h.of_sentinelFree (hinv.sentinelFree_iff.mpr hsentinel)
    have hlength := hinv.isFull_iff.mp hfull
    have hone := hinv.ready.one_lt
    omega

/-- The keys stay distinct when an unmapped block is entered. -/
theorem Claimed.keys_nodup (hclaimed : Claimed idx key v s₁.metaData m')
    (h : Migrated idx es s s₁) (hinv : IndexInv idx s.metaData)
    (hkey : key ∉ (s.metaData.hash idx).keys) :
    (m'.hash idx).keys.Nodup := by
  have hperm : (m'.hash idx).keys.Perm
      (key :: (s₁.metaData.hash idx).keys) := hclaimed.entries.map Prod.fst
  rw [hperm.nodup_iff, List.nodup_cons]
  refine ⟨?_, h.left_keys_nodup hinv⟩
  intro hmem
  obtain ⟨w, hw⟩ := MixHash.mem_keys.mp hmem
  exact hkey (MixHash.mem_keys_of_mem (h.left_sublist.subset hw))

/-- With a slot from `0` on, the blocks with slot `0` are found. -/
theorem Claimed.test_of_migrated (hclaimed : Claimed idx key 0 s₁.metaData m')
    (h : Migrated idx es s s₁) (hinv : IndexInv idx s.metaData)
    (hkey : key ∉ (s.metaData.hash idx).keys) (b : ℕ) :
    mixBufferBlockTest m' b idx =
      if lbaKey b = key ∨ LeftBehind idx s (lbaKey b, 0) then 0 else -1 := by
  have hper := hinv.per_lt
  have hper' : m'.perBlockNum = s.metaData.perBlockNum :=
    hclaimed.perBlockNum.trans h.perBlockNum
  have hblocks : segmentNum * m'.perBlockNum < 2 ^ 32 := by
    rw [segmentNum, hper']
    omega
  have hone := hinv.ready.one_lt
  have hnodup := hclaimed.keys_nodup h hinv hkey
  have hget : ∀ v, (lbaKey b, v) ∈ (m'.hash idx).entries →
      v < s.metaData.perBlockNum →
      mixBufferBlockTest m' b idx = if v = 0 then 0 else -1 := by
    intro v hv hlt
    have hvalue := mixHashGet_of_mem hclaimed.shape.wf.keyed hnodup hv
    rw [toInt32_of_lt (by omega)] at hvalue
    rw [blockTest_of_get hblocks (by omega) hvalue, hclaimed.array,
      testBit_setBit, h.testBit_eq_false hinv.toSegmentShape hlt]
    by_cases hzero : v = 0
    · simp [hzero]
    · simp [hzero]
  by_cases hb : lbaKey b = key
  · have hmem : (lbaKey b, 0) ∈ (m'.hash idx).entries := by
      rw [hb]
      exact hclaimed.entries.mem_iff.mpr List.mem_cons_self
    rw [hget 0 hmem (by omega), if_pos rfl, if_pos (Or.inl hb)]
  · by_cases hmapped : lbaKey b ∈ (s₁.metaData.hash idx).keys
    · obtain ⟨v, hv⟩ := MixHash.mem_keys.mp hmapped
      have hv' : (lbaKey b, v) ∈ (m'.hash idx).entries :=
        hclaimed.entries.mem_iff.mpr (List.mem_cons_of_mem _ hv)
      rw [hget v hv' (hinv.value_lt v
        (MixHash.mem_values_of_mem (h.left_sublist.subset hv)))]
      have hzero : v = 0 ↔ LeftBehind idx s (lbaKey b, 0) := by
        rw [← h.mem_entries_iff]
        constructor
        · rintro rfl
          exact hv
        · intro hv₀
          have hpair := List.inj_on_of_nodup_map (h.left_keys_nodup hinv) hv
            hv₀ rfl
          exact congrArg Prod.snd hpair
      simp only [hb, false_or, hzero]
    · have hnot : lbaKey b ∉ (m'.hash idx).keys := by
        intro hmem
        obtain ⟨v, hv⟩ := MixHash.mem_keys.mp hmem
        rcases List.mem_cons.mp (hclaimed.entries.mem_iff.mp hv) with
          heq | hv
        · exact hb (congrArg Prod.fst heq)
        · exact hmapped (MixHash.mem_keys_of_mem hv)
      rw [blockTest_of_get_neg
        (mixHashGet_of_notMem hclaimed.shape.wf.keyed hnot), if_neg]
      rintro (heq | hleft₀)
      · exact hb heq
      · exact hmapped (MixHash.mem_keys_of_mem (h.mem_entries_iff.mpr hleft₀))

/-- Without a new slot no block of the segment is found. -/
theorem Migrated.test_eq (h : Migrated idx es s s₁)
    (hinv : IndexInv idx s.metaData) {m : MixMetadata}
    (hhash : m.hash idx = s₁.metaData.hash idx)
    (hper : m.perBlockNum = s₁.metaData.perBlockNum)
    (hbit : ∀ v < s.metaData.perBlockNum,
      testBit (m.segments idx).bitmap.array v = false) (b : ℕ) :
    mixBufferBlockTest m b idx = -1 := by
  have hlt := hinv.per_lt
  have hper' : m.perBlockNum = s.metaData.perBlockNum :=
    hper.trans h.perBlockNum
  by_cases hmapped : lbaKey b ∈ (s₁.metaData.hash idx).keys
  · obtain ⟨v, hv⟩ := MixHash.mem_keys.mp hmapped
    have hv' := hinv.value_lt v
      (MixHash.mem_values_of_mem (h.left_sublist.subset hv))
    have hvalue := mixHashGet_of_mem h.wf.keyed (h.left_keys_nodup hinv) hv
    rw [toInt32_of_lt (by omega), ← hhash] at hvalue
    rw [blockTest_of_get (by rw [segmentNum]; omega) (by omega) hvalue,
      hbit v hv']
    rfl
  · apply blockTest_of_get_neg
    rw [hhash]
    exact mixHashGet_of_notMem h.wf.keyed hmapped

/-! ## The write -/

/-- The key at which a migration stops is one of segment `3`. -/
theorem BufferInv.eq_three_of_movesNone
    (hinv : BufferInv idx s.metaData) (h : Migrated idx [] s s₁)
    (hne : (s.metaData.hash idx).entries ≠ []) :
    idx = 3 ∧ uint32Max ∈ (s.metaData.hash idx).keys := by
  have hsentinel : uint32Max ∈ (s.metaData.hash idx).keys := by
    by_contra hfree
    obtain ⟨hperm, -, -⟩ :=
      h.of_sentinelFree (hinv.sentinelFree_iff.mpr hfree)
    exact hne hperm.nil_eq.symm
  have hsegment := (hinv.homed uint32Max hsentinel).2
  exact ⟨hsegment.symm.trans (by decide), hsentinel⟩

/-- Slot `0` is taken when something was moved. -/
theorem Migrated.takeSlot_of_moved (h : Migrated idx es s s₁)
    (hinv : BufferInv idx s.metaData) (hfull : IsFull idx s.metaData)
    (hes : es ≠ []) (task : IoTask β) :
    ∃ choice, takeSlot s₁ task idx true = some choice ∧ choice.slot = 0 ∧
      choice.store.dev = s₁.dev ∧
      Claimed idx (lbaKey task.offset) 0 s₁.metaData
        choice.store.metaData := by
  have hshape := h.shape hinv.toSegmentShape
  have hone := hinv.ready.one_lt
  have hper : 0 < s₁.metaData.perBlockNum := by
    rw [h.perBlockNum]
    omega
  have hroom : ¬ IsFull idx s₁.metaData := by
    rw [h.isFull_iff hfull]
    exact hes
  have hfirst :
      testBit (s₁.metaData.segments idx).bitmap.array 0 = false :=
    h.testBit_eq_false hinv.toSegmentShape (by omega)
  have hnode := h.freeNodes_ne_zero_of_moved hinv hfull
  obtain ⟨choice, htake⟩ :=
    Uhs.takeSlot_isSome hshape hroom ⟨0, hper, hfirst⟩ (Or.inl hnode) task
      true
  obtain ⟨slot, hclear, hslot, -, hdev, hclaim⟩ :=
    takeSlot_spec hshape hroom htake
  have hzero : slot = 0 := by
    refine hclear.unique ⟨hfirst, 0, hper, ?_, fun e he => absurd he (by omega)⟩
    have hcursor : (s₁.metaData.segments idx).bitmap.nextBit = 0 := by
      rw [h.bitmap]
      rfl
    rw [hcursor, Nat.zero_mod]
  subst hzero
  have hclaimed := (hclaim.resolve_right fun hno => hno.1 (Or.inl rfl)).2
  exact ⟨choice, htake, hslot, hdev, hclaimed⟩

/-- Slot `-1` is taken when nothing was moved: its bit is the one before the
bitmap. -/
theorem Migrated.takeSlot_of_unmoved (h : Migrated idx [] s s₁)
    (hinv : BufferInv idx s.metaData) (hfull : IsFull idx s.metaData)
    (hthree : idx = 3) (task : IoTask β) :
    takeSlot s₁ task idx true = some
      { migrated := true
        slot := -1
        store := { s₁ with
          metaData := s₁.metaData.setBitmap idx (mixBitmapSetBit
            (s₁.metaData.segments idx).bitmap uint32Max).2 } } := by
  have hfull' : IsFull idx s₁.metaData := (h.isFull_iff hfull).mpr rfl
  have hguard : guardBit idx (-1) = uint32Max := by
    rw [hthree]
    decide
  have hfar : testBit (s₁.metaData.segments idx).bitmap.array uint32Max =
      false := by
    rw [h.bitmap, mixBitmapClear, testBit_zeroBytes, hinv.farBit,
      Bool.and_false]
  simp only [takeSlot, mixGetNextFreeBlock_of_full hfull',
    Option.bind_some, claimSlot, mixWriteRedirectBlockmeta, hguard,
    mixBitmapSetBit, hfar, Bool.not_false, if_true, Option.map_some]

/-- A slot is free again when something was moved. -/
theorem bufferTask_of_movesSome
    (hinv : BufferInv (smallQueue task) s.metaData)
    (hkey : lbaKey task.offset ∉ (s.metaData.hash (smallQueue task)).keys)
    (hfull : IsFull (smallQueue task) s.metaData)
    (hsome : MovesSome (smallQueue task) s) :
    ∃ s', bufferTask s task = some s' ∧ WritesFull task s s' := by
  obtain ⟨es, h⟩ := mixMigrateSegment_migrated hinv.threads_pos hinv.wf
  obtain ⟨choice, htake, hslot, hdev, hclaimed⟩ :=
    h.takeSlot_of_moved hinv hfull (h.movesSome_iff.mp hsome) task
  have hmiss := hinv.toIndexInv.blockTest_of_notMem hkey
  have hdev' : (choice.write task (smallQueue task)).dev =
      mixBufferWrite (mixMigrateSegment s (smallQueue task)).dev (task.buf 0)
        task.offset (s.metaData.bufferBlock (smallQueue task) 0)
        task.opcode := by
    simp only [SlotChoice.write, hdev, hslot,
      MixMetadata.bufferBlock_congr
        (hclaimed.perBlockNum.trans h.perBlockNum)]
  refine ⟨_, bufferTask_of_slot
    ((redirectSlot_of_full hmiss hfull).trans htake), ?_⟩
  exact
    { toSameElsewhere := h.toSameElsewhere.trans hclaimed.toSameElsewhere
      test := by
        intro b
        simp only [hsome, true_and]
        exact hclaimed.test_of_migrated h hinv.toIndexInv hkey b
      entries_ne := by
        intro heq
        have hmem : (lbaKey task.offset, 0) ∈
            (choice.store.metaData.hash (smallQueue task)).entries :=
          hclaimed.entries.mem_iff.mpr List.mem_cons_self
        exact hkey (MixHash.mem_keys_of_mem (heq ▸ hmem))
      buffer := by
        rw [hdev', mixBufferWrite_buffer, slotAfter, if_pos hsome, h.dev,
          moveOut_buffer]
      ssd_mapped := by
        intro b w hmem
        rw [hdev', mixBufferWrite_ssdBlock]
        exact h.ssdBlock_eq hinv.toIndexInv
          (fun key hkey => (hinv.homed key hkey).1) hmem
      ssd_other := by
        intro b hb
        rw [hdev', mixBufferWrite_ssdBlock]
        exact h.ssdBlock_of_notMem hb }

/-- When nothing was moved, slot `-1` is written and not entered. -/
theorem bufferTask_of_movesNone
    (hinv : BufferInv (smallQueue task) s.metaData)
    (hkey : lbaKey task.offset ∉ (s.metaData.hash (smallQueue task)).keys)
    (hfull : IsFull (smallQueue task) s.metaData)
    (hnone : ¬ MovesSome (smallQueue task) s) :
    ∃ s', bufferTask s task = some s' ∧ WritesFull task s s' := by
  obtain ⟨es, h⟩ := mixMigrateSegment_migrated hinv.threads_pos hinv.wf
  have hes : es = [] := by
    by_contra hne
    exact hnone (h.movesSome_iff.mpr hne)
  subst hes
  have hlength := hinv.isFull_iff.mp hfull
  have hone := hinv.ready.one_lt
  have hper := hinv.per_lt
  obtain ⟨hthree, hsentinel⟩ := hinv.eq_three_of_movesNone h (by
    intro hnil
    rw [hnil, List.length_nil] at hlength
    omega)
  have htake := h.takeSlot_of_unmoved hinv hfull hthree task
  set s₁ := mixMigrateSegment s (smallQueue task)
  set m := s₁.metaData.setBitmap (smallQueue task) (mixBitmapSetBit
    (s₁.metaData.segments (smallQueue task)).bitmap uint32Max).2 with hm
  have hmiss := hinv.toIndexInv.blockTest_of_notMem hkey
  have hbit : ∀ v < s.metaData.perBlockNum,
      testBit (m.segments (smallQueue task)).bitmap.array v = false := by
    intro v hv
    have hne : v ≠ uint32Max := by
      rw [uint32Max]
      omega
    rw [hm, MixMetadata.setBitmap_self]
    simp only [mixBitmapSetBit]
    rw [testBit_setBit, h.testBit_eq_false hinv.toSegmentShape hv]
    simp [hne]
  have hplace : m.bufferBlock (smallQueue task) (-1) =
      s.metaData.bufferBlock (smallQueue task) (-1) :=
    MixMetadata.bufferBlock_congr h.perBlockNum _ _
  refine ⟨_, bufferTask_of_slot
    ((redirectSlot_of_full hmiss hfull).trans htake), ?_⟩
  exact
    { toSameElsewhere := h.toSameElsewhere.trans
        (MixMetadata.sameElsewhere_setBitmap _ _ _)
      test := by
        intro b
        rw [if_neg fun hyes => hnone hyes.1]
        exact h.test_eq hinv.toIndexInv (m := m) rfl rfl hbit b
      entries_ne := by
        intro heq
        obtain ⟨v, hv⟩ := MixHash.mem_keys.mp hsentinel
        have hlost := h.length_lt ⟨_, hv, Or.inl rfl⟩
        have hsame := congrArg List.length heq
        have hhash : m.hash (smallQueue task) =
            s₁.metaData.hash (smallQueue task) := rfl
        rw [← hhash] at hlost
        simp only [SlotChoice.write] at hsame
        omega
      buffer := by
        rw [slotAfter, if_neg hnone, ← hplace]
        simp only [SlotChoice.write, mixBufferWrite_buffer, h.dev,
          moveOut_nil]
      ssd_mapped := by
        intro b w hmem
        exact h.ssdBlock_eq hinv.toIndexInv
          (fun key hkey => (hinv.homed key hkey).1) hmem
      ssd_other := fun b hb => h.ssdBlock_of_notMem hb }

/-- A write of an unmapped block to a full segment always returns. -/
theorem bufferTask_of_full
    (hinv : BufferInv (smallQueue task) s.metaData)
    (hkey : lbaKey task.offset ∉ (s.metaData.hash (smallQueue task)).keys)
    (hfull : IsFull (smallQueue task) s.metaData) :
    ∃ s', bufferTask s task = some s' ∧ WritesFull task s s' := by
  by_cases hsome : MovesSome (smallQueue task) s
  · exact bufferTask_of_movesSome hinv hkey hfull hsome
  · exact bufferTask_of_movesNone hinv hkey hfull hsome

/-! ## The contents of the blocks -/

/-- A block of the segment is read from the slot that was taken or from the
SSD. -/
theorem WritesFull.contents_own (h : WritesFull task s s')
    (hb : segmentOf b = smallQueue task) :
    s'.contents b =
      if MovesSome (smallQueue task) s ∧ (lbaKey b = lbaKey task.offset ∨
        LeftBehind (smallQueue task) s (lbaKey b, 0)) then task.buf 0
      else s'.dev.ssdBlock b := by
  have htest := h.test b
  by_cases hfound : MovesSome (smallQueue task) s ∧
      (lbaKey b = lbaKey task.offset ∨
        LeftBehind (smallQueue task) s (lbaKey b, 0))
  · have hslot : slotAfter (smallQueue task) s = 0 := if_pos hfound.1
    have hne : ¬ (0 : ℤ) = -1 := by decide
    rw [if_pos hfound] at htest ⊢
    simp only [Store.contents, hb, htest, if_neg hne, h.buffer, hslot,
      MixMetadata.bufferBlock_congr h.perBlockNum, Function.update_self]
  · rw [if_neg hfound] at htest ⊢
    simp only [Store.contents, hb, htest, if_true]

/-- A mapped block of another segment keeps its contents, unless its slot is
the one that was written. -/
theorem WritesFull.contents_mapped (h : WritesFull task s s')
    (hinv : ∀ j, BufferInv j s.metaData)
    (hb : segmentOf b ≠ smallQueue task)
    (hw : (lbaKey b, w) ∈ (s.metaData.hash (segmentOf b)).entries) :
    s'.contents b =
      if s.metaData.bufferBlock (segmentOf b) w =
          s.metaData.bufferBlock (smallQueue task)
            (slotAfter (smallQueue task) s) then task.buf 0
      else s.contents b := by
  have hindex' : IndexInv (segmentOf b) s'.metaData :=
    (h.toSameElsewhere.prefixInv hb (hinv _).toPrefixInv).toIndexInv
  have hw' : (lbaKey b, w) ∈ (s'.metaData.hash (segmentOf b)).entries := by
    rw [h.hash_ne _ hb]
    exact hw
  rw [Store.contents_of_mem hindex' hw',
    Store.contents_of_mem (hinv _).toIndexInv hw, h.buffer,
    MixMetadata.bufferBlock_congr h.perBlockNum, Function.update_apply]

theorem WritesFull.contents_unmapped (h : WritesFull task s s')
    (hinv : ∀ j, BufferInv j s.metaData)
    (hb : segmentOf b ≠ smallQueue task)
    (hnot : lbaKey b ∉ (s.metaData.hash (segmentOf b)).keys) :
    s'.contents b = s.contents b := by
  have hindex' : IndexInv (segmentOf b) s'.metaData :=
    (h.toSameElsewhere.prefixInv hb (hinv _).toPrefixInv).toIndexInv
  have hnot' : lbaKey b ∉ (s'.metaData.hash (segmentOf b)).keys := by
    rw [h.hash_ne _ hb]
    exact hnot
  have hssd : b ∉ (s.metaData.hash (smallQueue task)).keys := fun hmem =>
    hb ((hinv (smallQueue task)).homed b hmem).2
  rw [Store.contents_of_notMem hindex' hnot',
    Store.contents_of_notMem (hinv _).toIndexInv hnot, h.ssd_other b hssd]

omit [BlockDevice σ β] in
theorem BufferInv.notMem_keys (hinv : BufferInv idx s.metaData)
    (hkey : lbaKey b ∉ (s.metaData.hash idx).keys) :
    b ∉ (s.metaData.hash idx).keys := by
  intro hmem
  have hlt := (hinv.homed b hmem).1
  rw [lbaKey, Nat.mod_eq_of_lt hlt] at hkey
  exact hkey hmem

omit [BlockDevice σ β] in
theorem mem_entries_of_leftBehind {kv : MixKv} (h : LeftBehind idx s kv) :
    kv ∈ (s.metaData.hash idx).entries := by
  obtain ⟨i, hi, hleft⟩ := h
  exact mem_entries.mpr ⟨i, hi, (leftPart_sublist _).subset hleft⟩

/-- What is read of a mapped block of the segment. -/
theorem WritesFull.contents_of_mem (h : WritesFull task s s')
    (hinv : BufferInv (smallQueue task) s.metaData)
    (hkey : lbaKey task.offset ∉ (s.metaData.hash (smallQueue task)).keys)
    (hw : (lbaKey b, w) ∈ (s.metaData.hash (smallQueue task)).entries) :
    s'.contents b = readAfter (smallQueue task) s (task.buf 0) b w := by
  have hmem := MixHash.mem_keys_of_mem hw
  have hsegment : segmentOf b = smallQueue task :=
    (segmentOf_lbaKey b).symm.trans (hinv.homed _ hmem).2
  have hne : lbaKey b ≠ lbaKey task.offset := fun heq => hkey (heq ▸ hmem)
  have hzero : LeftBehind (smallQueue task) s (lbaKey b, 0) ↔
      LeftBehind (smallQueue task) s (lbaKey b, w) ∧ w = 0 := by
    constructor
    · intro hleft
      have hpair := List.inj_on_of_nodup_map hinv.keys_nodup hw
        (mem_entries_of_leftBehind hleft) rfl
      have hw₀ : w = 0 := congrArg Prod.snd hpair
      subst hw₀
      exact ⟨hleft, rfl⟩
    · rintro ⟨hleft, rfl⟩
      exact hleft
  rw [h.contents_own hsegment, readAfter, h.ssd_mapped b w hw]
  simp only [hne, false_or, hzero]

/-- An unmapped block of the segment is still on the SSD. -/
theorem WritesFull.contents_of_notMem (h : WritesFull task s s')
    (hinv : BufferInv (smallQueue task) s.metaData)
    (hb : segmentOf b = smallQueue task)
    (hnot : lbaKey b ∉ (s.metaData.hash (smallQueue task)).keys)
    (hother : MovesSome (smallQueue task) s →
      lbaKey b ≠ lbaKey task.offset) :
    s'.contents b = s.contents b := by
  have hold : s.contents b = s.dev.ssdBlock b := by
    rw [← hb] at hinv hnot
    exact Store.contents_of_notMem hinv.toIndexInv hnot
  rw [h.contents_own hb, if_neg, h.ssd_other b (hinv.notMem_keys hnot), hold]
  rintro ⟨hsome, hkey | hleft⟩
  · exact hother hsome hkey
  · exact hnot (MixHash.mem_keys_of_mem (mem_entries_of_leftBehind hleft))

/-- The block that is written holds the data when something was moved. -/
theorem WritesFull.contents_self (h : WritesFull task s s')
    (hsome : MovesSome (smallQueue task) s)
    (hkey : lbaKey b = lbaKey task.offset) : s'.contents b = task.buf 0 := by
  rw [h.contents_own (segmentOf_eq_of_lbaKey hkey),
    if_pos ⟨hsome, Or.inl hkey⟩]

variable {blocks : ℕ}

/-- An exact write to a full segment had what `FullExact` says. -/
theorem WritesFull.fullExact (h : WritesFull task s s')
    (hinv : ∀ j, BufferInv j s.metaData) (hoffset : task.offset < blocks)
    (hkey : lbaKey task.offset ∉ (s.metaData.hash (smallQueue task)).keys)
    (hexact : ∀ b < blocks, s'.contents b =
      if b = task.offset then task.buf 0 else s.contents b) :
    FullExact blocks s task.offset (task.buf 0) := by
  have hown := hinv (smallQueue task)
  have hother : ∀ b < blocks, b ≠ task.offset →
      s.contents b = s'.contents b := by
    intro b hb hne
    rw [hexact b hb, if_neg hne]
  refine ⟨fun hsome b hb hne hshared => ?_, fun b hb w hw => ?_,
    fun hnone => ⟨?_, fun b hb hsegment w hw hplace => ?_⟩⟩
  · rw [hother b hb hne, h.contents_self hsome hshared]
  · have hne : b ≠ task.offset := by
      rintro rfl
      exact hkey (MixHash.mem_keys_of_mem hw)
    rw [hother b hb hne]
    exact h.contents_of_mem hown hkey hw
  · have hself := hexact task.offset hoffset
    rw [if_pos rfl, h.contents_of_notMem hown rfl hkey fun hsome =>
      absurd hsome hnone] at hself
    exact hself
  · have hne : b ≠ task.offset := by
      rintro rfl
      exact hsegment rfl
    have hslot : slotAfter (smallQueue task) s = -1 := if_neg hnone
    rw [hother b hb hne, h.contents_mapped hinv hsegment hw, hslot]
    exact if_pos hplace

/-- The blocks of the segment after a write to a full segment. -/
theorem WritesFull.exact_own (h : WritesFull task s s')
    (hinv : BufferInv (smallQueue task) s.metaData)
    (hkey : lbaKey task.offset ∉ (s.metaData.hash (smallQueue task)).keys)
    (hfull : FullExact blocks s task.offset (task.buf 0)) (hb : b < blocks)
    (hsegment : segmentOf b = smallQueue task) :
    s'.contents b = if b = task.offset then task.buf 0 else s.contents b := by
  by_cases hmapped : lbaKey b ∈ (s.metaData.hash (smallQueue task)).keys
  · obtain ⟨w, hw⟩ := MixHash.mem_keys.mp hmapped
    have hne : b ≠ task.offset := by
      rintro rfl
      exact hkey hmapped
    rw [if_neg hne, hfull.segment b hb w hw]
    exact h.contents_of_mem hinv hkey hw
  · by_cases hsome : MovesSome (smallQueue task) s
    · by_cases hshared : lbaKey b = lbaKey task.offset
      · rw [h.contents_self hsome hshared]
        split_ifs with hself
        · rfl
        · exact (hfull.shared hsome b hb hself hshared).symm
      · have hne : b ≠ task.offset := fun heq => hshared (heq ▸ rfl)
        rw [if_neg hne]
        exact h.contents_of_notMem hinv hsegment hmapped fun _ => hshared
    · rw [h.contents_of_notMem hinv hsegment hmapped fun hyes =>
        absurd hyes hsome]
      split_ifs with hself
      · rw [hself]
        exact (hfull.stray hsome).1
      · rfl

/-- The blocks of the other segments after a write to a full segment. -/
theorem WritesFull.exact_other (h : WritesFull task s s')
    (hinv : ∀ j, BufferInv j s.metaData)
    (hfull : FullExact blocks s task.offset (task.buf 0)) (hb : b < blocks)
    (hsegment : segmentOf b ≠ smallQueue task) :
    s'.contents b = s.contents b := by
  by_cases hmapped : lbaKey b ∈ (s.metaData.hash (segmentOf b)).keys
  · obtain ⟨w, hw⟩ := MixHash.mem_keys.mp hmapped
    rw [h.contents_mapped hinv hsegment hw]
    split_ifs with hplace
    · by_cases hsome : MovesSome (smallQueue task) s
      · -- slot `0` is a slot of the segment of the task
        have hslot : slotAfter (smallQueue task) s = (0 : ℕ) :=
          if_pos hsome
        have hone := (hinv (smallQueue task)).ready.one_lt
        rw [hslot] at hplace
        have hinj := MixMetadata.bufferBlock_inj (hinv (segmentOf b)).per_lt
          ((hinv _).value_lt w (MixHash.mem_values_of_mem hw))
          (by omega) hplace
        exact absurd hinj.1 hsegment
      · have hslot : slotAfter (smallQueue task) s = -1 := if_neg hsome
        rw [hslot] at hplace
        exact ((hfull.stray hsome).2 b hb hsegment w hw hplace).symm
    · rfl
  · exact h.contents_unmapped hinv hsegment hmapped

/-- A write to a full segment is exact under `FullExact` alone. -/
theorem WritesFull.exact_iff (h : WritesFull task s s')
    (hinv : ∀ j, BufferInv j s.metaData) (hoffset : task.offset < blocks)
    (hkey : lbaKey task.offset ∉ (s.metaData.hash (smallQueue task)).keys) :
    (∀ b < blocks, s'.contents b =
        if b = task.offset then task.buf 0 else s.contents b) ↔
      FullExact blocks s task.offset (task.buf 0) := by
  constructor
  · exact h.fullExact hinv hoffset hkey
  · intro hfull b hb
    by_cases hsegment : segmentOf b = smallQueue task
    · exact h.exact_own (hinv _) hkey hfull hb hsegment
    · have hne : b ≠ task.offset := by
        rintro rfl
        exact hsegment rfl
      rw [if_neg hne]
      exact h.exact_other hinv hfull hb hsegment

/-! ## Small writes -/

/-- The small write of a request, skipped or buffered, changes what it says and
nothing else. -/
structure SmallExact (blocks : ℕ) (s : Store σ β) (request : Request β) :
    Prop where
  skipped : request.flags &&& mixClear ≠ 0 →
    request.len = 0 ∨ s.contents request.lba = request.buf 0
  shared : request.flags &&& mixClear = 0 → request.len = 1 →
    HasSlot s request.lba → ∀ b < blocks, b ≠ request.lba →
      lbaKey b = lbaKey request.lba → s.contents b = request.buf 0
  full : request.flags &&& mixClear = 0 → request.len = 1 →
    ¬ HasSlot s request.lba →
      FullExact blocks s request.lba (request.buf 0)
  held : request.flags &&& mixClear = 0 → request.len = 0 →
    ∃ v : ℕ, mixBufferBlockTest s.metaData request.lba
        (segmentOf request.lba) = v ∧
      s.dev.buffer (s.metaData.bufferBlock (segmentOf request.lba) v) =
        request.buf 0 ∧
      s.dev.bufferMeta (s.metaData.bufferBlock (segmentOf request.lba) v) =
        ⟨1, 0, request.lba, request.flags ||| mixWrite⟩

variable {request : Request β} {c : Fin 16}

omit [BlockDevice σ β] in
theorem Request.IsSmallWrite.lba_lt (h : request.IsSmallWrite blocks) :
    request.lba < blocks := by
  have hrange := h.range
  have hlt := h.block_lt
  rw [Request.lba]
  omega

theorem writesExactly_of_len_one (hlen : request.len = 1) :
    WritesExactly blocks request s s' ↔ ∀ b < blocks, s'.contents b =
      if b = request.lba then request.buf 0 else s.contents b := by
  have hcovers : ∀ b, request.lba ≤ b ∧ b < request.lba + request.len ↔
      b = request.lba := by
    intro b
    omega
  have hdata : ∀ b, (if b = request.lba then
      request.buf (b - request.lba) else s.contents b) =
        if b = request.lba then request.buf 0 else s.contents b := by
    intro b
    split_ifs with hb
    · rw [hb, Nat.sub_self]
    · rfl
  constructor
  · intro hexact b hb
    have hcontents := hexact.contents b hb
    simp only [hcovers, hdata] at hcontents
    exact hcontents
  · intro hcontents
    refine ⟨fun b hb => ?_, fun hzero => by omega⟩
    simp only [hcovers, hdata]
    exact hcontents b hb

/-- An entry is made for a block that is not mapped. -/
theorem entries_ne_of_notMem (hinv : BufferInv (smallQueue task) s.metaData)
    (hkey : lbaKey task.offset ∉ (s.metaData.hash (smallQueue task)).keys)
    (hstep : bufferTask s task = some s') :
    (s'.metaData.hash (smallQueue task)).entries ≠
      (s.metaData.hash (smallQueue task)).entries := by
  by_cases hfull : IsFull (smallQueue task) s.metaData
  · obtain ⟨s₁, hstep₁, h⟩ := bufferTask_of_full hinv hkey hfull
    rw [hstep, Option.some.injEq] at hstep₁
    subst hstep₁
    exact h.entries_ne
  · obtain ⟨s₁, v, hstep₁, -, hlength⟩ :=
      bufferTask_of_notMem hinv.toPrefixInv hkey hfull
    rw [hstep, Option.some.injEq] at hstep₁
    subst hstep₁
    intro heq
    rw [heq] at hlength
    omega

/-- Nothing is written exactly when the block is mapped and its slot already
holds what is written there. -/
theorem writesExactly_zero_iff (hsmall : request.IsSmallWrite blocks)
    (hlen : request.len = 0) (hinv : ∀ j, BufferInv j s.metaData) :
    (∃ s', bufferTask s (request.task c) = some s' ∧
        WritesExactly blocks request s s') ↔
      ∃ v : ℕ, mixBufferBlockTest s.metaData request.lba
          (segmentOf request.lba) = v ∧
        s.dev.buffer (s.metaData.bufferBlock (segmentOf request.lba) v) =
          request.buf 0 ∧
        s.dev.bufferMeta (s.metaData.bufferBlock (segmentOf request.lba) v) =
          ⟨1, 0, request.lba, request.flags ||| mixWrite⟩ := by
  have htask := hsmall.task_eq c
  have hqueue : smallQueue (request.task c) = segmentOf request.lba := by
    rw [htask]
    rfl
  have hown := hinv (smallQueue (request.task c))
  have hoffset : (request.task c).offset = request.lba := by rw [htask]
  constructor
  · rintro ⟨s', hstep, hexact⟩
    obtain ⟨hentries, hrecords⟩ := hexact.empty hlen
    have hkey : lbaKey (request.task c).offset ∈
        (s.metaData.hash (smallQueue (request.task c))).keys := by
      by_contra hnot
      exact entries_ne_of_notMem hown hnot hstep (hentries _)
    obtain ⟨v, hmem⟩ := MixHash.mem_keys.mp hkey
    obtain ⟨s₁, hstep₁, hat, -⟩ := bufferTask_of_mem hown.toPrefixInv hmem
    rw [hstep, Option.some.injEq] at hstep₁
    subst hstep₁
    have htest := hown.toIndexInv.blockTest_of_mem hmem
    have hcontents := hexact.contents request.lba hsmall.lba_lt
    have hdata := hat.contents_same (b := request.lba) (by rw [hoffset])
    have hrecord := congrFun hrecords
      (s.metaData.bufferBlock (smallQueue (request.task c)) v)
    rw [hqueue, hoffset] at hmem htest
    rw [hdata, if_neg (by omega),
      Store.contents_of_mem (hinv _).toIndexInv hmem, htask] at hcontents
    rw [hat.dev, mixBufferWrite_bufferMeta, Function.update_self, hqueue,
      htask] at hrecord
    exact ⟨v, htest, hcontents.symm, hrecord.symm⟩
  · rintro ⟨v, htest, hdata, hrecord⟩
    rw [← hqueue, ← hoffset] at htest
    have hmem := hown.toIndexInv.blockTest_eq_iff.mp htest
    obtain ⟨s', hstep, hat, hmeta⟩ := bufferTask_of_mem hown.toPrefixInv hmem
    have hdev : s'.dev = s.dev := by
      rw [hat.dev, htask]
      simp only [mixBufferWrite, mixBufferWriteMeta, mixBufferWriteData]
      rw [← hdata, ← hrecord]
      simp only [Function.update_eq_self, smallQueue, segmentOf]
    refine ⟨s', hstep, fun b _ => ?_, fun _ => ⟨fun j => ?_, ?_⟩⟩
    · rw [if_neg (by omega), Store.contents, Store.contents, hmeta, hdev]
    · rw [hmeta]
    · rw [hdev]

theorem bufferTask_exact_iff (hsmall : request.IsSmallWrite blocks)
    (hinv : ∀ j, BufferInv j s.metaData)
    (hclear : request.flags &&& mixClear = 0) :
    (∃ s', bufferTask s (request.task c) = some s' ∧
        WritesExactly blocks request s s') ↔
      SmallExact blocks s request := by
  have htask := hsmall.task_eq c
  have hown := hinv (smallQueue (request.task c))
  have hoffset : (request.task c).offset = request.lba := by rw [htask]
  rcases Nat.le_one_iff_eq_zero_or_eq_one.mp hsmall.len_le with hzero | hone
  · rw [writesExactly_zero_iff hsmall hzero hinv]
    exact ⟨fun h => ⟨fun h' => absurd hclear h', fun _ h' => by omega,
      fun _ h' => by omega, fun _ _ => h⟩, fun h => h.held hclear hzero⟩
  · by_cases hslot : HasSlot s request.lba
    · rw [← hoffset] at hslot
      obtain ⟨s', v, hstep, hat⟩ :=
        bufferTask_buffersAt hown.toPrefixInv hslot
      simp only [hstep, Option.some.injEq, exists_eq_left']
      rw [hat.writesExactly_one_iff hsmall hone hinv]
      rw [hoffset] at hslot
      exact ⟨fun h => ⟨fun h' => absurd hclear h', fun _ _ _ => h,
        fun _ _ h' => absurd hslot h', fun _ h' => by omega⟩,
        fun h => h.shared hclear hone hslot⟩
    · obtain ⟨hmiss, hfull⟩ := not_or.mp hslot
      rw [not_not] at hmiss hfull
      have hkey : lbaKey (request.task c).offset ∉
          (s.metaData.hash (smallQueue (request.task c))).keys := by
        intro hmem
        obtain ⟨v, hv⟩ := MixHash.mem_keys.mp hmem
        have htest := hown.toIndexInv.blockTest_of_mem hv
        rw [smallQueue_eq, hoffset, hmiss] at htest
        omega
      obtain ⟨s', hstep, h⟩ := bufferTask_of_full hown hkey (by
        rw [smallQueue_eq, hoffset]
        exact hfull)
      have hexact := h.exact_iff hinv (by
        rw [hoffset]
        exact hsmall.lba_lt) hkey
      simp only [hstep, Option.some.injEq, exists_eq_left']
      rw [writesExactly_of_len_one hone]
      rw [htask] at hexact
      rw [hexact]
      exact ⟨fun h => ⟨fun h' => absurd hclear h',
        fun _ _ h' => absurd h' hslot, fun _ _ _ => h,
        fun _ h' => by omega⟩, fun h => h.full hclear hone hslot⟩

/-- The invariant of buffered writes that found a slot. -/
theorem bufferInv_of_bufferTasks {blockNum : ℕ} (hsize : ValidSize blockNum)
    {migration : Fin 4 → Bool} {dev : Devices σ β}
    {tasks : List (IoTask β)}
    (hslots : AllSteps bufferTask (fun s task => HasSlot s task.offset)
      (freshStore blockNum migration dev) tasks)
    (hrun : runOps bufferTask (freshStore blockNum migration dev) tasks =
      some s) (j : Fin 4) : BufferInv j s.metaData := by
  have hfresh : ∀ j, BufferInv j
      (freshStore blockNum migration dev).metaData := by
    intro j
    refine ⟨mixMetadataInit_prefixInv hsize migration j, ?_, ?_⟩
    · intro key hkey
      rw [MixHash.keys, freshStore, mixMetadataInit_entries] at hkey
      exact absurd hkey List.not_mem_nil
    · exact testBit_mixMetadataInit migration j uint32Max
  have hall : AllStates bufferTask (fun s => ∀ j, BufferInv j s.metaData)
      (freshStore blockNum migration dev) tasks := by
    refine allStates_of_allSteps ?_ hfresh hslots
    intro s₁ task s₂ hinv hslot hstep
    obtain ⟨s₃, v, hstep', hat⟩ :=
      bufferTask_buffersAt (hinv (smallQueue task)).toPrefixInv hslot
    rw [hstep, Option.some.injEq] at hstep'
    subst hstep'
    exact hat.bufferInv hinv
  exact hall.of_runOps hfresh hrun j

/-- In the states that buffered writes reach, a small write is exact under
`SmallExact` alone, or posts nothing. -/
theorem smallWrite_exact_iff {blockNum : ℕ} (hsize : ValidSize blockNum)
    (migration : Fin 4 → Bool) (dev : Devices σ β) (tasks : List (IoTask β))
    (hslots : AllSteps bufferTask (fun s task => HasSlot s task.offset)
      (freshStore blockNum migration dev) tasks)
    (s : Store σ β)
    (hrun : runOps bufferTask (freshStore blockNum migration dev) tasks =
      some s)
    (request : Request β) (c : Fin 16) (blocks : ℕ)
    (hsmall : request.IsSmallWrite blocks) :
    (∀ posting ∈ request.postings c, ∃ s',
        handleTask s posting.task = some s' ∧
          WritesExactly blocks request s s') ↔
      (request.flags &&& mixRead = 0 → SmallExact blocks s request) := by
  have hinv := bufferInv_of_bufferTasks hsize hslots hrun
  rw [hsmall.postings_eq c]
  by_cases hread : request.flags &&& mixRead = 0
  · have hbranch := hsmall.branch hread c
    rw [if_pos hread]
    simp only [List.mem_singleton, forall_eq, hread, forall_const]
    by_cases hclear : request.flags &&& mixClear = 0
    · rw [if_pos hclear] at hbranch
      have hhandle : handleTask s (request.task c) =
          bufferTask s (request.task c) := by
        simp only [handleTask, hbranch, bufferTask]
      rw [hhandle]
      exact bufferTask_exact_iff hsmall hinv hclear
    · rw [if_neg hclear] at hbranch
      have hhandle : handleTask s (request.task c) = some s := by
        simp only [handleTask, hbranch]
      simp only [hhandle, Option.some.injEq, exists_eq_left']
      rw [writesExactly_self_iff hsmall.lba_lt hsmall.len_le]
      exact ⟨fun h => ⟨fun _ => h, fun h' => absurd h' hclear,
        fun h' => absurd h' hclear, fun h' => absurd h' hclear⟩,
        fun h => h.skipped hclear⟩
  · rw [if_neg hread]
    exact ⟨fun _ h => absurd h hread, fun _ posting hmem =>
      absurd hmem List.not_mem_nil⟩

/-- Writes to blocks of three segments, one of them made twice. -/
def bufferedTasks : List (IoTask ℕ) :=
  [smallWrite 0 5, smallWrite 1 6, smallWrite 4 7, smallWrite 6 8,
    smallWrite 1 9]

def bufferedStore : Store (ℕ → ℕ) ℕ :=
  (runOps bufferTask (freshStore 32 (fun _ => false) zeroDevices)
    bufferedTasks).get (by decide +kernel)

/-- A one-block write to a mapped block is exact, and so is one to an unmapped
block of the same segment. -/
theorem smallWrite_exact_iff_buffered :
    (∀ posting ∈ (writeRequest 4 1 3).postings 0, ∃ s',
        handleTask bufferedStore posting.task = some s' ∧
          WritesExactly 64 (writeRequest 4 1 3) bufferedStore s') ∧
      ∀ posting ∈ (writeRequest 8 1 3).postings 0, ∃ s',
        handleTask bufferedStore posting.task = some s' ∧
          WritesExactly 64 (writeRequest 8 1 3) bufferedStore s' := by
  have hslots : AllSteps bufferTask (fun s task => HasSlot s task.offset)
      (freshStore 32 (fun _ => false) zeroDevices) bufferedTasks := by
    decide +kernel
  have hrun : runOps bufferTask (freshStore 32 (fun _ => false) zeroDevices)
      bufferedTasks = some bufferedStore := (Option.some_get _).symm
  constructor
  · refine (smallWrite_exact_iff (show ValidSize 32 by decide) _ _ _ hslots _
      hrun (writeRequest 4 1 3) 0 64
      ⟨rfl, by decide, by decide, by decide, by decide, by decide⟩).mpr
      fun _ => ?_
    exact ⟨fun h => absurd h (by decide), fun _ _ _ => by decide +kernel,
      fun _ _ h => absurd (by decide +kernel) h,
      fun _ h => absurd h (by decide)⟩
  · refine (smallWrite_exact_iff (show ValidSize 32 by decide) _ _ _ hslots _
      hrun (writeRequest 8 1 3) 0 64
      ⟨rfl, by decide, by decide, by decide, by decide, by decide⟩).mpr
      fun _ => ?_
    exact ⟨fun h => absurd h (by decide), fun _ _ _ => by decide +kernel,
      fun _ _ h => absurd (by decide +kernel) h,
      fun _ h => absurd h (by decide)⟩

/-- A write of no block to the first SSD block of the fresh store is exact
only if that block is mapped, which it is not. -/
theorem emptyWrite_not_exact :
    (writeRequest 0 0 7).IsSmallWrite 64 ∧
      ¬ ∀ posting ∈ (writeRequest 0 0 7).postings 0, ∃ s',
        handleTask (freshStore 32 (fun _ => false) zeroDevices)
            posting.task = some s' ∧
          WritesExactly 64 (writeRequest 0 0 7)
            (freshStore 32 (fun _ => false) zeroDevices) s' := by
  refine ⟨⟨rfl, by decide, by decide, by decide, by decide, by decide⟩, ?_⟩
  intro h
  obtain ⟨s', hstep, hexact⟩ := h _ List.mem_cons_self
  have hcontents := hexact.contents 0 (by decide)
  have hwrote : handleTask (freshStore 32 (fun _ => false) zeroDevices)
      ((writeRequest 0 0 7).task 0) = some ((handleTask
        (freshStore 32 (fun _ => false) zeroDevices)
        ((writeRequest 0 0 7).task 0)).get (by decide +kernel)) :=
    (Option.some_get _).symm
  rw [hwrote, Option.some.injEq] at hstep
  rw [← hstep] at hcontents
  exact absurd hcontents (by decide +kernel)

end Uhs
