import Uhs.Core.Redirect

/-!
# Taking a slot

What one call of `redirect_write` does to the index of its segment, as far as
it follows from the shape of the data alone: it hits a mapped slot, or it
takes a clear one, possibly after a migration.  Whether the slot that was
taken is also entered into the hash depends on one more bit of the bitmap.
-/

namespace Uhs

open Support

/-- What every operation on segment `idx` keeps, whatever was done before. -/
structure SegmentShape (idx : Fin 4) (metaData : MixMetadata) : Prop where
  per_lt : metaData.perBlockNum < 2 ^ 20
  threads_pos : 0 < metaData.migrateThreadNum
  wf : (metaData.hash idx).Wf
  ready : (metaData.segments idx).bitmap.Ready metaData.perBlockNum

/-- The segment has no slot left, by its counter. -/
def IsFull (idx : Fin 4) (metaData : MixMetadata) : Prop :=
  (metaData.segments idx).usedBlockNum = metaData.perBlockNum

instance (idx : Fin 4) (metaData : MixMetadata) :
    Decidable (IsFull idx metaData) :=
  inferInstanceAs (Decidable (_ = _))

/-- The hash key of a logical block, an `uint32_t`. -/
def lbaKey (lba : ℕ) : ℕ := lba % 2 ^ 32

/-- The bit that decides whether slot `s` is entered into the hash. -/
theorem guardBit_natCast (idx : Fin 4) {s : ℕ} (hs : s < 2 ^ 20) :
    guardBit idx s = (s - idx.val) / 4 := by
  have hidx := idx.isLt
  rw [guardBit, segmentNum, Nat.cast_ofNat]
  rcases le_total idx.val s with hle | hlt
  · have hcast : ((s : ℤ) - idx.val) = ((s - idx.val : ℕ) : ℤ) := by omega
    rw [hcast, Int.natCast_tdiv_eq_ediv]
    omega
  · -- a negative dividend above `-4` is rounded to zero
    have hcast : ((s : ℤ) - idx.val) = -((idx.val - s : ℕ) : ℤ) := by omega
    rw [hcast, Int.neg_tdiv, Int.natCast_tdiv_eq_ediv]
    omega

/-- The hash entry is made exactly when this holds of the bitmap before. -/
def GuardSet (idx : Fin 4) (metaData : MixMetadata) (s : ℕ) : Prop :=
  s = 0 ∨
    testBit (metaData.segments idx).bitmap.array ((s - idx.val) / 4) = true

instance (idx : Fin 4) (metaData : MixMetadata) (s : ℕ) :
    Decidable (GuardSet idx metaData s) :=
  inferInstanceAs (Decidable (_ ∨ _))

/-- Effect of entering slot `s` for `key`. -/
structure Claimed (idx : Fin 4) (key s : ℕ) (m m' : MixMetadata) :
    Prop extends MixMetadata.SameElsewhere idx m m' where
  shape : SegmentShape idx m'
  entries : (m'.hash idx).entries.Perm ((key, s) :: (m.hash idx).entries)
  freeNodes : (m'.hash idx).freeNodes + 1 = (m.hash idx).freeNodes
  used : (m'.segments idx).usedBlockNum = (m.segments idx).usedBlockNum + 1
  array : (m'.segments idx).bitmap.array =
    setBit (m.segments idx).bitmap.array s
  nextBit : testBit (m.segments idx).bitmap.array
      (m.segments idx).bitmap.nextBit = false →
    (m'.segments idx).bitmap.nextBit =
      ((m.segments idx).bitmap.nextBit + 1) % m.perBlockNum

/-- Effect of taking slot `s` without entering it: the second bit is stray. -/
structure Strayed (idx : Fin 4) (s : ℕ) (m m' : MixMetadata) :
    Prop extends MixMetadata.SameElsewhere idx m m' where
  hash : m'.hash = m.hash
  shape : SegmentShape idx m'
  used : (m'.segments idx).usedBlockNum = (m.segments idx).usedBlockNum
  array : (m'.segments idx).bitmap.array =
    setBit (setBit (m.segments idx).bitmap.array s) ((s - idx.val) / 4)

variable {σ β : Type*}

/-- The end of `redirect_write`'s allocation: take a slot and enter it. -/
def takeSlot (s : Store σ β) (task : IoTask β) (idx : Fin 4)
    (migrated : Bool) : Option (SlotChoice σ β) :=
  (mixGetNextFreeBlock s.metaData idx).bind fun (offset, metaData) =>
    claimSlot { s with metaData := metaData } task idx migrated offset

variable {idx : Fin 4} {s : Store σ β} {task : IoTask β}

theorem mixGetNextFreeBlock_of_full {m : MixMetadata} (hfull : IsFull idx m) :
    mixGetNextFreeBlock m idx = some (-1, m) := by
  unfold IsFull at hfull
  rw [mixGetNextFreeBlock, if_pos hfull]

/-- With room left, the allocator hands out the first clear bit. -/
theorem mixGetNextFreeBlock_of_room {m : MixMetadata}
    (hshape : SegmentShape idx m) (hroom : ¬ IsFull idx m)
    {r : ℤ × MixMetadata} (h : mixGetNextFreeBlock m idx = some r) :
    ∃ (slot : ℕ) (bitmap : MixBitmap),
      r = ((slot : ℤ), m.setBitmap idx bitmap) ∧
      (m.segments idx).bitmap.IsNextClear m.perBlockNum slot ∧
      bitmap.array = setBit (m.segments idx).bitmap.array slot ∧
      bitmap.Ready m.perBlockNum ∧
      (testBit (m.segments idx).bitmap.array
          (m.segments idx).bitmap.nextBit = false →
        bitmap.nextBit =
          ((m.segments idx).bitmap.nextBit + 1) % m.perBlockNum) := by
  unfold IsFull at hroom
  rw [mixGetNextFreeBlock, if_neg hroom, Option.map_eq_some_iff] at h
  obtain ⟨⟨slot, bitmap⟩, hnext, rfl⟩ := h
  obtain ⟨n, rfl, hclear, harray, hready, hcursor⟩ :=
    mixBitmapNextZeroBit_spec hshape.ready hnext
  exact ⟨n, bitmap, rfl, hclear, harray, hready, hcursor⟩

/-! ## The slot that is taken -/

theorem SegmentShape.setBitmap {m : MixMetadata} (hshape : SegmentShape idx m)
    {bitmap : MixBitmap} (hready : bitmap.Ready m.perBlockNum) :
    SegmentShape idx (m.setBitmap idx bitmap) where
  per_lt := hshape.per_lt
  threads_pos := hshape.threads_pos
  wf := hshape.wf
  ready := by simpa using hready

theorem SegmentShape.setHash_addUsed {m : MixMetadata}
    (hshape : SegmentShape idx m) {hash : MixHash} (hwf : hash.Wf)
    (count : ℤ) : SegmentShape idx ((m.setHash idx hash).addUsed idx count)
    where
  per_lt := hshape.per_lt
  threads_pos := hshape.threads_pos
  wf := by simpa using hwf
  ready := by simpa using hshape.ready

variable (idx) in
/-- The bit tested by `mix_write_redirect_blockmeta` once `slot` is set. -/
theorem testBit_guardBit_iff {m : MixMetadata} (hper : m.perBlockNum < 2 ^ 20)
    {slot : ℕ} (hslot : slot < m.perBlockNum) :
    testBit (setBit (m.segments idx).bitmap.array slot)
      (guardBit idx slot) = true ↔ GuardSet idx m slot := by
  rw [guardBit_natCast idx (by omega), testBit_setBit, GuardSet,
    Bool.or_eq_true, decide_eq_true_eq]
  have hiff : (slot - idx.val) / 4 = slot ↔ slot = 0 := by omega
  rw [hiff]

/-- `mix_write_redirect_blockmeta` after the allocator has set bit `slot`. -/
theorem mixWriteRedirectBlockmeta_spec {m m' : MixMetadata} {lba slot : ℕ}
    (hshape : SegmentShape idx m) (hslot : slot < m.perBlockNum)
    {bitmap : MixBitmap}
    (harray : bitmap.array = setBit (m.segments idx).bitmap.array slot)
    (hready : bitmap.Ready m.perBlockNum)
    (hcursor : testBit (m.segments idx).bitmap.array
        (m.segments idx).bitmap.nextBit = false →
      bitmap.nextBit =
        ((m.segments idx).bitmap.nextBit + 1) % m.perBlockNum)
    (h : mixWriteRedirectBlockmeta (m.setBitmap idx bitmap) idx lba slot =
      some m') :
    GuardSet idx m slot ∧ Claimed idx (lbaKey lba) slot m m' ∨
      ¬ GuardSet idx m slot ∧ Strayed idx slot m m' := by
  have hper := hshape.per_lt
  have hguard := testBit_guardBit_iff idx hper hslot
  have hshape' := hshape.setBitmap hready
  simp only [mixWriteRedirectBlockmeta, mixBitmapSetBit,
    MixMetadata.setBitmap_self, harray] at h
  by_cases hset : GuardSet idx m slot
  · refine Or.inl ⟨hset, ?_⟩
    have hbit := hguard.mpr hset
    have hvalue : ((slot : ℤ) % 2 ^ 32).toNat = slot := by omega
    rw [hbit, setBit_eq_self hbit, ← harray,
      MixMetadata.setBitmap_eq_self (by simp)] at h
    simp only [Bool.not_true, Bool.false_eq_true, if_false, hvalue,
      MixMetadata.setBitmap_hash, Option.map_eq_some_iff] at h
    obtain ⟨hash, hput, rfl⟩ := h
    obtain ⟨hwf, hentries, hfree, -⟩ := mixHashPut_spec hshape.wf hput
    exact
      { toSameElsewhere := ((MixMetadata.sameElsewhere_setBitmap _ _ _).trans
          (MixMetadata.sameElsewhere_setHash _ _ _)).trans
            (MixMetadata.sameElsewhere_addUsed _ _ _)
        shape := hshape'.setHash_addUsed hwf 1
        entries := by simpa [lbaKey] using hentries
        freeNodes := by simpa using hfree
        used := by simp
        array := by simpa using harray
        nextBit := by simpa using hcursor }
  · refine Or.inr ⟨hset, ?_⟩
    have hbit : testBit (setBit (m.segments idx).bitmap.array slot)
        (guardBit idx slot) = false := by
      rw [← Bool.not_eq_true, hguard]
      exact hset
    rw [hbit] at h
    simp only [Bool.not_false, if_true, Option.some.injEq] at h
    subst h
    exact
      { toSameElsewhere := (MixMetadata.sameElsewhere_setBitmap _ _ _).trans
          (MixMetadata.sameElsewhere_setBitmap _ _ _)
        hash := rfl
        shape := hshape'.setBitmap ⟨hready.bits_eq, hready.one_lt,
          hready.nextBit_lt⟩
        used := by simp
        array := by simp [guardBit_natCast idx (show slot < 2 ^ 20 by omega)] }

theorem mixWriteRedirectBlockmeta_isSome {m : MixMetadata} {lba : ℕ}
    {value : ℤ} (hnode : (m.hash idx).freeNodes ≠ 0) :
    (mixWriteRedirectBlockmeta m idx lba value).isSome := by
  rw [mixWriteRedirectBlockmeta]
  split
  split
  · rfl
  · rw [Option.isSome_map, ← Option.ne_none_iff_isSome, ne_eq,
      mixHashPut_eq_none_iff]
    exact hnode

/-- A slot is taken, and entered exactly when the second bit is set. -/
theorem takeSlot_spec (hshape : SegmentShape idx s.metaData)
    (hroom : ¬ IsFull idx s.metaData) {migrated : Bool}
    {choice : SlotChoice σ β}
    (h : takeSlot s task idx migrated = some choice) :
    ∃ slot : ℕ,
      (s.metaData.segments idx).bitmap.IsNextClear s.metaData.perBlockNum
        slot ∧
      choice.slot = slot ∧ choice.migrated = migrated ∧
      choice.store.dev = s.dev ∧
      (GuardSet idx s.metaData slot ∧
          Claimed idx (lbaKey task.offset) slot s.metaData
            choice.store.metaData ∨
        ¬ GuardSet idx s.metaData slot ∧
          Strayed idx slot s.metaData choice.store.metaData) := by
  rw [takeSlot, Option.bind_eq_some_iff] at h
  obtain ⟨r, hnext, hclaim⟩ := h
  obtain ⟨slot, bitmap, rfl, hclear, harray, hready, hcursor⟩ :=
    mixGetNextFreeBlock_of_room hshape hroom hnext
  obtain ⟨m', hwrite, rfl⟩ := Option.map_eq_some_iff.mp hclaim
  exact ⟨slot, hclear, rfl, rfl, rfl, mixWriteRedirectBlockmeta_spec hshape
    hclear.lt harray hready hcursor hwrite⟩

/-- A call returns when there is a clear bit and, unless the second bit sends
it away, a free node. -/
theorem takeSlot_isSome (hshape : SegmentShape idx s.metaData)
    (hroom : ¬ IsFull idx s.metaData)
    (hclear : ∃ i < s.metaData.perBlockNum,
      testBit (s.metaData.segments idx).bitmap.array i = false)
    (hnode : (s.metaData.hash idx).freeNodes ≠ 0 ∨
      ∀ slot, (s.metaData.segments idx).bitmap.IsNextClear
        s.metaData.perBlockNum slot → ¬ GuardSet idx s.metaData slot)
    (task : IoTask β) (migrated : Bool) :
    ∃ choice, takeSlot s task idx migrated = some choice := by
  obtain ⟨slot, bitmap, hsome⟩ :=
    mixBitmapNextZeroBit_isSome hshape.ready hclear
  have hnext : mixGetNextFreeBlock s.metaData idx =
      some (slot, s.metaData.setBitmap idx bitmap) := by
    unfold IsFull at hroom
    rw [mixGetNextFreeBlock, if_neg hroom, hsome]
    rfl
  obtain ⟨n, bitmap', heq, hn, harray, hready, -⟩ :=
    mixGetNextFreeBlock_of_room hshape hroom hnext
  simp only [takeSlot, hnext, heq, Option.bind_some, claimSlot]
  rw [← Option.isSome_iff_exists, Option.isSome_map]
  rcases hnode with hfree | hguard
  · exact mixWriteRedirectBlockmeta_isSome hfree
  · have hbit : testBit (setBit (s.metaData.segments idx).bitmap.array n)
        (guardBit idx n) = false := by
      rw [← Bool.not_eq_true, testBit_guardBit_iff idx hshape.per_lt hn.lt]
      exact hguard n hn
    simp [mixWriteRedirectBlockmeta, mixBitmapSetBit, harray, hbit]

/-! ## The paths of `redirect_write` -/

section Paths

variable [BlockDevice σ β]

theorem redirectSlot_of_hit {v : ℤ}
    (hit : mixBufferBlockTest s.metaData task.offset idx = v) (hv : v ≠ -1) :
    redirectSlot s task idx = some ⟨false, v, s⟩ := by
  simp [redirectSlot, hit, hv]

theorem redirectSlot_of_room (hshape : SegmentShape idx s.metaData)
    (hmiss : mixBufferBlockTest s.metaData task.offset idx = -1)
    (hroom : ¬ IsFull idx s.metaData) :
    redirectSlot s task idx = takeSlot s task idx false := by
  rw [redirectSlot, takeSlot]
  simp only [hmiss, if_true]
  cases hnext : mixGetNextFreeBlock s.metaData idx with
  | none => rfl
  | some r =>
      obtain ⟨slot, bitmap, rfl, -⟩ :=
        mixGetNextFreeBlock_of_room hshape hroom hnext
      have hslot : ¬ ((slot : ℤ) = -1) := by omega
      simp [hslot]

theorem redirectSlot_of_full
    (hmiss : mixBufferBlockTest s.metaData task.offset idx = -1)
    (hfull : IsFull idx s.metaData) :
    redirectSlot s task idx =
      takeSlot (mixMigrateSegment s idx) task idx true := by
  rw [redirectSlot, takeSlot]
  simp only [hmiss, if_true, mixGetNextFreeBlock_of_full hfull,
    Option.bind_some]

end Paths

end Uhs
