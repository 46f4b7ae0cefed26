import Uhs.Segment.Operations

/-!
# Space accounting

Three records of the space in use: the counter, the bitmap and the hash.  They
agree after every operation of a run exactly when each write that takes a slot
also enters it, and no migration meets the block `2 ^ 32 - 1`.  A write that
takes a slot without entering it leaves two bits set for nothing, and a
migration that meets `2 ^ 32 - 1` drops that pair without counting it.
-/

namespace Uhs

open Support

/-- The counter, the bitmap and the hash agree, the allocator returns `-1`
exactly when all slots are mapped, and otherwise its search ends. -/
structure Accounting (idx : Fin 4) (m : MixMetadata) : Prop where
  used_eq_bits : (m.segments idx).usedBlockNum =
    (setBits (m.segments idx).bitmap.array m.perBlockNum).card
  used_eq_entries :
    (m.segments idx).usedBlockNum = (m.hash idx).entries.length
  full_iff : (∃ m', mixGetNextFreeBlock m idx = some (-1, m')) ↔
    (m.hash idx).entries.length = m.perBlockNum
  search_ends : (m.segments idx).usedBlockNum < m.perBlockNum →
    ∃ r, mixGetNextFreeBlock m idx = some r

/-- The index invariant without stray bits. -/
structure ExactInv (idx : Fin 4) (m : MixMetadata) : Prop
    extends IndexInv idx m where
  bits : (setBits (m.segments idx).bitmap.array m.perBlockNum).card =
    (m.hash idx).entries.length

variable {idx : Fin 4} {m m' : MixMetadata} {key slot : ℕ}

theorem ExactInv.length_le (hinv : ExactInv idx m) :
    (m.hash idx).entries.length ≤ m.perBlockNum := by
  rw [← hinv.bits]
  exact (Finset.card_filter_le _ _).trans (Finset.card_range _).le

/-- Away from a full segment the allocator finds a clear bit. -/
theorem ExactInv.exists_clear (hinv : ExactInv idx m)
    (hroom : ¬ IsFull idx m) :
    ∃ i < m.perBlockNum,
      testBit (m.segments idx).bitmap.array i = false := by
  apply exists_clear_bit
  rw [hinv.bits]
  exact lt_of_le_of_ne hinv.length_le
    (mt hinv.isFull_iff.mpr hroom)

theorem ExactInv.accounting (hinv : ExactInv idx m) : Accounting idx m where
  used_eq_bits := by rw [hinv.used, hinv.bits]
  used_eq_entries := hinv.used
  full_iff := by
    rw [← hinv.isFull_iff]
    constructor
    · rintro ⟨m', hnext⟩
      by_contra hroom
      obtain ⟨n, bitmap, hr, -⟩ :=
        mixGetNextFreeBlock_of_room hinv.toSegmentShape hroom hnext
      simp only [Prod.mk.injEq] at hr
      omega
    · intro hfull
      exact ⟨m, mixGetNextFreeBlock_of_full hfull⟩
  search_ends := by
    intro hlt
    have hroom : ¬ IsFull idx m := hlt.ne
    obtain ⟨slot, bitmap, hsome⟩ :=
      mixBitmapNextZeroBit_isSome hinv.ready (hinv.exists_clear hroom)
    unfold IsFull at hroom
    exact ⟨_, by rw [mixGetNextFreeBlock, if_neg hroom, hsome]; rfl⟩

/-! ## Operations that keep the accounts -/

theorem Claimed.exactInv (h : Claimed idx key slot m m')
    (hinv : ExactInv idx m) (hkey : key ∉ (m.hash idx).keys)
    (hslot : slot < m.perBlockNum)
    (hclear : testBit (m.segments idx).bitmap.array slot = false) :
    ExactInv idx m' where
  toIndexInv := h.indexInv hinv.toIndexInv hkey hslot hclear
  bits := by
    rw [h.array, h.perBlockNum, card_setBits_setBit hslot hclear, hinv.bits,
      h.entries.length_eq, List.length_cons]

variable {σ β : Type*} {s s' : Store σ β} {task : IoTask β}
  {choice : SlotChoice σ β}

theorem Cleared.exactInv {v : ℕ} (h : Cleared idx key v s s')
    (hinv : ExactInv idx s.metaData) : ExactInv idx s'.metaData where
  toIndexInv := h.indexInv hinv.toIndexInv
  bits := by
    have hvalue : v ∈ (s.metaData.hash idx).values :=
      (h.entries.map Prod.snd).mem_iff.mpr List.mem_cons_self
    have hcard := card_setBits_clearBit (hinv.value_lt v hvalue)
      (hinv.bit v hvalue)
    have hlength := h.entries.length_eq
    rw [List.length_cons] at hlength
    rw [h.array, h.perBlockNum]
    have hbits := hinv.bits
    omega

/-- A write that takes a slot also enters it. -/
def EntersSlot (idx : Fin 4) (m : MixMetadata) : Prop :=
  ∀ slot, (m.segments idx).bitmap.IsNextClear m.perBlockNum slot →
    GuardSet idx m slot

instance : Decidable (EntersSlot idx m) :=
  decidable_of_iff
    (∀ slot < m.perBlockNum,
      (m.segments idx).bitmap.IsNextClear m.perBlockNum slot →
        GuardSet idx m slot)
    ⟨fun h slot hclear => h slot hclear.lt hclear,
      fun h slot _ => h slot⟩

theorem takeSlot_exactInv {migrated : Bool}
    (hinv : ExactInv idx s.metaData) (hroom : ¬ IsFull idx s.metaData)
    (hkey : lbaKey task.offset ∉ (s.metaData.hash idx).keys)
    (henters : EntersSlot idx s.metaData)
    (h : takeSlot s task idx migrated = some choice) :
    ExactInv idx choice.store.metaData := by
  obtain ⟨slot, hclear, -, -, -, ⟨-, hclaimed⟩ | ⟨hguard, -⟩⟩ :=
    takeSlot_spec hinv.toSegmentShape hroom h
  · exact hclaimed.exactInv hinv hkey hclear.lt hclear.1
  · exact absurd (henters slot hclear) hguard

theorem setBits_eq_empty {m : ByteMemory} {n : ℕ}
    (h : ∀ i < n, testBit m i = false) : setBits m n = ∅ := by
  apply Finset.eq_empty_of_forall_notMem
  intro i hi
  obtain ⟨hlt, hbit⟩ := mem_setBits.mp hi
  rw [h i hlt] at hbit
  exact Bool.noConfusion hbit

theorem ExactInv.of_empty (hinv : IndexInv idx m)
    (hnil : (m.hash idx).entries = [])
    (hclear : ∀ i < m.perBlockNum,
      testBit (m.segments idx).bitmap.array i = false) : ExactInv idx m where
  toIndexInv := hinv
  bits := by rw [setBits_eq_empty hclear, hnil, Finset.card_empty,
    List.length_nil]

/-- With all bits clear the first slot is taken, which is always entered. -/
theorem entersSlot_of_clear (hready :
      (m.segments idx).bitmap.Ready m.perBlockNum)
    (hcursor : (m.segments idx).bitmap.nextBit = 0)
    (hclear : ∀ i < m.perBlockNum,
      testBit (m.segments idx).bitmap.array i = false) :
    EntersSlot idx m := by
  rintro slot ⟨-, d, -, rfl, hbefore⟩
  have hpos := hready.one_lt
  rcases Nat.eq_zero_or_pos d with rfl | hd
  · left
    simp [hcursor]
  · have hset := hbefore 0 hd
    rw [hcursor, hclear _ (Nat.mod_lt _ (by omega))] at hset
    exact Bool.noConfusion hset

variable [BlockDevice σ β]

theorem mixMigrateSegment_exactInv (hinv : IndexInv idx s.metaData)
    (hfree : uint32Max ∉ (s.metaData.hash idx).keys) :
    ExactInv idx (mixMigrateSegment s idx).metaData ∧
      ((mixMigrateSegment s idx).metaData.hash idx).entries = [] ∧
      EntersSlot idx (mixMigrateSegment s idx).metaData := by
  obtain ⟨hinv', hnil⟩ := mixMigrateSegment_indexInv hinv hfree
  obtain ⟨es, h⟩ := mixMigrateSegment_migrated hinv.threads_pos hinv.wf
  have hclear : ∀ i < (mixMigrateSegment s idx).metaData.perBlockNum,
      testBit ((mixMigrateSegment s idx).metaData.segments idx).bitmap.array i
        = false := by
    intro i hi
    rw [h.perBlockNum] at hi
    exact h.testBit_eq_false hinv.toSegmentShape hi
  refine ⟨ExactInv.of_empty hinv' hnil hclear, hnil,
    entersSlot_of_clear hinv'.ready ?_ hclear⟩
  rw [h.bitmap]
  rfl

/-- The write takes a slot without a migration. -/
def TakesSlot (idx : Fin 4) (s : Store σ β) : SegmentOp β → Prop
  | .write task =>
      lbaKey task.offset ∉ (s.metaData.hash idx).keys ∧
        ¬ IsFull idx s.metaData
  | .clear _ => False
  | .migrate => False

/-- The condition under which one operation keeps the accounts. -/
structure KeepsAccounts (idx : Fin 4) (s : Store σ β) (op : SegmentOp β) :
    Prop where
  enters : TakesSlot idx s op → EntersSlot idx s.metaData
  clean : DrainsCleanly idx s op

instance : DecidablePred (TakesSlot idx s)
  | .write _ => inferInstanceAs (Decidable (_ ∧ _))
  | .clear _ => inferInstanceAs (Decidable False)
  | .migrate => inferInstanceAs (Decidable False)

instance : DecidablePred (KeepsAccounts idx s) := fun op =>
  decidable_of_iff
    ((TakesSlot idx s op → EntersSlot idx s.metaData) ∧
      DrainsCleanly idx s op)
    ⟨fun h => ⟨h.1, h.2⟩, fun h => ⟨h.enters, h.clean⟩⟩

theorem segmentStep_exactInv {op : SegmentOp β}
    (hinv : ExactInv idx s.metaData) (hkeeps : KeepsAccounts idx s op)
    (h : segmentStep idx s op = some s') : ExactInv idx s'.metaData := by
  cases op with
  | write task =>
      obtain ⟨choice, hslot, rfl⟩ := segmentStep_write h
      change ExactInv idx choice.store.metaData
      rcases hinv.redirectSlot_cases hslot with ⟨v, -, rfl⟩ | ⟨hkey, hcases⟩
      · exact hinv
      · rcases hcases with ⟨hroom, htake⟩ | ⟨hfull, htake⟩
        · exact takeSlot_exactInv hinv hroom hkey
            (hkeeps.enters ⟨hkey, hroom⟩) htake
        · obtain ⟨hinv', hnil, henters⟩ := mixMigrateSegment_exactInv
            hinv.toIndexInv (hkeeps.clean ⟨hkey, hfull⟩)
          refine takeSlot_exactInv hinv'
            (hinv'.not_isFull_of_nil hnil) ?_ henters htake
          simp [MixHash.keys, hnil]
  | clear task =>
      simp only [segmentStep, Option.some.injEq] at h
      subst h
      exact clearFrom_induction (P := fun s => ExactInv idx s.metaData)
        (fun _ h => h.toIndexInv) (fun _ _ _ _ h hc => hc.exactInv h) _ hinv
  | migrate =>
      simp only [segmentStep, Option.some.injEq] at h
      subst h
      exact (mixMigrateSegment_exactInv hinv.toIndexInv
        (hkeeps.clean trivial)).1

/-! ## Operations that break the accounts -/

/-- How far the counter runs ahead of the hash. -/
def drift (idx : Fin 4) (m : MixMetadata) : ℤ :=
  (m.segments idx).usedBlockNum - (m.hash idx).entries.length

theorem Accounting.drift_eq_zero (h : Accounting idx m) : drift idx m = 0 :=
  sub_eq_zero.mpr h.used_eq_entries

omit [BlockDevice σ β] in
/-- Entering a slot, whichever it is, moves the counter and the hash alike. -/
theorem takeSlot_drift {migrated : Bool} (hwf : (s.metaData.hash idx).Wf)
    (h : takeSlot s task idx migrated = some choice) :
    drift idx choice.store.metaData = drift idx s.metaData := by
  rw [takeSlot, Option.bind_eq_some_iff] at h
  obtain ⟨⟨offset, m⟩, hnext, hclaim⟩ := h
  have hm : m.hash = s.metaData.hash ∧
      (m.segments idx).usedBlockNum =
        (s.metaData.segments idx).usedBlockNum := by
    rw [mixGetNextFreeBlock] at hnext
    split at hnext
    · simp only [Option.some.injEq, Prod.mk.injEq] at hnext
      rw [← hnext.2]
      exact ⟨rfl, rfl⟩
    · simp only [Option.map_eq_some_iff, Prod.mk.injEq] at hnext
      obtain ⟨_, _, _, rfl⟩ := hnext
      exact ⟨rfl, by simp⟩
  obtain ⟨m', hwrite, rfl⟩ := Option.map_eq_some_iff.mp hclaim
  simp only [mixWriteRedirectBlockmeta] at hwrite
  split at hwrite
  · rw [Option.some.injEq] at hwrite
    subst hwrite
    simp [drift, hm.1, hm.2]
  · obtain ⟨hash, hput, rfl⟩ := Option.map_eq_some_iff.mp hwrite
    rw [MixMetadata.setBitmap_hash, hm.1] at hput
    obtain ⟨-, hentries, -⟩ := mixHashPut_spec hwf hput
    simp only [drift, MixMetadata.addUsed_self, MixMetadata.addUsed_hash,
      MixMetadata.setHash_segments, MixMetadata.setBitmap_self,
      MixMetadata.setHash_self, hentries.length_eq, List.length_cons, hm.2]
    push_cast
    ring

omit [BlockDevice σ β] in
/-- On a full segment the allocator passes `-1` on, and the call returns. -/
theorem takeSlot_isSome_of_full (hfull : IsFull idx s.metaData)
    (hnode : (s.metaData.hash idx).freeNodes ≠ 0) (task : IoTask β)
    (migrated : Bool) :
    ∃ choice, takeSlot s task idx migrated = some choice := by
  simp only [takeSlot, mixGetNextFreeBlock_of_full hfull, Option.bind_some,
    claimSlot]
  rw [← Option.isSome_iff_exists, Option.isSome_map]
  exact mixWriteRedirectBlockmeta_isSome hnode

variable {es : List MixKv}

theorem Migrated.drift_pos (h : Migrated idx es s s')
    (hinv : IndexInv idx s.metaData)
    (hsentinel : uint32Max ∈ (s.metaData.hash idx).keys) :
    0 < drift idx s'.metaData := by
  obtain ⟨v, hv⟩ := MixHash.mem_keys.mp hsentinel
  have hlt := h.length_lt ⟨_, hv, Or.inl rfl⟩
  have hused := h.used
  rw [hinv.used] at hused
  rw [drift]
  omega

/-- The dropped pair's node goes back to the free list. -/
theorem Migrated.freeNodes_ne_zero (h : Migrated idx es s s')
    (hsentinel : uint32Max ∈ (s.metaData.hash idx).keys) :
    (s'.metaData.hash idx).freeNodes ≠ 0 := by
  obtain ⟨v, hv⟩ := MixHash.mem_keys.mp hsentinel
  obtain ⟨i, hi, hmem⟩ := mem_entries.mp hv
  have hpopped : 0 < poppedCount (s.bucket idx i) := by
    have hlt := length_lt_of_sentinel (l := s.bucket idx i)
      ⟨_, hmem, Or.inl rfl⟩
    rw [poppedCount]
    omega
  have hle := List.single_le_sum (fun _ _ => Nat.zero_le _) _
    (List.mem_map_of_mem (f := fun i => poppedCount (s.bucket idx i))
      (List.mem_range.mpr hi))
  rw [h.freeNodes]
  omega

/-- After a migration that dropped a pair the write still returns. -/
theorem Migrated.takeSlot_isSome (h : Migrated idx es s s')
    (hinv : IndexInv idx s.metaData)
    (hsentinel : uint32Max ∈ (s.metaData.hash idx).keys) (task : IoTask β) :
    ∃ choice, takeSlot s' task idx true = some choice := by
  have hnode := h.freeNodes_ne_zero hsentinel
  by_cases hfull : IsFull idx s'.metaData
  · exact takeSlot_isSome_of_full hfull hnode task true
  · have hone := hinv.ready.one_lt
    refine Uhs.takeSlot_isSome (h.shape hinv.toSegmentShape) hfull
      ⟨0, ?_, ?_⟩ (Or.inl hnode) task true
    · rw [h.perBlockNum]
      omega
    · exact h.testBit_eq_false hinv.toSegmentShape (by omega)

omit [BlockDevice σ β] in
/-- A slot that is taken and not entered leaves two bits too many. -/
theorem Strayed.not_accounting (h : Strayed idx slot m m')
    (hinv : ExactInv idx m)
    (hclear : (m.segments idx).bitmap.IsNextClear m.perBlockNum slot)
    (hguard : ¬ GuardSet idx m slot) : ¬ Accounting idx m' := by
  intro hacc
  have hlt := hclear.lt
  rw [GuardSet, not_or, Bool.not_eq_true] at hguard
  have hbit : testBit (setBit (m.segments idx).bitmap.array slot)
      ((slot - idx.val) / 4) = false := by
    have hne : (slot - idx.val) / 4 ≠ slot := by omega
    simp [testBit_setBit, hne, hguard.2]
  have hcard := hacc.used_eq_bits
  rw [h.used, hinv.used, h.array, h.perBlockNum,
    card_setBits_setBit (by omega) hbit, card_setBits_setBit hlt hclear.1,
    hinv.bits] at hcard
  omega

theorem segmentStep_not_accounting {op : SegmentOp β}
    (hinv : ExactInv idx s.metaData) (hbreaks : ¬ KeepsAccounts idx s op) :
    ∃ s', segmentStep idx s op = some s' ∧ ¬ Accounting idx s'.metaData := by
  have hcases : (TakesSlot idx s op ∧ ¬ EntersSlot idx s.metaData) ∨
      (Migrates idx s op ∧ uint32Max ∈ (s.metaData.hash idx).keys) := by
    by_contra hnot
    rw [not_or, not_and_not_right, not_and] at hnot
    exact hbreaks ⟨hnot.1, hnot.2⟩
  obtain ⟨es, hmigrated⟩ :=
    mixMigrateSegment_migrated hinv.threads_pos hinv.wf
  rcases hcases with ⟨htakes, henters⟩ | ⟨hmigrates, hsentinel⟩
  · cases op with
    | write task =>
        obtain ⟨hkey, hroom⟩ := htakes
        unfold EntersSlot at henters
        push Not at henters
        obtain ⟨slot, hclear, hguard⟩ := henters
        obtain ⟨choice, htake⟩ := Uhs.takeSlot_isSome hinv.toSegmentShape
          hroom (hinv.exists_clear hroom)
          (Or.inr fun slot' hclear' => hclear'.unique hclear ▸ hguard)
          task false
        have hslot := redirectSlot_of_room hinv.toSegmentShape
          (hinv.blockTest_of_notMem hkey) hroom
        refine ⟨_, segmentStep_write_eq (hslot.trans htake), ?_⟩
        obtain ⟨slot', hclear', -, -, -, ⟨hguard', -⟩ | ⟨hguard', hstrayed⟩⟩ :=
          takeSlot_spec hinv.toSegmentShape hroom htake
        · exact absurd hguard' (hclear'.unique hclear ▸ hguard)
        · exact hstrayed.not_accounting hinv hclear' hguard'
    | clear task => exact htakes.elim
    | migrate => exact htakes.elim
  · have hpos := hmigrated.drift_pos hinv.toIndexInv hsentinel
    cases op with
    | write task =>
        obtain ⟨hkey, hfull⟩ := hmigrates
        obtain ⟨choice, htake⟩ :=
          hmigrated.takeSlot_isSome hinv.toIndexInv hsentinel task
        have hslot := redirectSlot_of_full
          (hinv.blockTest_of_notMem hkey) hfull
        refine ⟨_, segmentStep_write_eq (hslot.trans htake), fun hacc => ?_⟩
        have hzero : drift idx choice.store.metaData = 0 := hacc.drift_eq_zero
        rw [takeSlot_drift hmigrated.wf htake] at hzero
        omega
    | clear task => exact hmigrates.elim
    | migrate =>
        refine ⟨_, rfl, fun hacc => ?_⟩
        have hzero := hacc.drift_eq_zero
        omega

/-- The accounts agree after every operation of a run exactly when no write
takes a slot without entering it and no migration meets `2 ^ 32 - 1`. -/
theorem accounting_allStates_iff {blockNum : ℕ} (hsize : ValidSize blockNum)
    (migration : Fin 4 → Bool) (dev : Devices σ β) (idx : Fin 4)
    (ops : List (SegmentOp β)) :
    AllStates (segmentStep idx) (fun s => Accounting idx s.metaData)
        (freshStore blockNum migration dev) ops ↔
      AllSteps (segmentStep idx) (KeepsAccounts idx)
        (freshStore blockNum migration dev) ops := by
  have hfresh : ExactInv idx (freshStore blockNum migration dev).metaData :=
    ExactInv.of_empty (mixMetadataInit_indexInv migration idx hsize)
      (mixMetadataInit_entries migration idx)
      fun i _ => testBit_mixMetadataInit migration idx i
  exact allStates_iff_allSteps
    (I := fun s : Store σ β => ExactInv idx s.metaData)
    (fun _ _ _ hinv hkeeps hstep => segmentStep_exactInv hinv hkeeps hstep)
    (fun _ _ hinv hbreaks => segmentStep_not_accounting hinv hbreaks)
    (fun _ hinv => hinv.accounting) hfresh

theorem accounting_allStates_iff_example :
    AllStates (segmentStep 1) (fun s => Accounting 1 s.metaData)
        (freshStore 32 (fun _ => false) zeroDevices)
        [.write (smallWrite 16 1), .clear (smallWrite 16 0)] ↔
      AllSteps (segmentStep 1) (KeepsAccounts 1)
        (freshStore 32 (fun _ => false) zeroDevices)
        [.write (smallWrite 16 1), .clear (smallWrite 16 0)] :=
  accounting_allStates_iff (by decide) _ _ _ _

/-- Slots `0` to `4` are mapped and slots `0` and `1` cleared again; the write
that takes slot `5` finds bit `1` clear. -/
theorem accounting_fails :
    ¬ AllStates (segmentStep 0) (fun s => Accounting 0 s.metaData)
      (freshStore 32 (fun _ => false) zeroDevices)
      [.write (smallWrite 0 1), .write (smallWrite 1 1),
        .write (smallWrite 2 1), .write (smallWrite 3 1),
        .write (smallWrite 4 1), .clear (smallWrite 0 0),
        .clear (smallWrite 1 0), .write (smallWrite 5 1)] := by
  intro hall
  have hbits := hall.mono fun _ h => h.used_eq_bits
  exact absurd hbits (by decide +kernel)

end Uhs
