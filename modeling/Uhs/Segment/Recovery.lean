import Mathlib.Data.Nat.ModEq
import Mathlib.Order.Bounds.Basic
import Uhs.Segment.Operations

/-!
# Recovery from any image

`mix_buffer_rebuild` on a fresh segment returns for every image of the
records.  It maps a block to the last slot whose valid record carries it, and
marks and counts the valid slots.
-/

namespace Uhs

open Support

variable {σ β : Type*}

/-- The record of a slot has bit `0` of its status word set. -/
def MixMetadata.ValidSlot (m : MixMetadata) (dev : Devices σ β) (idx : Fin 4)
    (off : ℕ) : Prop :=
  (mixBufferGetMeta dev (m.bufferBlock idx off)).status % 2 = 1

instance (m : MixMetadata) (dev : Devices σ β) (idx : Fin 4) :
    DecidablePred (m.ValidSlot dev idx) := fun _ =>
  inferInstanceAs (Decidable (_ = _))

/-- The slots below `off` whose valid records carry block `k`, in 32 bits. -/
def MixMetadata.slotsWith (m : MixMetadata) (dev : Devices σ β) (idx : Fin 4)
    (k off : ℕ) : Set ℕ :=
  {v | v < off ∧ m.ValidSlot dev idx v ∧
    (mixBufferGetMeta dev (m.bufferBlock idx v)).offset ≡ k [MOD 2 ^ 32]}

/-- The index of the records below `off`: a block is found at the last of its
slots, and the valid slots are marked and counted. -/
structure Recovers (idx : Fin 4) (dev : Devices σ β) (off : ℕ)
    (m m' : MixMetadata) : Prop
    extends MixMetadata.SameElsewhere idx m m' where
  found : ∀ k v, IsGreatest (m.slotsWith dev idx k off) v →
    mixHashGet (m'.hash idx) (lbaKey k) = v
  missing : ∀ k, m.slotsWith dev idx k off = ∅ →
    mixHashGet (m'.hash idx) (lbaKey k) = -1
  bit : ∀ nr, mixBitmapTestBit (m'.segments idx).bitmap nr = true ↔
    nr < off ∧ m.ValidSlot dev idx nr
  used : (m'.segments idx).usedBlockNum =
    ((List.range off).filter fun v => m.ValidSlot dev idx v).length

/-- A segment as `mix_metadata_init` leaves it. -/
structure FreshSegment (idx : Fin 4) (m : MixMetadata) : Prop where
  per_lt : m.perBlockNum < 2 ^ 20
  missing : ∀ k, mixHashGet (m.hash idx) k = -1
  freeNodes : (m.hash idx).freeNodes = m.perBlockNum
  bit : ∀ nr, mixBitmapTestBit (m.segments idx).bitmap nr = false
  used : (m.segments idx).usedBlockNum = 0

variable {idx : Fin 4} {m m' : MixMetadata} {dev : Devices σ β} {off k v : ℕ}

theorem mixMetadataInit_freshSegment {blockNum : ℕ}
    (migration : Fin 4 → Bool) (idx : Fin 4) (hsize : ValidSize blockNum) :
    FreshSegment idx (mixMetadataInit blockNum migration) where
  per_lt := hsize.lt
  missing := by
    intro k
    refine mixHashGet_of_notMem (mixHashInit_wf _ (by decide)).keyed ?_
    rw [MixHash.keys, mixHashInit_entries]
    simp
  freeNodes := rfl
  bit := testBit_mixMetadataInit migration idx
  used := rfl

/-! ## The slots of a block -/

theorem MixMetadata.slotsWith_succ_of_valid (hvalid : m.ValidSlot dev idx off)
    (hkey : (mixBufferGetMeta dev (m.bufferBlock idx off)).offset ≡ k
      [MOD 2 ^ 32]) :
    IsGreatest (m.slotsWith dev idx k (off + 1)) off :=
  ⟨⟨Nat.lt_succ_self off, hvalid, hkey⟩, fun _ hw => Nat.lt_succ_iff.mp hw.1⟩

theorem MixMetadata.slotsWith_succ_of_not
    (hnot : ¬ (m.ValidSlot dev idx off ∧
      (mixBufferGetMeta dev (m.bufferBlock idx off)).offset ≡ k
        [MOD 2 ^ 32])) :
    m.slotsWith dev idx k (off + 1) = m.slotsWith dev idx k off := by
  ext w
  constructor
  · rintro ⟨hlt, hvalid, hkey⟩
    refine ⟨?_, hvalid, hkey⟩
    rcases Nat.lt_succ_iff_lt_or_eq.mp hlt with hlt | rfl
    · exact hlt
    · exact absurd ⟨hvalid, hkey⟩ hnot
  · rintro ⟨hlt, hvalid, hkey⟩
    exact ⟨Nat.lt_succ_of_lt hlt, hvalid, hkey⟩

/-! ## One round -/

/-- A record that is not valid is passed over. -/
theorem Recovers.skip (h : Recovers idx dev off m m')
    (hnot : ¬ m.ValidSlot dev idx off) : Recovers idx dev (off + 1) m m' := by
  have hslots : ∀ k, m.slotsWith dev idx k (off + 1) =
      m.slotsWith dev idx k off :=
    fun k => MixMetadata.slotsWith_succ_of_not fun hvalid => hnot hvalid.1
  exact
    { toSameElsewhere := h.toSameElsewhere
      found := fun k v hv => h.found k v (hslots k ▸ hv)
      missing := fun k hk => h.missing k (hslots k ▸ hk)
      bit := by
        intro nr
        rw [h.bit]
        constructor
        · rintro ⟨hlt, hvalid⟩
          exact ⟨Nat.lt_succ_of_lt hlt, hvalid⟩
        · rintro ⟨hlt, hvalid⟩
          refine ⟨?_, hvalid⟩
          rcases Nat.lt_succ_iff_lt_or_eq.mp hlt with hlt | rfl
          · exact hlt
          · exact absurd hvalid hnot
      used := by
        rw [h.used, List.range_succ, List.filter_append]
        simp [hnot] }

/-- A valid record is marked, counted and entered. -/
theorem Recovers.enter (h : Recovers idx dev off m m')
    (hvalid : m.ValidSlot dev idx off) (hlt : off < 2 ^ 20) {hash : MixHash}
    (hput : mixHashPut (m'.hash idx)
      (lbaKey (mixBufferGetMeta dev (m.bufferBlock idx off)).offset) off =
        some hash) :
    Recovers idx dev (off + 1) m
      (((m'.setBitmap idx (mixBitmapSetBit (m'.segments idx).bitmap off).2
        ).addUsed idx 1).setHash idx hash) where
  toSameElsewhere := h.toSameElsewhere.trans
    (((MixMetadata.sameElsewhere_setBitmap _ _ _).trans
      (MixMetadata.sameElsewhere_addUsed _ _ _)).trans
        (MixMetadata.sameElsewhere_setHash _ _ _))
  found := by
    intro k v hv
    rw [MixMetadata.setHash_self, mixHashGet_put hput]
    by_cases hkey : (mixBufferGetMeta dev (m.bufferBlock idx off)).offset ≡ k
        [MOD 2 ^ 32]
    · -- the slot that has just been read hides the earlier ones
      have heq := hv.unique (MixMetadata.slotsWith_succ_of_valid hvalid hkey)
      rw [if_pos (show lbaKey k = lbaKey _ from hkey.symm), heq,
        toInt32_of_lt (by omega)]
    · rw [if_neg fun heq : lbaKey k = lbaKey _ => hkey heq.symm]
      rw [MixMetadata.slotsWith_succ_of_not fun hboth => hkey hboth.2] at hv
      exact h.found k v hv
  missing := by
    intro k hk
    have hkey : ¬ (mixBufferGetMeta dev (m.bufferBlock idx off)).offset ≡ k
        [MOD 2 ^ 32] := by
      intro hkey
      have hmem := (MixMetadata.slotsWith_succ_of_valid hvalid hkey).1
      rw [hk] at hmem
      exact hmem
    rw [MixMetadata.setHash_self, mixHashGet_put hput,
      if_neg fun heq : lbaKey k = lbaKey _ => hkey heq.symm]
    rw [MixMetadata.slotsWith_succ_of_not fun hboth => hkey hboth.2] at hk
    exact h.missing k hk
  bit := by
    intro nr
    simp only [MixMetadata.setHash_segments, MixMetadata.addUsed_self,
      MixMetadata.setBitmap_self, mixBitmapSetBit, mixBitmapTestBit,
      testBit_setBit, Bool.or_eq_true, decide_eq_true_eq]
    rw [← mixBitmapTestBit, h.bit]
    constructor
    · rintro (rfl | ⟨hlt, hnr⟩)
      · exact ⟨Nat.lt_succ_self _, hvalid⟩
      · exact ⟨Nat.lt_succ_of_lt hlt, hnr⟩
    · rintro ⟨hlt, hnr⟩
      rcases Nat.lt_succ_iff_lt_or_eq.mp hlt with hlt | rfl
      · exact Or.inr ⟨hlt, hnr⟩
      · exact Or.inl rfl
  used := by
    simp only [MixMetadata.setHash_segments, MixMetadata.addUsed_self,
      MixMetadata.setBitmap_self]
    rw [h.used, List.range_succ, List.filter_append]
    simp [hvalid]

theorem rebuildBelow_of_valid
    (hbelow : rebuildBelow dev idx off m = some m')
    (hper : m'.perBlockNum = m.perBlockNum)
    (hvalid : m.ValidSlot dev idx off) {hash : MixHash}
    (hput : mixHashPut (m'.hash idx)
      (lbaKey (mixBufferGetMeta dev (m.bufferBlock idx off)).offset) off =
        some hash) :
    rebuildBelow dev idx (off + 1) m =
      some (((m'.setBitmap idx (mixBitmapSetBit (m'.segments idx).bitmap off).2
        ).addUsed idx 1).setHash idx hash) := by
  rw [rebuildBelow, hbelow]
  simp only [Option.bind_some, MixMetadata.bufferBlock_congr hper]
  exact (if_pos hvalid).trans (congrArg (Option.map _) hput)

theorem rebuildBelow_of_not (hbelow : rebuildBelow dev idx off m = some m')
    (hper : m'.perBlockNum = m.perBlockNum)
    (hnot : ¬ m.ValidSlot dev idx off) :
    rebuildBelow dev idx (off + 1) m = some m' := by
  rw [rebuildBelow, hbelow]
  simp only [Option.bind_some, MixMetadata.bufferBlock_congr hper]
  exact if_neg hnot

variable (dev) in
/-- The loop returns, and it has never needed more nodes than there are
slots. -/
theorem rebuildBelow_recovers (hfresh : FreshSegment idx m)
    (hoff : off ≤ m.perBlockNum) :
    ∃ m', rebuildBelow dev idx off m = some m' ∧
      Recovers idx dev off m m' ∧
      m.perBlockNum ≤ (m'.hash idx).freeNodes + off := by
  induction off with
  | zero =>
      refine ⟨m, rfl, ?_, hfresh.freeNodes.ge⟩
      exact
        { toSameElsewhere := MixMetadata.SameElsewhere.refl idx m
          found := fun k v hv => absurd hv.1.1 (Nat.not_lt_zero v)
          missing := fun k _ => hfresh.missing (lbaKey k)
          bit := by simp [hfresh.bit]
          used := by simp [hfresh.used] }
  | succ off ih =>
      obtain ⟨m', hbelow, hrecovers, hnodes⟩ := ih (by omega)
      have hper := hrecovers.perBlockNum
      by_cases hvalid : m.ValidSlot dev idx off
      · have hfree : (m'.hash idx).freeNodes ≠ 0 := by omega
        obtain ⟨hash, hput⟩ := Option.ne_none_iff_exists'.mp
          (mt mixHashPut_eq_none_iff.mp hfree)
        have hlt : off < 2 ^ 20 := lt_of_lt_of_le (by omega) hfresh.per_lt.le
        refine ⟨_, rebuildBelow_of_valid hbelow hper hvalid hput,
          hrecovers.enter hvalid hlt hput, ?_⟩
        have hpop : hash.freeNodes = (m'.hash idx).freeNodes - 1 := by
          rw [(mixHashPutAt_eq_some hput).2]
          rfl
        rw [MixMetadata.setHash_self]
        omega
      · exact ⟨m', rebuildBelow_of_not hbelow hper hvalid,
          hrecovers.skip hvalid, by omega⟩

/-- Only the records of the segment are read. -/
theorem rebuildBelow_congr {dev' : Devices σ β} (hfresh : FreshSegment idx m)
    (hoff : off ≤ m.perBlockNum)
    (hsame : ∀ v < off, mixBufferGetMeta dev' (m.bufferBlock idx v) =
      mixBufferGetMeta dev (m.bufferBlock idx v)) :
    rebuildBelow dev' idx off m = rebuildBelow dev idx off m := by
  induction off with
  | zero => rfl
  | succ off ih =>
      have hbelow := ih (by omega) fun v hv => hsame v (Nat.lt_succ_of_lt hv)
      obtain ⟨m', hm', hrecovers, -⟩ :=
        rebuildBelow_recovers dev hfresh (show off ≤ m.perBlockNum by omega)
      have hblock := MixMetadata.bufferBlock_congr hrecovers.perBlockNum idx
        (off : ℤ)
      rw [rebuildBelow, rebuildBelow, hbelow, hm']
      simp only [Option.bind_some, hblock, hsame off (Nat.lt_succ_self off)]

/-- For every image of the records, the rebuild of a fresh segment ends with
the index of its valid records, and the records of other segments have no
influence on it. -/
theorem mixBufferRebuild_recovers {blockNum : ℕ} (hsize : ValidSize blockNum)
    (migration : Fin 4 → Bool) (dev : Devices σ β) (idx : Fin 4) :
    ∃ m', mixBufferRebuild (mixMetadataInit blockNum migration) dev idx =
        some m' ∧
      Recovers idx dev (blockNum / segmentNum)
        (mixMetadataInit blockNum migration) m' ∧
      ∀ dev' : Devices σ β,
        (∀ v < blockNum / segmentNum,
          mixBufferGetMeta dev' (idx.val * (blockNum / segmentNum) + v) =
            mixBufferGetMeta dev (idx.val * (blockNum / segmentNum) + v)) →
        mixBufferRebuild (mixMetadataInit blockNum migration) dev' idx =
          some m' := by
  have hfresh := mixMetadataInit_freshSegment migration idx hsize
  obtain ⟨m', hrebuild, hrecovers, -⟩ :=
    rebuildBelow_recovers dev hfresh (Nat.le_refl _)
  refine ⟨m', hrebuild, hrecovers, fun dev' hsame => ?_⟩
  rw [← hrebuild]
  refine rebuildBelow_congr hfresh (Nat.le_refl _) fun v hv => ?_
  rw [MixMetadata.bufferBlock_natCast hfresh.per_lt hv]
  exact hsame v hv

/-- Records in which the slots `1` and `3` of segment `2` carry block `5`, one
of them in more than 32 bits. -/
def imageDevices : Devices (ℕ → ℕ) ℕ where
  nvm := fun _ => 0
  buffer := fun _ => 0
  bufferMeta := fun p =>
    if p = 17 then ⟨1, 0, 5, 0⟩
    else if p = 19 then ⟨3, 0, 2 ^ 32 + 5, 0⟩
    else ⟨0, 0, 7, 0⟩
  ssd := fun _ => 0

theorem mixBufferRebuild_recovers_example :
    ∃ m', mixBufferRebuild (mixMetadataInit 32 fun _ => false) imageDevices 2 =
        some m' ∧
      Recovers 2 imageDevices (32 / segmentNum)
        (mixMetadataInit 32 fun _ => false) m' ∧
      ∀ dev' : Devices (ℕ → ℕ) ℕ,
        (∀ v < 32 / segmentNum,
          mixBufferGetMeta dev' ((2 : Fin 4).val * (32 / segmentNum) + v) =
            mixBufferGetMeta imageDevices
              ((2 : Fin 4).val * (32 / segmentNum) + v)) →
        mixBufferRebuild (mixMetadataInit 32 fun _ => false) dev' 2 =
          some m' :=
  mixBufferRebuild_recovers (by decide) _ _ _

example : (mixBufferRebuild (mixMetadataInit 32 fun _ => false) imageDevices 2
    ).map (fun m => mixHashGet (m.hash 2) 5) = some 3 := by
  decide +kernel

end Uhs
