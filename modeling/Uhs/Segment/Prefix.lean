import Uhs.Segment.Operations
import Uhs.Support.WriteBack

/-!
# A segment that is only written to

Without clears the mapped slots of a segment are a prefix and the cursor of
the allocator stands at its end.  Then every slot that is taken is entered,
the free nodes suffice, and the segment is a bounded write-back map.
-/

namespace Uhs

open Support

/-- The mapped slots are the first ones, the cursor stands behind them and
every other node is free. -/
structure PrefixInv (idx : Fin 4) (m : MixMetadata) : Prop
    extends IndexInv idx m where
  bit_iff : ∀ b < m.perBlockNum,
    testBit (m.segments idx).bitmap.array b = true ↔
      b < (m.hash idx).entries.length
  nextBit : (m.segments idx).bitmap.nextBit =
    (m.hash idx).entries.length % m.perBlockNum
  nodes : (m.hash idx).freeNodes + (m.hash idx).entries.length =
    m.perBlockNum

variable {idx : Fin 4} {m m' : MixMetadata} {key slot : ℕ}

theorem PrefixInv.length_lt (hinv : PrefixInv idx m)
    (hroom : ¬ IsFull idx m) :
    (m.hash idx).entries.length < m.perBlockNum := by
  have hnodes := hinv.nodes
  rw [hinv.isFull_iff] at hroom
  omega

/-- The slot taken next is the end of the prefix, and it is entered. -/
theorem PrefixInv.next (hinv : PrefixInv idx m) (hroom : ¬ IsFull idx m)
    (hclear : (m.segments idx).bitmap.IsNextClear m.perBlockNum slot) :
    slot = (m.hash idx).entries.length ∧ GuardSet idx m slot := by
  have hlt := hinv.length_lt hroom
  have hcursor : (m.segments idx).bitmap.nextBit =
      (m.hash idx).entries.length := by
    rw [hinv.nextBit, Nat.mod_eq_of_lt hlt]
  obtain ⟨hbit, d, -, hd, hbefore⟩ := hclear
  have hslot : slot = (m.hash idx).entries.length := by
    rcases Nat.eq_zero_or_pos d with rfl | hpos
    · rw [hd, Nat.add_zero, hcursor, Nat.mod_eq_of_lt hlt]
    · have hset := hbefore 0 hpos
      rw [Nat.add_zero, hcursor, Nat.mod_eq_of_lt hlt,
        hinv.bit_iff _ hlt] at hset
      omega
  refine ⟨hslot, ?_⟩
  by_cases hzero : slot = 0
  · exact Or.inl hzero
  · right
    rw [hinv.bit_iff _ (by omega)]
    omega

theorem Claimed.prefixInv (h : Claimed idx key slot m m')
    (hinv : PrefixInv idx m) (hroom : ¬ IsFull idx m)
    (hkey : key ∉ (m.hash idx).keys)
    (hclear : (m.segments idx).bitmap.IsNextClear m.perBlockNum slot) :
    PrefixInv idx m' := by
  have hlt := hinv.length_lt hroom
  have hslot := (hinv.next hroom hclear).1
  have hlength : (m'.hash idx).entries.length =
      (m.hash idx).entries.length + 1 := by
    rw [h.entries.length_eq, List.length_cons]
  have hcursor : (m.segments idx).bitmap.nextBit = slot := by
    rw [hinv.nextBit, Nat.mod_eq_of_lt hlt, hslot]
  refine ⟨h.indexInv hinv.toIndexInv hkey hclear.lt hclear.1, ?_, ?_, ?_⟩
  · intro b hb
    rw [h.perBlockNum] at hb
    rw [h.array, testBit_setBit, Bool.or_eq_true, decide_eq_true_eq,
      hinv.bit_iff b hb, hlength, hslot]
    omega
  · rw [h.nextBit (by rw [hcursor]; exact hclear.1), hcursor, h.perBlockNum,
      hlength, hslot]
  · have hnodes := hinv.nodes
    have hfree := h.freeNodes
    rw [h.perBlockNum, hlength]
    omega

variable {σ β : Type*} {s : Store σ β} {task : IoTask β}

/-- With room left the slot at the end of the prefix is entered. -/
theorem PrefixInv.takeSlot_spec (hinv : PrefixInv idx s.metaData)
    (hroom : ¬ IsFull idx s.metaData)
    (hkey : lbaKey task.offset ∉ (s.metaData.hash idx).keys)
    (migrated : Bool) :
    ∃ choice slot, takeSlot s task idx migrated = some choice ∧
      choice.slot = (slot : ℕ) ∧ choice.migrated = migrated ∧
      choice.store.dev = s.dev ∧
      slot = (s.metaData.hash idx).entries.length ∧
      slot < s.metaData.perBlockNum ∧
      Claimed idx (lbaKey task.offset) slot s.metaData
        choice.store.metaData ∧
      PrefixInv idx choice.store.metaData := by
  have hlt := hinv.length_lt hroom
  have hnodes := hinv.nodes
  have hclear : ∃ i < s.metaData.perBlockNum,
      testBit (s.metaData.segments idx).bitmap.array i = false := by
    refine ⟨_, hlt, ?_⟩
    rw [← Bool.not_eq_true, hinv.bit_iff _ hlt]
    exact lt_irrefl _
  obtain ⟨choice, htake⟩ := takeSlot_isSome hinv.toSegmentShape hroom hclear
    (Or.inl (by omega)) task migrated
  obtain ⟨slot, hnext, hslot, hmigrated, hdev, hclaim⟩ :=
    Uhs.takeSlot_spec hinv.toSegmentShape hroom htake
  obtain ⟨hlength, hguard⟩ := hinv.next hroom hnext
  have hclaimed := (hclaim.resolve_right fun h => h.1 hguard).2
  exact ⟨choice, slot, htake, hslot, hmigrated, hdev, hlength, hnext.lt,
    hclaimed, hclaimed.prefixInv hinv hroom hkey hnext⟩

/-- An empty segment with a cleared bitmap and all nodes free. -/
theorem PrefixInv.of_empty (hinv : IndexInv idx m)
    (hnil : (m.hash idx).entries = [])
    (hclear : ∀ b < m.perBlockNum,
      testBit (m.segments idx).bitmap.array b = false)
    (hcursor : (m.segments idx).bitmap.nextBit = 0)
    (hnodes : (m.hash idx).freeNodes = m.perBlockNum) :
    PrefixInv idx m where
  toIndexInv := hinv
  bit_iff := by
    intro b hb
    simp [hclear b hb, hnil]
  nextBit := by simp [hcursor, hnil]
  nodes := by simp [hnodes, hnil]

theorem mixMetadataInit_prefixInv {blockNum : ℕ} (hsize : ValidSize blockNum)
    (migration : Fin 4 → Bool) (idx : Fin 4) :
    PrefixInv idx (mixMetadataInit blockNum migration) :=
  PrefixInv.of_empty (mixMetadataInit_indexInv migration idx hsize)
    (mixMetadataInit_entries migration idx)
    (fun b _ => testBit_mixMetadataInit migration idx b) rfl rfl

variable [BlockDevice σ β]

/-- A migration that does not meet `2 ^ 32 - 1` restarts the prefix. -/
theorem mixMigrateSegment_prefixInv (hinv : PrefixInv idx s.metaData)
    (hfree : uint32Max ∉ (s.metaData.hash idx).keys) :
    PrefixInv idx (mixMigrateSegment s idx).metaData ∧
      ((mixMigrateSegment s idx).metaData.hash idx).entries = [] := by
  obtain ⟨hinv', hnil⟩ := mixMigrateSegment_indexInv hinv.toIndexInv hfree
  obtain ⟨es, h⟩ := mixMigrateSegment_migrated hinv.threads_pos hinv.wf
  obtain ⟨-, -, hnodes⟩ :=
    h.of_sentinelFree (hinv.sentinelFree_iff.mpr hfree)
  refine ⟨PrefixInv.of_empty hinv' hnil ?_ ?_ ?_, hnil⟩
  · intro b hb
    rw [h.perBlockNum] at hb
    exact h.testBit_eq_false hinv.toSegmentShape hb
  · rw [h.bitmap]
    rfl
  · rw [hnodes, h.perBlockNum]
    exact hinv.nodes

end Uhs
