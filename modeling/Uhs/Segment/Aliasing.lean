import Uhs.Segment.BufferedWrite
import Uhs.Segment.MoveOut
import Uhs.Store.Request

/-!
# Addresses that share a key

A block address is a `size_t` in a request and in a record of the buffer, and
a `uint32_t` in the index.  What a redirected write of one block does to
another one is settled here for every index state, also for one whose slots
are shared or whose bits do not match its entries.
-/

namespace Uhs

open Support

variable {σ β : Type*} {idx : Fin 4} {s : Store σ β} {m : MixMetadata}
  {task : IoTask β} {choice : SlotChoice σ β} {a v w : ℕ}

theorem IndexInv.slotShape (hinv : IndexInv idx m) : SlotShape idx m :=
  ⟨hinv.toSegmentShape, fun v hv => Or.inl (hinv.value_lt v hv)⟩

theorem SlotShape.blocks_lt (h : SlotShape idx m) :
    segmentNum * m.perBlockNum < 2 ^ 32 := by
  have hper := h.per_lt
  rw [segmentNum]
  omega

/-! ## Looking a block up in any state -/

theorem MixHash.Keyed.get_cases {hash : MixHash} (hkeyed : hash.Keyed)
    (key : ℕ) :
    mixHashGet hash key = -1 ∨
      ∃ v ∈ hash.values, mixHashGet hash key = toInt32 v := by
  by_cases hkey : key ∈ hash.keys
  · right
    rw [mixHashGet, mixHashGetAt]
    cases hlook : lookupKey
        (hash.hashNodes (mixHashHash key hash.hashSize)).list key with
    | none =>
        have hnone := (hkeyed.placed.lookupKey_eq_none_iff
          (hkeyed.hash_lt key)).mp hlook
        exact absurd hkey hnone
    | some v =>
        refine ⟨v, ?_, rfl⟩
        have hmem : (key, v) ∈ hash.entries :=
          mem_entries.mpr ⟨_, hkeyed.hash_lt key, mem_of_lookupKey hlook⟩
        exact MixHash.mem_values_of_mem hmem
  · exact Or.inl (mixHashGet_of_notMem hkeyed hkey)

/-- The index holds nothing or a slot for a key. -/
theorem SlotShape.get_cases (h : SlotShape idx m) (key : ℕ) :
    mixHashGet (m.hash idx) key = -1 ∨
      ∃ v < m.perBlockNum, mixHashGet (m.hash idx) key = (v : ℕ) := by
  rcases h.wf.keyed.get_cases key with hmiss | ⟨v, hv, hget⟩
  · exact Or.inl hmiss
  · rcases h.value v hv with hlt | rfl
    · have hper := h.per_lt
      rw [toInt32_of_lt (by omega)] at hget
      exact Or.inr ⟨v, hlt, hget⟩
    · -- the value `2 ^ 32 - 1` is read back as `-1`
      exact Or.inl hget

theorem blockTest_of_get_neg (hget : mixHashGet (m.hash idx) (lbaKey a) = -1) :
    mixBufferBlockTest m a idx = -1 := by
  rw [lbaKey] at hget
  rw [mixBufferBlockTest]
  simp only [hget, if_true]

/-- A slot in the index counts while its bit is set. -/
theorem blockTest_of_get (hblocks : segmentNum * m.perBlockNum < 2 ^ 32)
    (hlt : v < m.perBlockNum)
    (hget : mixHashGet (m.hash idx) (lbaKey a) = (v : ℕ)) :
    mixBufferBlockTest m a idx =
      if testBit (m.segments idx).bitmap.array v then (v : ℤ) else -1 := by
  have hne : ¬ ((v : ℤ) = -1) := by omega
  rw [lbaKey] at hget
  rw [mixBufferBlockTest]
  simp only [hget, if_neg hne, valueBit_natCast hblocks hlt, mixBitmapTestBit]
  cases testBit (m.segments idx).bitmap.array v <;> rfl

/-- A block that is found has its slot in the index, with its bit set. -/
theorem SlotShape.get_of_blockTest (h : SlotShape idx m)
    (htest : mixBufferBlockTest m a idx = (v : ℕ)) :
    mixHashGet (m.hash idx) (lbaKey a) = (v : ℕ) ∧ v < m.perBlockNum ∧
      testBit (m.segments idx).bitmap.array v = true := by
  rcases h.get_cases (lbaKey a) with hmiss | ⟨u, hlt, hget⟩
  · rw [blockTest_of_get_neg hmiss] at htest
    omega
  · rw [blockTest_of_get h.blocks_lt hlt hget] at htest
    split_ifs at htest with hbit
    rw [Int.natCast_inj] at htest
    subst htest
    exact ⟨hget, hlt, hbit⟩

/-! ## Taking a slot in any state -/

/-- The entry that is made is a put of the key of the block. -/
theorem mixWriteRedirectBlockmeta_put {m' : MixMetadata} {lba slot : ℕ}
    {bitmap : MixBitmap} (hper : m.perBlockNum < 2 ^ 20)
    (hslot : slot < m.perBlockNum)
    (harray : bitmap.array = setBit (m.segments idx).bitmap.array slot)
    (hset : GuardSet idx m slot)
    (h : mixWriteRedirectBlockmeta (m.setBitmap idx bitmap) idx lba slot =
      some m') :
    mixHashPut (m.hash idx) (lbaKey lba) slot = some (m'.hash idx) := by
  have hbit := (testBit_guardBit_iff idx hper hslot).mpr hset
  have hvalue : ((slot : ℤ) % 2 ^ 32).toNat = slot := by omega
  simp only [mixWriteRedirectBlockmeta, mixBitmapSetBit,
    MixMetadata.setBitmap_self, harray, hbit, Bool.not_true,
    Bool.false_eq_true, if_false, hvalue, MixMetadata.setBitmap_hash,
    Option.map_eq_some_iff] at h
  obtain ⟨hash, hput, rfl⟩ := h
  rw [MixMetadata.addUsed_hash, MixMetadata.setHash_self]
  exact hput

/-- What taking slot `w` for `task` changes in the index. -/
structure TakenSlot (idx : Fin 4) (task : IoTask β) (w : ℕ)
    (m m' : MixMetadata) : Prop where
  perBlockNum : m'.perBlockNum = m.perBlockNum
  entered : GuardSet idx m w →
    mixHashPut (m.hash idx) (lbaKey task.offset) w = some (m'.hash idx) ∧
      (m'.segments idx).bitmap.array =
        setBit (m.segments idx).bitmap.array w
  strayed : ¬ GuardSet idx m w → m'.hash idx = m.hash idx ∧
    (m'.segments idx).bitmap.array =
      setBit (setBit (m.segments idx).bitmap.array w) ((w - idx.val) / 4)

theorem takeSlot_takenSlot (hshape : SegmentShape idx s.metaData)
    (hroom : ¬ IsFull idx s.metaData) {migrated : Bool}
    (h : takeSlot s task idx migrated = some choice) :
    ∃ w : ℕ, (s.metaData.segments idx).bitmap.IsNextClear
        s.metaData.perBlockNum w ∧
      choice.slot = w ∧ choice.migrated = migrated ∧
      choice.store.dev = s.dev ∧
      TakenSlot idx task w s.metaData choice.store.metaData := by
  rw [takeSlot, Option.bind_eq_some_iff] at h
  obtain ⟨r, hnext, hclaim⟩ := h
  obtain ⟨w, bitmap, rfl, hclear, harray, hready, hcursor⟩ :=
    mixGetNextFreeBlock_of_room hshape hroom hnext
  obtain ⟨m', hwrite, rfl⟩ := Option.map_eq_some_iff.mp hclaim
  refine ⟨w, hclear, rfl, rfl, rfl, ?_⟩
  have hspec := mixWriteRedirectBlockmeta_spec hshape hclear.lt harray hready
    hcursor hwrite
  refine ⟨?_, fun hset => ⟨?_, ?_⟩, fun hnot => ?_⟩
  · rcases hspec with ⟨-, hclaimed⟩ | ⟨-, hstrayed⟩
    · exact hclaimed.perBlockNum
    · exact hstrayed.perBlockNum
  · exact mixWriteRedirectBlockmeta_put hshape.per_lt hclear.lt harray hset
      hwrite
  · exact (hspec.resolve_right fun hstray => hstray.1 hset).2.array
  · have hstrayed := (hspec.resolve_left fun hclaimed => hnot hclaimed.1).2
    exact ⟨congrFun hstrayed.hash idx, hstrayed.array⟩

/-! ## One redirected write and another block -/

/-- Block `a` is found as before: if it was buffered, at its slot and with its
data, and a record that named it still does; if not, it is not. -/
structure KeepsOther (idx : Fin 4) (s : Store σ β) (task : IoTask β)
    (choice : SlotChoice σ β) (a : ℕ) : Prop where
  buffered : ∀ u : ℕ, mixBufferBlockTest s.metaData a idx = u →
    mixBufferBlockTest (choice.write task idx).metaData a idx = u ∧
      (choice.write task idx).dev.buffer
          ((choice.write task idx).metaData.bufferBlock idx u) =
        s.dev.buffer (s.metaData.bufferBlock idx u) ∧
      ((s.dev.bufferMeta (s.metaData.bufferBlock idx u)).offset = a →
        ((choice.write task idx).dev.bufferMeta
          ((choice.write task idx).metaData.bufferBlock idx u)).offset = a)
  absent : mixBufferBlockTest s.metaData a idx = -1 →
    mixBufferBlockTest (choice.write task idx).metaData a idx = -1

/-- The write of `task` and block `a` stay apart.  If the write finds its
block at the slot of `a`, the record there names another block than `a` and
the data are those written; if it takes slot `w`, the keys differ where the
slot is entered, and `a` has no stale entry for a slot whose bit it sets. -/
structure Apart (idx : Fin 4) (s : Store σ β) (task : IoTask β) (a : ℕ) :
    Prop where
  hit : ∀ w : ℕ, mixBufferBlockTest s.metaData task.offset idx = w →
    mixBufferBlockTest s.metaData a idx = w →
      (s.dev.bufferMeta (s.metaData.bufferBlock idx w)).offset ≠ a ∧
        s.dev.buffer (s.metaData.bufferBlock idx w) = task.buf 0
  entered : mixBufferBlockTest s.metaData task.offset idx = -1 →
    ¬ IsFull idx s.metaData → ∀ w,
      (s.metaData.segments idx).bitmap.IsNextClear s.metaData.perBlockNum w →
      GuardSet idx s.metaData w → (s.metaData.hash idx).freeNodes ≠ 0 →
        lbaKey a ≠ lbaKey task.offset ∧
          mixHashGet (s.metaData.hash idx) (lbaKey a) ≠ w
  strayed : mixBufferBlockTest s.metaData task.offset idx = -1 →
    ¬ IsFull idx s.metaData → ∀ w,
      (s.metaData.segments idx).bitmap.IsNextClear s.metaData.perBlockNum w →
      ¬ GuardSet idx s.metaData w →
        mixHashGet (s.metaData.hash idx) (lbaKey a) ≠ w ∧
          mixHashGet (s.metaData.hash idx) (lbaKey a) ≠
            ((w - idx.val) / 4 : ℕ)

/-- A write that finds its block at slot `w` touches the blocks found there
and no others. -/
theorem keepsOther_hit_iff (hstate : SlotShape idx s.metaData)
    (hne : a ≠ task.offset)
    (hit : mixBufferBlockTest s.metaData task.offset idx = (w : ℕ)) :
    KeepsOther idx s task ⟨false, w, s⟩ a ↔
      (mixBufferBlockTest s.metaData a idx = (w : ℕ) →
        (s.dev.bufferMeta (s.metaData.bufferBlock idx w)).offset ≠ a ∧
          s.dev.buffer (s.metaData.bufferBlock idx w) = task.buf 0) := by
  have hbuffer : ∀ u : ℕ, (SlotChoice.write ⟨false, w, s⟩ task idx).dev.buffer
      (s.metaData.bufferBlock idx u) =
        Function.update s.dev.buffer (s.metaData.bufferBlock idx w)
          (task.buf 0) (s.metaData.bufferBlock idx u) := fun _ => rfl
  have hrecord : ∀ u : ℕ,
      (SlotChoice.write ⟨false, w, s⟩ task idx).dev.bufferMeta
        (s.metaData.bufferBlock idx u) =
        Function.update s.dev.bufferMeta (s.metaData.bufferBlock idx w)
          ⟨1, 0, task.offset, task.opcode⟩ (s.metaData.bufferBlock idx u) :=
    fun _ => rfl
  constructor
  · intro hkeeps hsame
    obtain ⟨-, hdata, hnames⟩ := hkeeps.buffered w hsame
    refine ⟨fun hoffset => ?_, ?_⟩
    · have hafter := hnames hoffset
      change ((SlotChoice.write ⟨false, w, s⟩ task idx).dev.bufferMeta
        (s.metaData.bufferBlock idx w)).offset = a at hafter
      rw [hrecord, Function.update_self] at hafter
      exact hne hafter.symm
    · change (SlotChoice.write ⟨false, w, s⟩ task idx).dev.buffer
        (s.metaData.bufferBlock idx w) = _ at hdata
      rw [hbuffer, Function.update_self] at hdata
      exact hdata.symm
  · intro hapart
    refine ⟨fun u hu => ⟨hu, ?_, ?_⟩, fun habsent => habsent⟩
    · change (SlotChoice.write ⟨false, w, s⟩ task idx).dev.buffer
        (s.metaData.bufferBlock idx u) = _
      rw [hbuffer]
      by_cases huw : u = w
      · subst huw
        rw [Function.update_self, (hapart hu).2]
      · rw [Function.update_of_ne]
        intro heq
        exact huw (MixMetadata.bufferBlock_inj hstate.per_lt
          (hstate.get_of_blockTest hu).2.1 (hstate.get_of_blockTest hit).2.1
          heq).2
    · intro hnames
      change ((SlotChoice.write ⟨false, w, s⟩ task idx).dev.bufferMeta
        (s.metaData.bufferBlock idx u)).offset = a
      rw [hrecord]
      by_cases huw : u = w
      · subst huw
        exact absurd hnames (hapart hu).1
      · rw [Function.update_of_ne]
        · exact hnames
        · intro heq
          exact huw (MixMetadata.bufferBlock_inj hstate.per_lt
            (hstate.get_of_blockTest hu).2.1
            (hstate.get_of_blockTest hit).2.1 heq).2

/-- Taking slot `w`, whose bit was clear, leaves buffered blocks alone. -/
theorem TakenSlot.keepsOther_buffered (htaken : TakenSlot idx task w s.metaData
      choice.store.metaData) (hstate : SlotShape idx s.metaData)
    (hclear : (s.metaData.segments idx).bitmap.IsNextClear
      s.metaData.perBlockNum w)
    (hslot : choice.slot = w) (hdev : choice.store.dev = s.dev) {u : ℕ}
    (hu : mixBufferBlockTest s.metaData a idx = (u : ℕ)) :
    (choice.write task idx).dev.buffer
        ((choice.write task idx).metaData.bufferBlock idx u) =
      s.dev.buffer (s.metaData.bufferBlock idx u) ∧
    (choice.write task idx).dev.bufferMeta
        ((choice.write task idx).metaData.bufferBlock idx u) =
      s.dev.bufferMeta (s.metaData.bufferBlock idx u) := by
  obtain ⟨-, hlt, hbit⟩ := hstate.get_of_blockTest hu
  have huw : u ≠ w := by
    rintro rfl
    rw [hclear.1] at hbit
    exact Bool.noConfusion hbit
  have hblock : s.metaData.bufferBlock idx u ≠
      s.metaData.bufferBlock idx w := fun heq =>
    huw (MixMetadata.bufferBlock_inj hstate.per_lt hlt hclear.lt heq).2
  simp only [SlotChoice.write, mixBufferWrite_buffer,
    mixBufferWrite_bufferMeta, hslot, hdev,
    MixMetadata.bufferBlock_congr htaken.perBlockNum]
  exact ⟨Function.update_of_ne hblock _ _, Function.update_of_ne hblock _ _⟩

/-- A block whose entry is left alone is found as before exactly when the bits
that are newly set are not those of its entry. -/
theorem TakenSlot.keepsOther_iff {new : ℕ → Prop}
    (htaken : TakenSlot idx task w s.metaData choice.store.metaData)
    (hstate : SlotShape idx s.metaData)
    (hclear : (s.metaData.segments idx).bitmap.IsNextClear
      s.metaData.perBlockNum w)
    (hslot : choice.slot = w) (hdev : choice.store.dev = s.dev)
    (hget : mixHashGet (choice.store.metaData.hash idx) (lbaKey a) =
      mixHashGet (s.metaData.hash idx) (lbaKey a))
    (hbits : ∀ v,
      testBit (choice.store.metaData.segments idx).bitmap.array v = true ↔
        testBit (s.metaData.segments idx).bitmap.array v = true ∨ new v)
    (hnew : ∀ v, new v →
      testBit (s.metaData.segments idx).bitmap.array v = false) :
    KeepsOther idx s task choice a ↔
      ∀ v : ℕ, new v → mixHashGet (s.metaData.hash idx) (lbaKey a) ≠ v := by
  have hblocks : segmentNum * choice.store.metaData.perBlockNum < 2 ^ 32 := by
    rw [htaken.perBlockNum]
    exact hstate.blocks_lt
  -- a block with slot `v` is found after the write when the bit is set then
  have hafter : ∀ v : ℕ, v < s.metaData.perBlockNum →
      mixHashGet (s.metaData.hash idx) (lbaKey a) = v →
      mixBufferBlockTest (choice.write task idx).metaData a idx =
        if testBit (choice.store.metaData.segments idx).bitmap.array v then
          (v : ℤ) else -1 := by
    intro v hlt hv
    apply blockTest_of_get hblocks
    · rw [htaken.perBlockNum]
      exact hlt
    · rw [hget, hv]
  constructor
  · intro hkeeps v hv hstale
    have hlt : v < s.metaData.perBlockNum := by
      rcases hstate.get_cases (lbaKey a) with hmiss | ⟨u, hult, hu⟩
      · omega
      · omega
    have habsent := hkeeps.absent (by
      rw [blockTest_of_get hstate.blocks_lt hlt hstale, hnew v hv]
      rfl)
    rw [hafter v hlt hstale, (hbits v).mpr (Or.inr hv)] at habsent
    simp at habsent
  · intro hapart
    refine ⟨fun u hu => ?_, fun habsent => ?_⟩
    · obtain ⟨hu', hlt, hbit⟩ := hstate.get_of_blockTest hu
      obtain ⟨hdata, hrecord⟩ :=
        htaken.keepsOther_buffered hstate hclear hslot hdev hu
      refine ⟨?_, hdata, fun hnames => ?_⟩
      · rw [hafter u hlt hu', (hbits u).mpr (Or.inl hbit)]
        rfl
      · rw [hrecord]
        exact hnames
    · rcases hstate.get_cases (lbaKey a) with hmiss | ⟨v, hlt, hv⟩
      · apply blockTest_of_get_neg
        exact hget.trans hmiss
      · have hold : ¬ testBit (s.metaData.segments idx).bitmap.array v =
            true := by
          intro hbit
          rw [blockTest_of_get hstate.blocks_lt hlt hv, hbit] at habsent
          simp at habsent
        rw [hafter v hlt hv, if_neg]
        rw [hbits, not_or]
        exact ⟨hold, fun hv' => hapart v hv' hv⟩

theorem blockTest_congr {b : ℕ} (h : lbaKey a = lbaKey b) :
    mixBufferBlockTest m a idx = mixBufferBlockTest m b idx := by
  unfold lbaKey at h
  rw [mixBufferBlockTest, mixBufferBlockTest, h]

/-- A slot that is entered keeps the blocks with other keys that have no stale
entry for it. -/
theorem TakenSlot.keepsOther_entered_iff
    (htaken : TakenSlot idx task w s.metaData choice.store.metaData)
    (hstate : SlotShape idx s.metaData)
    (hmiss : mixBufferBlockTest s.metaData task.offset idx = -1)
    (hclear : (s.metaData.segments idx).bitmap.IsNextClear
      s.metaData.perBlockNum w)
    (hset : GuardSet idx s.metaData w) (hslot : choice.slot = w)
    (hdev : choice.store.dev = s.dev) :
    KeepsOther idx s task choice a ↔ lbaKey a ≠ lbaKey task.offset ∧
      mixHashGet (s.metaData.hash idx) (lbaKey a) ≠ w := by
  obtain ⟨hput, harray⟩ := htaken.entered hset
  have hget := mixHashGet_put hput (lbaKey a)
  have hlt := hclear.lt
  have hper := hstate.per_lt
  by_cases hkey : lbaKey a = lbaKey task.offset
  · -- a block with the key of the write turns up in its slot
    simp only [hkey, ne_eq, not_true_eq_false, false_and, iff_false]
    intro hkeeps
    have habsent := hkeeps.absent ((blockTest_congr hkey).trans hmiss)
    rw [if_pos hkey, toInt32_of_lt (by omega)] at hget
    change mixBufferBlockTest choice.store.metaData a idx = -1 at habsent
    rw [blockTest_of_get (v := w) (by
        rw [htaken.perBlockNum]
        exact hstate.blocks_lt)
      (by
        rw [htaken.perBlockNum]
        exact hlt) hget, harray, testBit_setBit] at habsent
    simp at habsent
  · rw [if_neg hkey] at hget
    have hbits : ∀ v,
        testBit (choice.store.metaData.segments idx).bitmap.array v = true ↔
          testBit (s.metaData.segments idx).bitmap.array v = true ∨
            v = w := by
      intro v
      rw [harray, testBit_setBit, Bool.or_eq_true, decide_eq_true_eq, or_comm]
    rw [htaken.keepsOther_iff hstate hclear hslot hdev hget hbits]
    · simp [hkey]
    · rintro v rfl
      exact hclear.1

/-- A slot that is not entered keeps the blocks that have no stale entry for
one of the two bits that are set. -/
theorem TakenSlot.keepsOther_strayed_iff
    (htaken : TakenSlot idx task w s.metaData choice.store.metaData)
    (hstate : SlotShape idx s.metaData)
    (hclear : (s.metaData.segments idx).bitmap.IsNextClear
      s.metaData.perBlockNum w)
    (hset : ¬ GuardSet idx s.metaData w) (hslot : choice.slot = w)
    (hdev : choice.store.dev = s.dev) :
    KeepsOther idx s task choice a ↔
      mixHashGet (s.metaData.hash idx) (lbaKey a) ≠ w ∧
        mixHashGet (s.metaData.hash idx) (lbaKey a) ≠
          ((w - idx.val) / 4 : ℕ) := by
  obtain ⟨hhash, harray⟩ := htaken.strayed hset
  have hget : mixHashGet (choice.store.metaData.hash idx) (lbaKey a) =
      mixHashGet (s.metaData.hash idx) (lbaKey a) := by rw [hhash]
  have hbits : ∀ v,
      testBit (choice.store.metaData.segments idx).bitmap.array v = true ↔
        testBit (s.metaData.segments idx).bitmap.array v = true ∨
          (v = w ∨ v = (w - idx.val) / 4) := by
    intro v
    rw [harray, testBit_setBit, testBit_setBit, Bool.or_eq_true,
      Bool.or_eq_true, decide_eq_true_eq, decide_eq_true_eq]
    tauto
  rw [htaken.keepsOther_iff hstate hclear hslot hdev hget hbits]
  · simp [or_imp, forall_and]
  · rintro v (rfl | rfl)
    · exact hclear.1
    · rw [GuardSet, not_or] at hset
      exact Bool.eq_false_iff.mpr hset.2

/-- On a well-formed index blocks with different keys stay apart. -/
theorem IndexInv.apart (hinv : IndexInv idx s.metaData)
    (hkey : lbaKey a ≠ lbaKey task.offset) : Apart idx s task a := by
  have hbit : ∀ v : ℕ,
      testBit (s.metaData.segments idx).bitmap.array v = false →
      mixHashGet (s.metaData.hash idx) (lbaKey a) ≠ v := by
    intro v hclear hget
    have hmem : lbaKey a ∈ (s.metaData.hash idx).keys := by
      by_contra hnot
      rw [mixHashGet_of_notMem hinv.wf.keyed hnot] at hget
      omega
    obtain ⟨u, hu⟩ := MixHash.mem_keys.mp hmem
    rw [hinv.slotIndex.get_of_mem hu, Int.natCast_inj] at hget
    have hset := hinv.bit u (MixHash.mem_values_of_mem hu)
    rw [hget, hclear] at hset
    exact Bool.noConfusion hset
  refine ⟨fun w hit hsame => ?_, ?_, ?_⟩
  · have hpair := List.inj_on_of_nodup_map hinv.values_nodup
      (hinv.blockTest_eq_iff.mp hsame) (hinv.blockTest_eq_iff.mp hit) rfl
    exact absurd (congrArg Prod.fst hpair) hkey
  · intro _ _ w hclear _ _
    exact ⟨hkey, hbit w hclear.1⟩
  · intro _ _ w hclear hset
    rw [GuardSet, not_or] at hset
    exact ⟨hbit w hclear.1, hbit _ (Bool.eq_false_iff.mpr hset.2)⟩

variable [BlockDevice σ β]

/-- A write that finds its block keeps the others when they stay apart. -/
theorem keepsOther_hit (hstate : SlotShape idx s.metaData)
    (hne : a ≠ task.offset)
    (hmiss : mixBufferBlockTest s.metaData task.offset idx ≠ -1) :
    (∀ choice, redirectSlot s task idx = some choice →
        choice.migrated = false → KeepsOther idx s task choice a) ↔
      Apart idx s task a := by
  have hfound : ∃ w : ℕ,
      mixBufferBlockTest s.metaData task.offset idx = (w : ℕ) := by
    rcases hstate.get_cases (lbaKey task.offset) with hget | ⟨w, hlt, hget⟩
    · exact absurd (blockTest_of_get_neg hget) hmiss
    · rw [blockTest_of_get hstate.blocks_lt hlt hget] at hmiss ⊢
      split_ifs at hmiss ⊢
      · exact ⟨w, rfl⟩
      · exact absurd rfl hmiss
  obtain ⟨w, hit⟩ := hfound
  have hredirect := redirectSlot_of_hit hit (by omega)
  constructor
  · intro hkeeps
    refine ⟨fun w' hit' hsame => ?_, fun hno => absurd hno hmiss,
      fun hno => absurd hno hmiss⟩
    obtain rfl : w = w' := by omega
    exact (keepsOther_hit_iff hstate hne hit).mp
      (hkeeps _ hredirect rfl) hsame
  · intro hapart choice hchoice _
    rw [hredirect, Option.some.injEq] at hchoice
    subst hchoice
    exact (keepsOther_hit_iff hstate hne hit).mpr (hapart.hit w hit)

/-- A write to a full segment takes its slot after a migration. -/
theorem migrated_of_full
    (hmiss : mixBufferBlockTest s.metaData task.offset idx = -1)
    (hfull : IsFull idx s.metaData)
    (hchoice : redirectSlot s task idx = some choice) :
    choice.migrated = true := by
  rw [redirectSlot_of_full hmiss hfull, takeSlot, Option.bind_eq_some_iff]
    at hchoice
  obtain ⟨r, -, hclaim⟩ := hchoice
  obtain ⟨m', -, rfl⟩ := Option.map_eq_some_iff.mp hclaim
  rfl

/-- A write that takes a free slot keeps the others when they stay apart. -/
theorem keepsOther_room (hstate : SlotShape idx s.metaData)
    (hmiss : mixBufferBlockTest s.metaData task.offset idx = -1)
    (hroom : ¬ IsFull idx s.metaData) :
    (∀ choice, redirectSlot s task idx = some choice →
        choice.migrated = false → KeepsOther idx s task choice a) ↔
      Apart idx s task a := by
  have hshape := hstate.toSegmentShape
  have hredirect := redirectSlot_of_room hshape hmiss hroom
  constructor
  · intro hkeeps
    refine ⟨fun w hit => by omega, ?_, ?_⟩
    · intro _ _ w hclear hset hnode
      obtain ⟨choice, htake⟩ := takeSlot_isSome hshape hroom
        ⟨w, hclear.lt, hclear.1⟩ (Or.inl hnode) task false
      obtain ⟨w', hclear', hslot, hmigrated, hdev, htaken⟩ :=
        takeSlot_takenSlot hshape hroom htake
      obtain rfl := hclear'.unique hclear
      exact (htaken.keepsOther_entered_iff hstate hmiss hclear' hset hslot
        hdev).mp (hkeeps choice (hredirect.trans htake) hmigrated)
    · intro _ _ w hclear hset
      obtain ⟨choice, htake⟩ := takeSlot_isSome hshape hroom
        ⟨w, hclear.lt, hclear.1⟩ (Or.inr fun w' hclear' => by
          rw [hclear'.unique hclear]
          exact hset) task false
      obtain ⟨w', hclear', hslot, hmigrated, hdev, htaken⟩ :=
        takeSlot_takenSlot hshape hroom htake
      obtain rfl := hclear'.unique hclear
      exact (htaken.keepsOther_strayed_iff hstate hclear' hset hslot
        hdev).mp (hkeeps choice (hredirect.trans htake) hmigrated)
  · intro hapart choice hchoice _
    rw [hredirect] at hchoice
    obtain ⟨w, hclear, hslot, -, hdev, htaken⟩ :=
      takeSlot_takenSlot hshape hroom hchoice
    by_cases hset : GuardSet idx s.metaData w
    · rw [htaken.keepsOther_entered_iff hstate hmiss hclear hset hslot hdev]
      apply hapart.entered hmiss hroom w hclear hset
      have hput := mixHashPut_eq_none_iff.not.mp
        (Option.ne_none_iff_exists'.mpr ⟨_, (htaken.entered hset).1⟩)
      exact hput
    · rw [htaken.keepsOther_strayed_iff hstate hclear hset hslot hdev]
      exact hapart.strayed hmiss hroom w hclear hset

/-- Without a migration a redirected write keeps another block of the segment
exactly when the two stay apart. -/
theorem keepsOther_iff_apart (hstate : SlotShape idx s.metaData)
    (task : IoTask β) (hne : a ≠ task.offset) :
    (∀ choice, redirectSlot s task idx = some choice →
        choice.migrated = false → KeepsOther idx s task choice a) ↔
      Apart idx s task a := by
  by_cases hmiss : mixBufferBlockTest s.metaData task.offset idx = -1
  · by_cases hfull : IsFull idx s.metaData
    · constructor
      · intro _
        exact ⟨fun w hit => by omega, fun _ hroom => absurd hfull hroom,
          fun _ hroom => absurd hfull hroom⟩
      · intro _ choice hchoice hmigrated
        rw [migrated_of_full hmiss hfull hchoice] at hmigrated
        exact Bool.noConfusion hmigrated
    · exact keepsOther_room hstate hmiss hfull
  · exact keepsOther_hit hstate hne hmiss

/-- Blocks `4` and `8` are buffered. -/
def fourAndEightStore : Store (ℕ → ℕ) ℕ :=
  (runOps (segmentStep 0) (freshStore 32 (fun _ => false) zeroDevices)
    [.write (smallWrite 4 1), .write (smallWrite 8 2)]).get (by decide +kernel)

theorem fourAndEightStore_indexInv : IndexInv 0 fourAndEightStore.metaData :=
  indexInv_of_runOps (by decide) _ _ (by decide +kernel)
    (Option.some_get _).symm

/-- A write of block `12`, which gets a slot of its own, and one of block `8`,
which is found, keep block `4`. -/
theorem keepsOther_iff_apart_buffered :
    (∀ choice, redirectSlot fourAndEightStore (smallWrite 12 3) 0 = some choice →
        choice.migrated = false →
        KeepsOther 0 fourAndEightStore (smallWrite 12 3) choice 4) ∧
      ∀ choice, redirectSlot fourAndEightStore (smallWrite 8 3) 0 = some choice →
        choice.migrated = false →
        KeepsOther 0 fourAndEightStore (smallWrite 8 3) choice 4 :=
  ⟨(keepsOther_iff_apart fourAndEightStore_indexInv.slotShape _
      (by decide)).mpr (fourAndEightStore_indexInv.apart (by decide)),
    (keepsOther_iff_apart fourAndEightStore_indexInv.slotShape _
      (by decide)).mpr (fourAndEightStore_indexInv.apart (by decide))⟩

/-- Block `4` is buffered. -/
def oneBlockStore : Store (ℕ → ℕ) ℕ :=
  (runOps (segmentStep 0) (freshStore 32 (fun _ => false) zeroDevices)
    [.write (smallWrite 4 1)]).get (by decide +kernel)

/-- A write of block `4 + 2 ^ 32` replaces the data of block `4`. -/
theorem keepsOther_fails :
    runOps (segmentStep 0) (freshStore 32 (fun _ => false) zeroDevices)
        [.write (smallWrite 4 1)] = some oneBlockStore ∧
      smallQueue (smallWrite 4 1) = 0 ∧
      smallQueue (smallWrite (4 + 2 ^ 32) 2) = 0 ∧
      ¬ ∀ choice, redirectSlot oneBlockStore (smallWrite (4 + 2 ^ 32) 2) 0 =
          some choice → choice.migrated = false →
        KeepsOther 0 oneBlockStore (smallWrite (4 + 2 ^ 32) 2) choice 4 := by
  refine ⟨(Option.some_get _).symm, by decide, by decide, fun hkeeps => ?_⟩
  have hother := hkeeps
    ((redirectSlot oneBlockStore (smallWrite (4 + 2 ^ 32) 2) 0).get
      (by decide +kernel)) (Option.some_get _).symm (by decide +kernel)
  have hdata := (hother.buffered 0 (by decide +kernel)).2.1
  exact absurd hdata (by decide +kernel)

end Uhs
