import Uhs.Segment.Operations

/-!
# Where a migration takes its data from

`redirect_write` puts the block of a slot at `idx * per_block_num + slot`.  A
migrate thread reads it from, and clears it at, the slot number alone.  The
two places agree in segment `0` only.
-/

namespace Uhs

open Support

variable {σ β : Type*} [BlockDevice σ β]

/-- The right effect of a migration of segment `idx`: every mapped block of
the SSD receives the contents of its slot, the status words of these slots
are cleared, and nothing else of the devices or of another segment changes. -/
structure MovesData (idx : Fin 4) (s s' : Store σ β) : Prop where
  ssd_mapped : ∀ kv ∈ (s.metaData.hash idx).entries,
    s'.dev.ssdBlock kv.1 = s.dev.buffer (s.metaData.bufferBlock idx kv.2)
  ssd_other : ∀ lba, lba ∉ (s.metaData.hash idx).keys →
    s'.dev.ssdBlock lba = s.dev.ssdBlock lba
  bufferMeta : ∀ p, s'.dev.bufferMeta p =
    if p ∈ (s.metaData.hash idx).values.map fun v : ℕ =>
        s.metaData.bufferBlock idx v
    then { s.dev.bufferMeta p with status := 0 }
    else s.dev.bufferMeta p
  buffer : s'.dev.buffer = s.dev.buffer
  nvm : s'.dev.nvm = s.dev.nvm
  elsewhere : MixMetadata.SameElsewhere idx s.metaData s'.metaData

/-- The index states from which a migration has the right effect: segment `0`
or an empty index, no pair that ends a drain, one slot for each key. -/
structure MovableIndex (idx : Fin 4) (m : MixMetadata) : Prop where
  segment : idx = 0 ∨ (m.hash idx).entries = []
  sentinelFree : ∀ kv ∈ (m.hash idx).entries, ¬ IsSentinel kv
  slot_unique : ∀ kv ∈ (m.hash idx).entries,
    ∀ kv' ∈ (m.hash idx).entries, kv.1 = kv'.1 → kv.2 = kv'.2

/-- What buffered writes keep of a segment whatever their order and however
the migrations they start go: stored values are slots, or `2 ^ 32 - 1`. -/
structure SlotShape (idx : Fin 4) (m : MixMetadata) : Prop
    extends SegmentShape idx m where
  value : ∀ v ∈ (m.hash idx).values, v < m.perBlockNum ∨ v = uint32Max

/-! ## Buffered writes keep the shape -/

variable {idx j : Fin 4} {m m' : MixMetadata} {s : Store σ β}
  {task : IoTask β} {choice : SlotChoice σ β}

theorem SegmentShape.of_sameElsewhere (hshape : SegmentShape idx m)
    (h : MixMetadata.SameElsewhere j m m') (hne : idx ≠ j) :
    SegmentShape idx m' where
  per_lt := h.perBlockNum ▸ hshape.per_lt
  threads_pos := h.migrateThreadNum ▸ hshape.threads_pos
  wf := by
    rw [h.hash_ne idx hne]
    exact hshape.wf
  ready := by
    rw [h.segments_ne idx hne, h.perBlockNum]
    exact hshape.ready

theorem SlotShape.of_sameElsewhere (hshape : SlotShape idx m)
    (h : MixMetadata.SameElsewhere j m m') (hne : idx ≠ j) :
    SlotShape idx m' where
  toSegmentShape := hshape.toSegmentShape.of_sameElsewhere h hne
  value := by
    rw [h.hash_ne idx hne, h.perBlockNum]
    exact hshape.value

omit [BlockDevice σ β] in
/-- Entering a slot, or the `-1` of a full segment. -/
theorem mixWriteRedirectBlockmeta_slotShape {lba : ℕ} {value : ℤ}
    (hshape : SlotShape idx m)
    (hvalue : value = -1 ∨ ∃ n < m.perBlockNum, value = (n : ℕ))
    (h : mixWriteRedirectBlockmeta m idx lba value = some m') :
    SlotShape idx m' ∧ MixMetadata.SameElsewhere idx m m' := by
  have hready := hshape.ready
  have hset : SegmentShape idx (m.setBitmap idx (mixBitmapSetBit
      (m.segments idx).bitmap (guardBit idx value)).2) :=
    hshape.toSegmentShape.setBitmap ⟨hready.bits_eq, hready.one_lt, hready.nextBit_lt⟩
  have hsame := MixMetadata.sameElsewhere_setBitmap m idx
    (mixBitmapSetBit (m.segments idx).bitmap (guardBit idx value)).2
  rw [mixWriteRedirectBlockmeta] at h
  simp only at h
  split at h
  · rw [Option.some.injEq] at h
    subst h
    exact ⟨⟨hset, hshape.value⟩, hsame⟩
  · obtain ⟨hash, hput, rfl⟩ := Option.map_eq_some_iff.mp h
    obtain ⟨hwf, hentries, -⟩ := mixHashPut_spec hset.wf hput
    refine ⟨⟨hset.setHash_addUsed hwf 1, ?_⟩,
      (hsame.trans (MixMetadata.sameElsewhere_setHash _ _ _)).trans
        (MixMetadata.sameElsewhere_addUsed _ _ _)⟩
    intro v hv
    simp only [MixMetadata.addUsed_hash, MixMetadata.setHash_self] at hv
    have hv' := (hentries.map Prod.snd).mem_iff.mp hv
    have hper := hshape.per_lt
    rcases List.mem_cons.mp hv' with rfl | hv'
    · rcases hvalue with rfl | ⟨n, hn, rfl⟩
      · exact Or.inr rfl
      · left
        simp only [MixMetadata.addUsed_perBlockNum,
          MixMetadata.setHash_perBlockNum, MixMetadata.setBitmap_perBlockNum]
        omega
    · exact hshape.value v hv'

omit [BlockDevice σ β] in
theorem takeSlot_slotShape {s : Store σ β} {migrated : Bool}
    (hshape : SlotShape idx s.metaData)
    (h : takeSlot s task idx migrated = some choice) :
    SlotShape idx choice.store.metaData ∧
      MixMetadata.SameElsewhere idx s.metaData choice.store.metaData := by
  rw [takeSlot, Option.bind_eq_some_iff] at h
  obtain ⟨r, hnext, hclaim⟩ := h
  obtain ⟨m', hwrite, rfl⟩ := Option.map_eq_some_iff.mp hclaim
  by_cases hfull : IsFull idx s.metaData
  · rw [mixGetNextFreeBlock_of_full hfull, Option.some.injEq] at hnext
    subst hnext
    exact mixWriteRedirectBlockmeta_slotShape hshape (Or.inl rfl) hwrite
  · obtain ⟨n, bitmap, rfl, hclear, -, hready, -⟩ :=
      mixGetNextFreeBlock_of_room hshape.toSegmentShape hfull hnext
    obtain ⟨hshape', hsame⟩ := mixWriteRedirectBlockmeta_slotShape
      ⟨hshape.toSegmentShape.setBitmap hready, hshape.value⟩
      (Or.inr ⟨n, hclear.lt, rfl⟩) hwrite
    exact ⟨hshape',
      (MixMetadata.sameElsewhere_setBitmap _ _ _).trans hsame⟩

theorem mixMigrateSegment_slotShape (hshape : SlotShape idx s.metaData) :
    SlotShape idx (mixMigrateSegment s idx).metaData ∧
      MixMetadata.SameElsewhere idx s.metaData
        (mixMigrateSegment s idx).metaData := by
  obtain ⟨es, h⟩ := mixMigrateSegment_migrated hshape.threads_pos hshape.wf
  refine ⟨⟨h.shape hshape.toSegmentShape, ?_⟩, h.toSameElsewhere⟩
  intro v hv
  rw [MixHash.values, h.entries_eq] at hv
  obtain ⟨kv, hkv, rfl⟩ := List.mem_map.mp hv
  obtain ⟨i, hi, hmem⟩ := mem_entries.mp hkv
  rw [h.perBlockNum]
  exact hshape.value _ (MixHash.mem_values_of_mem
    (mem_entries.mpr ⟨i, hi, (leftPart_sublist _).subset hmem⟩))

theorem redirectSlot_slotShape (hshape : SlotShape idx s.metaData)
    (h : redirectSlot s task idx = some choice) :
    SlotShape idx choice.store.metaData ∧
      MixMetadata.SameElsewhere idx s.metaData choice.store.metaData := by
  by_cases hmiss : mixBufferBlockTest s.metaData task.offset idx = -1
  · by_cases hfull : IsFull idx s.metaData
    · rw [redirectSlot_of_full hmiss hfull] at h
      obtain ⟨hshape', hsame⟩ := mixMigrateSegment_slotShape hshape
      obtain ⟨hshape'', hsame'⟩ := takeSlot_slotShape hshape' h
      exact ⟨hshape'', hsame.trans hsame'⟩
    · rw [redirectSlot_of_room hshape.toSegmentShape hmiss hfull] at h
      exact takeSlot_slotShape hshape h
  · rw [redirectSlot_of_hit rfl hmiss, Option.some.injEq] at h
    subst h
    exact ⟨hshape, MixMetadata.SameElsewhere.refl _ _⟩

/-- A buffered write to some segment. -/
def bufferedWrite (s : Store σ β) (write : Fin 4 × IoTask β) :
    Option (Store σ β) :=
  (redirectWrite s write.2 write.1).map Prod.snd

theorem bufferedWrite_slotShape {s s' : Store σ β}
    {write : Fin 4 × IoTask β}
    (hshape : ∀ idx, SlotShape idx s.metaData)
    (h : bufferedWrite s write = some s') :
    ∀ idx, SlotShape idx s'.metaData := by
  simp only [bufferedWrite, redirectWrite, Option.map_map,
    Option.map_eq_some_iff] at h
  obtain ⟨choice, hslot, rfl⟩ := h
  obtain ⟨hown, hsame⟩ := redirectSlot_slotShape (hshape _) hslot
  intro idx
  by_cases hidx : idx = write.1
  · subst hidx
    exact hown
  · exact (hshape idx).of_sameElsewhere hsame hidx

/-- The states that buffered writes reach from a freshly initialised store. -/
theorem slotShape_of_runOps {blockNum : ℕ} (hsize : ValidSize blockNum)
    {migration : Fin 4 → Bool} {dev : Devices σ β}
    {writes : List (Fin 4 × IoTask β)} {s : Store σ β}
    (hrun : runOps bufferedWrite (freshStore blockNum migration dev) writes =
      some s) (idx : Fin 4) : SlotShape idx s.metaData := by
  have hfresh : ∀ idx, SlotShape idx
      (freshStore blockNum migration dev).metaData := by
    intro idx
    refine ⟨(mixMetadataInit_indexInv migration idx hsize).toSegmentShape, ?_⟩
    simp [freshStore, MixHash.values, mixMetadataInit_entries]
  have hall : AllStates bufferedWrite
      (fun s => ∀ idx, SlotShape idx s.metaData) _ writes :=
    allStates_of_invariant
      (fun _ _ _ hinv hstep => bufferedWrite_slotShape hinv hstep) hfresh
  exact hall.of_runOps hfresh hrun idx

/-! ## The effect of a migration -/

theorem bufferBlock_zero {m : MixMetadata} {v : ℕ} (hv : v < 2 ^ 32) :
    m.bufferBlock 0 v = v := by
  simp only [MixMetadata.bufferBlock, Fin.val_zero, Nat.cast_zero, zero_mul,
    zero_add]
  omega

theorem SlotShape.value_lt (hshape : SlotShape idx m) {v : ℕ}
    (hv : v ∈ (m.hash idx).values) : v < 2 ^ 32 := by
  have hper := hshape.per_lt
  rcases hshape.value v hv with hlt | rfl
  · omega
  · decide

/-- From a movable index the data go where they belong. -/
theorem MovableIndex.movesData {s s' : Store σ β} {es : List MixKv}
    (h : MovableIndex idx s.metaData) (hshape : SlotShape idx s.metaData)
    (hmigrated : Migrated idx es s s') : MovesData idx s s' := by
  obtain ⟨hperm, -, -⟩ := hmigrated.of_sentinelFree h.sentinelFree
  have hplace : ∀ v ∈ (s.metaData.hash idx).values,
      s.metaData.bufferBlock idx v = v := by
    intro v hv
    rcases h.segment with rfl | hnil
    · exact bufferBlock_zero (hshape.value_lt hv)
    · simp [MixHash.values, hnil] at hv
  have hplaces : ((s.metaData.hash idx).values.map fun v : ℕ =>
      s.metaData.bufferBlock idx v) = (s.metaData.hash idx).values := by
    rw [List.map_congr_left hplace, List.map_id']
  refine
    { ssd_mapped := ?_
      ssd_other := ?_
      bufferMeta := ?_
      buffer := by rw [hmigrated.dev, moveOut_buffer]
      nvm := by rw [hmigrated.dev, moveOut_nvm]
      elsewhere := hmigrated.toSameElsewhere }
  · intro kv hkv
    rw [hmigrated.dev, hplace _ (MixHash.mem_values_of_mem hkv)]
    refine moveOut_ssdBlock_of_mem _ ?_ (hperm.mem_iff.mpr hkv)
    intro e he e' he'
    exact h.slot_unique e (hperm.mem_iff.mp he) e' (hperm.mem_iff.mp he')
  · intro lba hlba
    rw [hmigrated.dev]
    apply moveOut_ssdBlock_of_notMem
    rw [(hperm.map Prod.fst).mem_iff]
    exact hlba
  · intro p
    have hmem : p ∈ es.map Prod.snd ↔ p ∈ (s.metaData.hash idx).values :=
      (hperm.map Prod.snd).mem_iff
    rw [hmigrated.dev, moveOut_bufferMeta, hplaces]
    simp only [hmem]

/-- A device with `x` in one buffer block, and `y` in all others and on the
SSD block `lba`. -/
def probe (dev : Devices σ β) (place lba : ℕ) (x y : β) : Devices σ β where
  nvm := dev.nvm
  buffer := fun p => if p = place then x else y
  bufferMeta := dev.bufferMeta
  ssd := BlockDevice.write dev.ssd lba [y]

/-- If the data always arrive, they are moved from the place of the slot. -/
theorem exists_moved_of_movesData [Nontrivial β] (dev : Devices σ β)
    (hshape : SlotShape idx m)
    (hmoves : ∀ dev : Devices σ β, MovesData idx ⟨m, dev⟩
      (mixMigrateSegment ⟨m, dev⟩ idx)) {kv : MixKv}
    (hkv : kv ∈ (m.hash idx).entries) :
    ∃ e ∈ (m.hash idx).entries, ¬ IsSentinel e ∧ e.1 = kv.1 ∧
      e.2 = m.bufferBlock idx kv.2 := by
  obtain ⟨x, y, hxy⟩ := exists_pair_ne β
  set probed := probe dev (m.bufferBlock idx kv.2) kv.1 x y with hprobed
  obtain ⟨es, hmigrated⟩ := mixMigrateSegment_migrated
    (s := ⟨m, probed⟩) hshape.threads_pos hshape.wf
  have hdata := (hmoves probed).ssd_mapped kv hkv
  rw [hmigrated.dev] at hdata
  have hx : probed.buffer (m.bufferBlock idx kv.2) = x := by
    simp [hprobed, probe]
  have hy : probed.ssdBlock kv.1 = y := by
    simp [hprobed, probe, Devices.ssdBlock,
      BlockDevice.read_write_singleton]
  rcases moveOut_ssdBlock_cases probed es kv.1 with
    hsame | ⟨e, he, hkey, hmoved⟩
  · exact absurd (hx.symm.trans (hdata.symm.trans (hsame.trans hy))) hxy
  · have hplace : e.2 = m.bufferBlock idx kv.2 := by
      by_contra hne
      have hey : probed.buffer e.2 = y := by
        simp [hprobed, probe, hne]
      exact hxy (hx.symm.trans (hdata.symm.trans (hmoved.trans hey)))
    obtain ⟨i, hi, hmem⟩ := mem_entries.mp (hmigrated.moved.mem_iff.mp he)
    exact ⟨e, mem_entries.mpr ⟨i, hi, (movedPart_sublist _).subset hmem⟩,
      not_sentinel_of_mem_movedPart hmem, hkey, hplace⟩

/-- In any index state that buffered writes reach, a migration has the right
effect on all contents of the devices exactly when the index is movable. -/
theorem movesData_iff_movableIndex [Nontrivial β] {blockNum : ℕ}
    (hsize : ValidSize blockNum) (migration : Fin 4 → Bool)
    (dev : Devices σ β) (writes : List (Fin 4 × IoTask β)) (s : Store σ β)
    (hrun : runOps bufferedWrite (freshStore blockNum migration dev) writes =
      some s) (idx : Fin 4) :
    (∀ dev : Devices σ β, MovesData idx ⟨s.metaData, dev⟩
      (mixMigrateSegment ⟨s.metaData, dev⟩ idx)) ↔
      MovableIndex idx s.metaData := by
  have hshape := slotShape_of_runOps hsize hrun idx
  have hper := hshape.per_lt
  constructor
  · intro hmoves
    have hmoved : ∀ kv ∈ (s.metaData.hash idx).entries,
        ∃ e ∈ (s.metaData.hash idx).entries, ¬ IsSentinel e ∧ e.1 = kv.1 ∧
          e.2 = s.metaData.bufferBlock idx kv.2 :=
      fun kv hkv => exists_moved_of_movesData dev hshape hmoves hkv
    have hsmall : ∀ e ∈ (s.metaData.hash idx).entries, ¬ IsSentinel e →
        e.2 < s.metaData.perBlockNum := by
      intro e he hnot
      rcases hshape.value _ (MixHash.mem_values_of_mem he) with hlt | hmax
      · exact hlt
      · exact absurd (Or.inr hmax) hnot
    by_cases hidx : idx = 0
    · subst hidx
      have hself : ∀ kv ∈ (s.metaData.hash 0).entries, ∀ e : MixKv,
          e.2 = s.metaData.bufferBlock 0 kv.2 → e.2 = kv.2 := by
        intro kv hkv e he
        rw [he]
        exact bufferBlock_zero
          (hshape.value_lt (MixHash.mem_values_of_mem hkv))
      refine ⟨Or.inl rfl, ?_, ?_⟩
      · intro kv hkv
        obtain ⟨e, -, hnot, hkey, hplace⟩ := hmoved kv hkv
        have heq : e = kv := Prod.ext hkey (hself kv hkv e hplace)
        rwa [heq] at hnot
      · intro kv hkv kv' hkv' hkey
        by_contra hne
        obtain ⟨x, y, hxy⟩ := exists_pair_ne β
        have hmapped := (hmoves (probe dev kv.2 0 x y)).ssd_mapped
        have hx := hmapped kv hkv
        have hy := hmapped kv' hkv'
        simp only [bufferBlock_zero (hshape.value_lt
            (MixHash.mem_values_of_mem hkv)), probe, if_true] at hx
        simp only [bufferBlock_zero (hshape.value_lt
            (MixHash.mem_values_of_mem hkv')), probe, Ne.symm hne,
          if_false] at hy
        rw [hkey] at hx
        exact hxy (hx.symm.trans hy)
    · -- the place of a slot that was moved lies beyond all slots
      have hnil : (s.metaData.hash idx).entries = [] := by
        rw [List.eq_nil_iff_forall_not_mem]
        intro kv hkv
        obtain ⟨e, he, hnot, -, -⟩ := hmoved kv hkv
        obtain ⟨e', he', hnot', -, hplace⟩ := hmoved e he
        have hlt' := hsmall e' he' hnot'
        rw [hplace, MixMetadata.bufferBlock_natCast hper
          (hsmall e he hnot)] at hlt'
        have hpos : 1 ≤ idx.val := by omega
        have hmul := Nat.mul_le_mul_right s.metaData.perBlockNum hpos
        omega
      exact ⟨Or.inr hnil, by simp [hnil], by simp [hnil]⟩
  · intro hmovable dev
    obtain ⟨es, hmigrated⟩ := mixMigrateSegment_migrated
      (s := ⟨s.metaData, dev⟩) hshape.threads_pos hshape.wf
    exact MovableIndex.movesData (s := ⟨s.metaData, dev⟩) hmovable hshape
      hmigrated

/-- Writes to blocks `4` and `8` of segment `0`, to block `4` again, and to
block `1` of segment `1`. -/
def fourWrites : List (Fin 4 × IoTask ℕ) :=
  [(0, smallWrite 4 5), (0, smallWrite 8 6), (0, smallWrite 4 7),
    (1, smallWrite 1 8)]

def fourWritesStore : Store (ℕ → ℕ) ℕ :=
  (runOps bufferedWrite (freshStore 32 (fun _ => false) zeroDevices)
    fourWrites).get (by decide +kernel)

theorem runOps_fourWritesStore :
    runOps bufferedWrite (freshStore 32 (fun _ => false) zeroDevices)
      fourWrites = some fourWritesStore :=
  (Option.some_get _).symm

/-- A migration of segment `0` moves its two buffered blocks, whatever the
devices hold. -/
theorem movesData_iff_movableIndex_example :
    (fourWritesStore.metaData.hash 0).keys.length = 2 ∧
      ∀ dev : Devices (ℕ → ℕ) ℕ, MovesData 0 ⟨fourWritesStore.metaData, dev⟩
        (mixMigrateSegment ⟨fourWritesStore.metaData, dev⟩ 0) :=
  ⟨by decide +kernel,
    (movesData_iff_movableIndex (by decide) _ _ _ _ runOps_fourWritesStore
      0).mpr ⟨Or.inl rfl, by decide +kernel, by decide +kernel⟩⟩

/-- The store after one write of `5` to block `1` of segment `1`. -/
def oneWriteStore : Store (ℕ → ℕ) ℕ :=
  (runOps bufferedWrite (freshStore 32 (fun _ => false) zeroDevices)
    [(1, smallWrite 1 5)]).get (by decide +kernel)

theorem runOps_oneWriteStore :
    runOps bufferedWrite (freshStore 32 (fun _ => false) zeroDevices)
      [(1, smallWrite 1 5)] = some oneWriteStore :=
  (Option.some_get _).symm

/-- The block written to segment `1` lies in buffer block `8`, but the
migration copies buffer block `0`. -/
theorem movesData_fails :
    ∃ s, runOps bufferedWrite (freshStore 32 (fun _ => false) zeroDevices)
        [(1, smallWrite 1 5)] = some s ∧
      ¬ MovesData 1 s (mixMigrateSegment s 1) := by
  refine ⟨oneWriteStore, runOps_oneWriteStore, fun hmoves => ?_⟩
  have hdata := hmoves.ssd_mapped (1, 0) (by decide +kernel)
  exact absurd hdata (by decide +kernel)

end Uhs
