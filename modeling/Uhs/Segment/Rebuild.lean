import Uhs.Segment.Operations

/-!
# Rebuilding an index

What `mix_buffer_rebuild` makes of the metadata records on the NVM: one entry
for each valid record.  When the valid records of a segment carry distinct
blocks, the rebuilt index is well formed and maps exactly these blocks.
-/

namespace Uhs

open Support

variable {σ β : Type*}

/-- The pair that a valid record stands for. -/
def recordPair (metaData : MixMetadata) (dev : Devices σ β) (idx : Fin 4)
    (off : ℕ) : Option MixKv :=
  let bufferMeta := mixBufferGetMeta dev (metaData.bufferBlock idx off)
  if bufferMeta.status % 2 = 1 then
    some (bufferMeta.offset % 2 ^ 32, off)
  else
    none

/-- The pairs of the valid records below `off`. -/
def recordPairs (metaData : MixMetadata) (dev : Devices σ β) (idx : Fin 4)
    (off : ℕ) : List MixKv :=
  (List.range off).filterMap (recordPair metaData dev idx)

variable {idx : Fin 4} {m m' : MixMetadata} {dev : Devices σ β}

variable (idx m dev) in
theorem recordPairs_succ (off : ℕ) :
    (recordPairs m dev idx (off + 1)).Perm
      ((recordPair m dev idx off).toList ++ recordPairs m dev idx off) := by
  rw [recordPairs, List.range_succ, List.filterMap_append]
  cases h : recordPair m dev idx off with
  | none => simp [h, recordPairs]
  | some kv =>
      simp only [List.filterMap_cons, h, List.filterMap_nil,
        Option.toList_some, List.singleton_append, recordPairs]
      exact List.perm_append_singleton kv _

variable (idx m dev) in
theorem length_recordPairs_le (off : ℕ) :
    (recordPairs m dev idx off).length ≤ off := by
  have h := List.length_filterMap_le (recordPair m dev idx) (List.range off)
  rwa [List.length_range] at h

/-- The index after the records below `off` have been read. -/
structure RebuiltBelow (idx : Fin 4) (dev : Devices σ β) (off : ℕ)
    (m m' : MixMetadata) : Prop
    extends MixMetadata.SameElsewhere idx m m' where
  shape : SegmentShape idx m'
  entries : (m'.hash idx).entries.Perm (recordPairs m dev idx off)
  nodes : (m'.hash idx).freeNodes + (m'.hash idx).entries.length =
    m.perBlockNum
  used : (m'.segments idx).usedBlockNum = (m'.hash idx).entries.length
  bit : ∀ v ∈ (m'.hash idx).values,
    testBit (m'.segments idx).bitmap.array v = true

/-- Reading one valid record. -/
theorem RebuiltBelow.put {off : ℕ} (h : RebuiltBelow idx dev off m m')
    {kv : MixKv} (hpair : recordPair m dev idx off = some kv)
    {hash : MixHash}
    (hput : mixHashPut (m'.hash idx) kv.1 kv.2 = some hash) :
    RebuiltBelow idx dev (off + 1) m
      (((m'.setBitmap idx (mixBitmapSetBit (m'.segments idx).bitmap kv.2).2
        ).addUsed idx 1).setHash idx hash) := by
  obtain ⟨hwf, hentries, hfree, -⟩ := mixHashPut_spec h.shape.wf hput
  have hlength := hentries.length_eq
  rw [List.length_cons] at hlength
  have hready := h.shape.ready
  refine
    { toSameElsewhere := h.toSameElsewhere.trans
        (((MixMetadata.sameElsewhere_setBitmap _ _ _).trans
          (MixMetadata.sameElsewhere_addUsed _ _ _)).trans
            (MixMetadata.sameElsewhere_setHash _ _ _))
      shape :=
        { per_lt := h.shape.per_lt
          threads_pos := h.shape.threads_pos
          wf := by simpa using hwf
          ready := by
            simp only [MixMetadata.setHash_segments, MixMetadata.addUsed_self,
              MixMetadata.setBitmap_self]
            exact ⟨hready.bits_eq, hready.one_lt, hready.nextBit_lt⟩ }
      entries := ?_
      nodes := ?_
      used := ?_
      bit := ?_ }
  · rw [MixMetadata.setHash_self]
    refine hentries.trans (((h.entries.cons kv)).trans ?_)
    have hsucc := recordPairs_succ idx m dev off
    rw [hpair] at hsucc
    exact hsucc.symm
  · have hnodes := h.nodes
    rw [MixMetadata.setHash_self]
    omega
  · have hused := h.used
    rw [MixMetadata.setHash_self]
    simp only [MixMetadata.setHash_segments, MixMetadata.addUsed_self,
      MixMetadata.setBitmap_self]
    omega
  · intro v hv
    rw [MixMetadata.setHash_self] at hv
    have hvalues : hash.values.Perm (kv.2 :: (m'.hash idx).values) :=
      hentries.map Prod.snd
    simp only [MixMetadata.setHash_segments, MixMetadata.addUsed_self,
      MixMetadata.setBitmap_self, mixBitmapSetBit, testBit_setBit]
    rcases List.mem_cons.mp (hvalues.mem_iff.mp hv) with rfl | hv
    · simp
    · simp [h.bit v hv]

variable (dev) in
/-- The rebuild of an empty segment returns. -/
theorem rebuildBelow_spec (hinv : IndexInv idx m)
    (hnil : (m.hash idx).entries = [])
    (hnodes : (m.hash idx).freeNodes = m.perBlockNum) {off : ℕ}
    (hoff : off ≤ m.perBlockNum) :
    ∃ m', rebuildBelow dev idx off m = some m' ∧
      RebuiltBelow idx dev off m m' := by
  induction off with
  | zero =>
      refine ⟨m, rfl, ?_⟩
      exact
        { toSameElsewhere := MixMetadata.SameElsewhere.refl idx m
          shape := hinv.toSegmentShape
          entries := by simp [hnil, recordPairs]
          nodes := by simp [hnil, hnodes]
          used := hinv.used
          bit := hinv.bit }
  | succ off ih =>
      obtain ⟨m', hbelow, hrebuilt⟩ := ih (by omega)
      have hblock := MixMetadata.bufferBlock_congr hrebuilt.perBlockNum idx
        (off : ℤ)
      simp only [rebuildBelow, hbelow, Option.bind_some, hblock]
      by_cases hvalid :
          (mixBufferGetMeta dev (m.bufferBlock idx off)).status % 2 = 1
      · have hpair : recordPair m dev idx off = some
            ((mixBufferGetMeta dev (m.bufferBlock idx off)).offset % 2 ^ 32,
              off) := by
          simp only [recordPair, hvalid, if_true]
        have hlength := hrebuilt.entries.length_eq
        have hle := length_recordPairs_le idx m dev off
        have hfree : (m'.hash idx).freeNodes ≠ 0 := by
          have hnodes' := hrebuilt.nodes
          omega
        obtain ⟨hash, hput⟩ := Option.ne_none_iff_exists'.mp
          (mt mixHashPut_eq_none_iff.mp hfree)
        refine ⟨_, ?_, hrebuilt.put hpair hput⟩
        simp only [hvalid, if_true, MixMetadata.addUsed_hash,
          MixMetadata.setBitmap_hash, hput, Option.map_some]
      · refine ⟨m', by simp only [hvalid, if_false], ?_⟩
        have hpair : recordPair m dev idx off = none := by
          simp only [recordPair, hvalid, if_false]
        have hsucc := recordPairs_succ idx m dev off
        rw [hpair] at hsucc
        exact
          { toSameElsewhere := hrebuilt.toSameElsewhere
            shape := hrebuilt.shape
            entries := hrebuilt.entries.trans hsucc.symm
            nodes := hrebuilt.nodes
            used := hrebuilt.used
            bit := hrebuilt.bit }

/-! ## The recovered contents -/

theorem mem_recordPairs {off : ℕ} {kv : MixKv} :
    kv ∈ recordPairs m dev idx off ↔
      kv.2 < off ∧ recordPair m dev idx kv.2 = some kv := by
  simp only [recordPairs, List.mem_filterMap, List.mem_range]
  constructor
  · rintro ⟨i, hi, hpair⟩
    have heq : kv.2 = i := by
      simp only [recordPair] at hpair
      split at hpair
      · cases hpair
        rfl
      · cases hpair
    rw [heq]
    exact ⟨hi, hpair⟩
  · rintro ⟨hlt, hpair⟩
    exact ⟨kv.2, hlt, hpair⟩

theorem recordPairs_values_nodup (off : ℕ) :
    ((recordPairs m dev idx off).map Prod.snd).Nodup := by
  refine List.Nodup.map_on ?_ (List.nodup_range.filterMap ?_)
  · intro kv hkv kv' hkv' heq
    have hpair := (mem_recordPairs.mp hkv).2
    have hpair' := (mem_recordPairs.mp hkv').2
    rw [heq, hpair'] at hpair
    exact (Option.some.inj hpair).symm
  · intro i j kv hi hj
    have hval : ∀ {k : ℕ}, kv ∈ recordPair m dev idx k → kv.2 = k := by
      intro k hk
      simp only [recordPair, Option.mem_def] at hk
      split at hk
      · cases hk
        rfl
      · cases hk
    exact (hval hi).symm.trans (hval hj)

/-- When the valid records carry distinct blocks, the rebuilt index is well
formed. -/
theorem RebuiltBelow.indexInv (h : RebuiltBelow idx dev m.perBlockNum m m')
    (hdistinct :
      ((recordPairs m dev idx m.perBlockNum).map Prod.fst).Nodup) :
    IndexInv idx m' where
  toSegmentShape := h.shape
  keys_nodup := (h.entries.map Prod.fst).nodup_iff.mpr hdistinct
  values_nodup := (h.entries.map Prod.snd).nodup_iff.mpr
    (recordPairs_values_nodup _)
  value_lt := by
    intro v hv
    obtain ⟨kv, hkv, rfl⟩ :=
      List.mem_map.mp ((h.entries.map Prod.snd).mem_iff.mp hv)
    rw [h.perBlockNum]
    exact (mem_recordPairs.mp hkv).1
  bit := h.bit
  used := h.used

variable [BlockDevice σ β]

/-- The contents of a block after a crash: its buffer block, if a fresh
rebuild of segment `idx` maps it, and else its SSD block. -/
def recoveredBlock (blockNum : ℕ) (migration : Fin 4 → Bool)
    (dev : Devices σ β) (idx : Fin 4) (lba : ℕ) : Option β :=
  (mixBufferRebuild (mixMetadataInit blockNum migration) dev idx).map
    fun metaData =>
      let value := mixBufferBlockTest metaData lba idx
      if value = -1 then dev.ssdBlock lba
      else dev.buffer (metaData.bufferBlock idx value)

/-- When the valid records carry distinct blocks, a block is recovered from
the slot of its record and, without one, from the SSD. -/
theorem recoveredBlock_spec {blockNum : ℕ} (hsize : ValidSize blockNum)
    (migration : Fin 4 → Bool)
    (hm : m = mixMetadataInit blockNum migration)
    (hdistinct : ((recordPairs m dev idx m.perBlockNum).map Prod.fst).Nodup)
    {lba : ℕ} (hlba : lba < 2 ^ 32) :
    (∀ v, (lba, v) ∈ recordPairs m dev idx m.perBlockNum →
        recoveredBlock blockNum migration dev idx lba =
          some (dev.buffer (m.bufferBlock idx v))) ∧
      ((∀ v, (lba, v) ∉ recordPairs m dev idx m.perBlockNum) →
        recoveredBlock blockNum migration dev idx lba =
          some (dev.ssdBlock lba)) := by
  have hinv : IndexInv idx m := hm ▸ mixMetadataInit_indexInv migration idx
    hsize
  have hnil : (m.hash idx).entries = [] := by
    rw [hm]
    exact mixMetadataInit_entries migration idx
  obtain ⟨m', hrebuild, hrebuilt⟩ := rebuildBelow_spec dev hinv hnil
    (by rw [hm]; rfl) le_rfl
  have hinv' := hrebuilt.indexInv hdistinct
  have hkey : lbaKey lba = lba := Nat.mod_eq_of_lt hlba
  have hmem : ∀ v, (lbaKey lba, v) ∈ (m'.hash idx).entries ↔
      (lba, v) ∈ recordPairs m dev idx m.perBlockNum := by
    intro v
    rw [hkey]
    exact hrebuilt.entries.mem_iff
  simp only [recoveredBlock, mixBufferRebuild, ← hm, hrebuild,
    Option.map_some]
  refine ⟨fun v hv => ?_, fun hnone => ?_⟩
  · have htest := hinv'.blockTest_of_mem ((hmem v).mpr hv)
    have hne : ¬ ((v : ℤ) = -1) := by omega
    rw [htest, if_neg hne,
      MixMetadata.bufferBlock_congr hrebuilt.perBlockNum]
  · have htest := hinv'.blockTest_of_notMem fun hkeys : lbaKey lba ∈ _ => by
      obtain ⟨v, hv⟩ := MixHash.mem_keys.mp hkeys
      exact hnone v ((hmem v).mp hv)
    rw [htest, if_pos rfl]

end Uhs
