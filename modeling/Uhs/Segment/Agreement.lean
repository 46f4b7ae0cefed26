import Uhs.Segment.Accounting
import Uhs.Segment.MoveOut
import Uhs.Support.Graph

/-!
# The index and the persisted records

The hash of a segment and the records on the NVM are changed by different
functions.  They agree as long as every write that takes a slot enters it, a
migration finds segment `0` or an empty index and no block `2 ^ 32 - 1`, and
the records are cleared only when nothing is mapped.
-/

namespace Uhs

open Support

variable {σ β : Type*}

/-! ## Agreement -/

/-- The index of segment `idx` holds a block with its slot exactly when the
record of the slot is valid and carries the block. -/
def Agrees (idx : Fin 4) (s : Store σ β) : Prop :=
  ∀ lba slot, slot < s.metaData.perBlockNum →
    ((lba, slot) ∈ (s.metaData.hash idx).entries ↔
      (s.dev.bufferMeta (idx.val * s.metaData.perBlockNum + slot)).status % 2
          = 1 ∧
        (s.dev.bufferMeta (idx.val * s.metaData.perBlockNum + slot)).offset
          = lba)

/-- The block that the record of a slot holds, if the record is valid. -/
def Store.recordKey (s : Store σ β) (idx : Fin 4) (slot : ℕ) : Option ℕ :=
  let bufferMeta := s.dev.bufferMeta (s.metaData.bufferBlock idx slot)
  if slot < s.metaData.perBlockNum ∧ bufferMeta.status % 2 = 1 then
    some bufferMeta.offset
  else
    none

/-- A well-formed index that is the graph of the records. -/
structure RecordInv (idx : Fin 4) (s : Store σ β) : Prop where
  index : IndexInv idx s.metaData
  graph : IsGraph (s.metaData.hash idx).entries (s.recordKey idx)

variable {idx j : Fin 4} {s s' : Store σ β} {lba slot : ℕ}

theorem Store.recordKey_eq_some {k : ℕ} :
    s.recordKey idx slot = some k ↔ slot < s.metaData.perBlockNum ∧
      (s.dev.bufferMeta (s.metaData.bufferBlock idx slot)).status % 2 = 1 ∧
      (s.dev.bufferMeta (s.metaData.bufferBlock idx slot)).offset = k := by
  unfold Store.recordKey
  dsimp only
  split
  · rename_i h
    rw [Option.some.injEq]
    exact ⟨fun hk => ⟨h.1, h.2, hk⟩, fun hk => hk.2.2⟩
  · rename_i h
    constructor
    · intro hk
      cases hk
    · intro hk
      exact absurd ⟨hk.1, hk.2.1⟩ h

theorem RecordInv.agrees (h : RecordInv idx s) : Agrees idx s := by
  intro lba slot hslot
  rw [h.graph lba slot, Store.recordKey_eq_some,
    MixMetadata.bufferBlock_natCast h.index.per_lt hslot]
  exact ⟨fun hk => hk.2, fun hk => ⟨hslot, hk⟩⟩

/-! ## Changes of the records -/

/-- A change of one record is a change at one slot of one segment. -/
theorem Store.recordKey_update (bufferMeta : BufferMeta)
    (hper : s.metaData.perBlockNum < 2 ^ 20)
    (hslot : slot < s.metaData.perBlockNum)
    (hsame : s'.metaData.perBlockNum = s.metaData.perBlockNum)
    (hdev : s'.dev.bufferMeta = Function.update s.dev.bufferMeta
      (s.metaData.bufferBlock idx slot) bufferMeta) :
    s'.recordKey idx = Function.update (s.recordKey idx) slot
        (if bufferMeta.status % 2 = 1 then some bufferMeta.offset
          else none) ∧
      ∀ j, j ≠ idx → s'.recordKey j = s.recordKey j := by
  have hblock : ∀ (j : Fin 4) (v : ℕ),
      s'.metaData.bufferBlock j v = s.metaData.bufferBlock j v :=
    fun j v => MixMetadata.bufferBlock_congr hsame j v
  -- the records of the other slots are left alone
  have hother : ∀ (j : Fin 4) (v : ℕ), (j = idx → v ≠ slot) →
      s'.recordKey j v = s.recordKey j v := by
    intro j v hne
    rw [Store.recordKey, Store.recordKey, hsame, hblock, hdev]
    by_cases hv : v < s.metaData.perBlockNum
    · rw [Function.update_of_ne]
      intro heq
      obtain ⟨rfl, rfl⟩ := MixMetadata.bufferBlock_inj hper hv hslot heq
      exact hne rfl rfl
    · simp only [hv, false_and, if_false]
  constructor
  · funext v
    by_cases hv : v = slot
    · subst hv
      rw [Function.update_self, Store.recordKey, hsame, hblock, hdev,
        Function.update_self]
      simp only [hslot, true_and]
    · rw [Function.update_of_ne hv]
      exact hother idx v fun _ => hv
  · intro j hj
    funext v
    exact hother j v fun h => absurd h hj

/-- A segment whose index and whose records are left alone. -/
theorem RecordInv.of_sameElsewhere (h : RecordInv j s)
    (hsame : MixMetadata.SameElsewhere idx s.metaData s'.metaData)
    (hj : j ≠ idx) (hrecord : s'.recordKey j = s.recordKey j) :
    RecordInv j s' := by
  have hindex := h.index
  refine ⟨⟨hindex.toSegmentShape.of_sameElsewhere hsame hj, ?_, ?_, ?_, ?_,
    ?_⟩, ?_⟩
  · rw [hsame.hash_ne j hj]
    exact hindex.keys_nodup
  · rw [hsame.hash_ne j hj]
    exact hindex.values_nodup
  · rw [hsame.hash_ne j hj, hsame.perBlockNum]
    exact hindex.value_lt
  · rw [hsame.hash_ne j hj, hsame.segments_ne j hj]
    exact hindex.bit
  · rw [hsame.hash_ne j hj, hsame.segments_ne j hj]
    exact hindex.used
  · rw [hsame.hash_ne j hj, hrecord]
    exact h.graph

/-- All segments after a change of one of them. -/
theorem RecordInv.forall_update (h : ∀ j, RecordInv j s)
    (hsame : MixMetadata.SameElsewhere idx s.metaData s'.metaData)
    (hown : RecordInv idx s')
    (hrecord : ∀ j, j ≠ idx → s'.recordKey j = s.recordKey j) :
    ∀ j, RecordInv j s' := by
  intro j
  by_cases hj : j = idx
  · rw [hj]
    exact hown
  · exact (h j).of_sameElsewhere hsame hj (hrecord j hj)

theorem IndexInv.notMem_of_clear (h : IndexInv idx s.metaData)
    (hclear : testBit (s.metaData.segments idx).bitmap.array slot = false)
    (k : ℕ) : (k, slot) ∉ (s.metaData.hash idx).entries := by
  intro hmem
  rw [h.bit slot (MixHash.mem_values_of_mem hmem)] at hclear
  cases hclear

/-! ## Clearing blocks -/

theorem Cleared.recordInv {key v : ℕ} (hcleared : Cleared idx key v s s')
    (h : ∀ j, RecordInv j s) : ∀ j, RecordInv j s' := by
  have hown := h idx
  have hindex := hown.index
  have hvalue : v ∈ (s.metaData.hash idx).values :=
    (hcleared.entries.map Prod.snd).mem_iff.mpr List.mem_cons_self
  have hdev : s'.dev.bufferMeta = Function.update s.dev.bufferMeta
      (s.metaData.bufferBlock idx v)
      { s.dev.bufferMeta (s.metaData.bufferBlock idx v) with status := 0 } := by
    rw [hcleared.dev]
    rfl
  obtain ⟨hrecord, hother⟩ := Store.recordKey_update _ hindex.per_lt
    (hindex.value_lt v hvalue) hcleared.perBlockNum hdev
  refine RecordInv.forall_update h hcleared.toSameElsewhere
    ⟨hcleared.indexInv hindex, ?_⟩ hother
  rw [hrecord]
  exact hown.graph.erase hindex.values_nodup hcleared.entries

theorem mixClearBlock_recordInv (h : ∀ j, RecordInv j s) (task : IoTask β)
    (idx : Fin 4) : ∀ j, RecordInv j (mixClearBlock s task idx) :=
  clearFrom_induction (P := fun s => ∀ j, RecordInv j s)
    (fun _ h => (h idx).index) (fun _ _ _ _ h hcleared => hcleared.recordInv h)
    _ h

/-! ## Writing blocks -/

/-- A write to the slot of a block that is mapped. -/
theorem RecordInv.rewrite (h : ∀ j, RecordInv j s)
    (hmem : (lba, slot) ∈ (s.metaData.hash idx).entries) (x : β)
    (flags : ℕ) : ∀ j, RecordInv j ⟨s.metaData, mixBufferWrite s.dev x lba
      (s.metaData.bufferBlock idx slot) flags⟩ := by
  have hindex := (h idx).index
  have hslot := hindex.value_lt slot (MixHash.mem_values_of_mem hmem)
  have hupdate := @Store.recordKey_update σ β idx s
    ⟨s.metaData, mixBufferWrite s.dev x lba
      (s.metaData.bufferBlock idx slot) flags⟩ slot ⟨1, 0, lba, flags⟩
    hindex.per_lt hslot rfl rfl
  obtain ⟨hrecord, hother⟩ := hupdate
  refine RecordInv.forall_update h (MixMetadata.SameElsewhere.refl idx _)
    ⟨hindex, ?_⟩ hother
  rw [hrecord]
  exact (h idx).graph.rewrite hmem

/-- A write to a slot that is taken and entered. -/
theorem Claimed.recordInv {m : MixMetadata}
    (hclaimed : Claimed idx lba slot s.metaData m) (h : ∀ j, RecordInv j s)
    (hkey : lba ∉ (s.metaData.hash idx).keys)
    (hslot : slot < s.metaData.perBlockNum)
    (hclear : testBit (s.metaData.segments idx).bitmap.array slot = false)
    (x : β) (flags : ℕ) : ∀ j, RecordInv j
      ⟨m, mixBufferWrite s.dev x lba (m.bufferBlock idx slot) flags⟩ := by
  have hindex := (h idx).index
  have hblock : m.bufferBlock idx slot = s.metaData.bufferBlock idx slot :=
    MixMetadata.bufferBlock_congr hclaimed.perBlockNum idx slot
  rw [hblock]
  have hupdate := @Store.recordKey_update σ β idx s
    ⟨m, mixBufferWrite s.dev x lba (s.metaData.bufferBlock idx slot) flags⟩
    slot ⟨1, 0, lba, flags⟩ hindex.per_lt hslot hclaimed.perBlockNum rfl
  obtain ⟨hrecord, hother⟩ := hupdate
  refine RecordInv.forall_update h hclaimed.toSameElsewhere
    ⟨hclaimed.indexInv hindex hkey hslot hclear, ?_⟩ hother
  rw [hrecord]
  exact (h idx).graph.put (hindex.notMem_of_clear hclear) hclaimed.entries

variable {task : IoTask β} {choice : SlotChoice σ β}

theorem takeSlot_recordInv {migrated : Bool} (h : ∀ j, RecordInv j s)
    (hlba : task.offset < 2 ^ 32) (hroom : ¬ IsFull idx s.metaData)
    (hkey : lbaKey task.offset ∉ (s.metaData.hash idx).keys)
    (henters : EntersSlot idx s.metaData)
    (htake : takeSlot s task idx migrated = some choice) :
    ∀ j, RecordInv j (choice.write task idx) := by
  have hlba' : lbaKey task.offset = task.offset := Nat.mod_eq_of_lt hlba
  obtain ⟨slot, hclear, hslot, -, hdev, hcases⟩ :=
    takeSlot_spec (h idx).index.toSegmentShape hroom htake
  rcases hcases with ⟨-, hclaimed⟩ | ⟨hguard, -⟩
  · rw [hlba'] at hclaimed hkey
    have hwritten := hclaimed.recordInv h hkey hclear.lt hclear.1
      (task.buf 0) task.opcode
    rw [SlotChoice.write, hslot, hdev]
    exact hwritten
  · exact absurd (henters slot hclear) hguard

/-! ## Migrating -/

variable [BlockDevice σ β]

/-- The blocks whose records a migration clears. -/
theorem Migrated.mem_values_iff {es : List MixKv}
    (hmigrated : Migrated idx es s s') (hindex : IndexInv idx s.metaData)
    (hfree : uint32Max ∉ (s.metaData.hash idx).keys)
    (hplace : idx = 0 ∨ (s.metaData.hash idx).entries = [])
    (j : Fin 4) {v : ℕ} (hv : v < s.metaData.perBlockNum) :
    s.metaData.bufferBlock j v ∈ es.map Prod.snd ↔
      j = idx ∧ v ∈ (s.metaData.hash idx).values := by
  obtain ⟨hperm, -, -⟩ :=
    hmigrated.of_sentinelFree (hindex.sentinelFree_iff.mpr hfree)
  have hmem : s.metaData.bufferBlock j v ∈ es.map Prod.snd ↔
      s.metaData.bufferBlock j v ∈ (s.metaData.hash idx).values :=
    (hperm.map Prod.snd).mem_iff
  rw [hmem]
  rcases hplace with rfl | hnil
  · have hper := hindex.per_lt
    constructor
    · intro hvalue
      have hlt := hindex.value_lt _ hvalue
      have hzero : s.metaData.bufferBlock 0
          (s.metaData.bufferBlock j v : ℕ) = s.metaData.bufferBlock j v :=
        bufferBlock_zero (by omega)
      obtain ⟨hj, hslot⟩ := MixMetadata.bufferBlock_inj hper hlt hv hzero
      rw [hslot] at hvalue
      exact ⟨hj.symm, hvalue⟩
    · rintro ⟨rfl, hvalue⟩
      rwa [bufferBlock_zero (by omega)]
  · simp [MixHash.values, hnil]

theorem mixMigrateSegment_recordInv (h : ∀ j, RecordInv j s)
    (hfree : uint32Max ∉ (s.metaData.hash idx).keys)
    (hplace : idx = 0 ∨ (s.metaData.hash idx).entries = []) :
    ∀ j, RecordInv j (mixMigrateSegment s idx) := by
  have hindex := (h idx).index
  obtain ⟨hindex', hnil⟩ := mixMigrateSegment_indexInv hindex hfree
  obtain ⟨es, hmigrated⟩ :=
    mixMigrateSegment_migrated hindex.threads_pos hindex.wf
  have hrecord : ∀ j v, (mixMigrateSegment s idx).recordKey j v =
      if j = idx ∧ v ∈ (s.metaData.hash idx).values then none
      else s.recordKey j v := by
    intro j v
    by_cases hv : v < s.metaData.perBlockNum
    · have hiff := hmigrated.mem_values_iff hindex hfree hplace j hv
      rw [Store.recordKey, Store.recordKey, hmigrated.perBlockNum,
        MixMetadata.bufferBlock_congr hmigrated.perBlockNum, hmigrated.dev,
        moveOut_bufferMeta]
      by_cases hmoved : j = idx ∧ v ∈ (s.metaData.hash idx).values
      · rw [if_pos (hiff.mpr hmoved), if_pos hmoved]
        simp
      · rw [if_neg (fun hmem => hmoved (hiff.mp hmem)), if_neg hmoved]
    · rw [Store.recordKey, Store.recordKey, hmigrated.perBlockNum]
      simp only [hv, false_and, if_false, ite_self]
  refine RecordInv.forall_update h hmigrated.toSameElsewhere ⟨hindex', ?_⟩ ?_
  · rw [hnil]
    refine IsGraph.nil fun v => ?_
    rw [hrecord]
    by_cases hv : v ∈ (s.metaData.hash idx).values
    · rw [if_pos ⟨rfl, hv⟩]
    · rw [if_neg (fun hmoved => hv hmoved.2),
        Option.eq_none_iff_forall_ne_some]
      intro k hk
      exact hv (MixHash.mem_values_of_mem (((h idx).graph k v).mpr hk))
  · intro j hj
    funext v
    rw [hrecord, if_neg (fun hmoved => hj hmoved.1)]

/-! ## Clearing the records -/

omit [BlockDevice σ β] in
theorem foldl_mixBufferClear_status (ps : List ℕ) (dev : Devices σ β)
    (p : ℕ) : ((ps.foldl mixBufferClear dev).bufferMeta p).status =
      if p ∈ ps then 0 else (dev.bufferMeta p).status := by
  induction ps generalizing dev with
  | nil => simp
  | cons q ps ih =>
      rw [List.foldl_cons, ih, mixBufferClear_status]
      by_cases hmem : p ∈ ps
      · simp [hmem]
      · simp [hmem]

omit [BlockDevice σ β] in
theorem mixSegmentClear_status (s : Store σ β) (idx : Fin 4) (p : ℕ) :
    ((mixSegmentClear s idx).dev.bufferMeta p).status =
      if ∃ v < s.metaData.perBlockNum, s.metaData.bufferBlock idx (v : ℕ) = p
      then 0 else (s.dev.bufferMeta p).status := by
  rw [mixSegmentClear, ← List.foldl_map]
  refine (foldl_mixBufferClear_status _ _ _).trans ?_
  simp only [List.mem_map, List.mem_range]

omit [BlockDevice σ β] in
theorem foldl_mixSegmentClear (idxs : List (Fin 4)) (s : Store σ β) :
    (idxs.foldl mixSegmentClear s).metaData = s.metaData ∧
      ∀ p, ((idxs.foldl mixSegmentClear s).dev.bufferMeta p).status =
        if ∃ j ∈ idxs, ∃ v < s.metaData.perBlockNum,
            s.metaData.bufferBlock j (v : ℕ) = p
        then 0 else (s.dev.bufferMeta p).status := by
  induction idxs generalizing s with
  | nil => simp
  | cons idx idxs ih =>
      obtain ⟨hmeta, hstatus⟩ := ih (mixSegmentClear s idx)
      refine ⟨hmeta, fun p => ?_⟩
      rw [List.foldl_cons, hstatus, mixSegmentClear_status]
      change (if ∃ j ∈ idxs, ∃ v < s.metaData.perBlockNum,
        s.metaData.bufferBlock j (v : ℕ) = p then 0 else _) = _
      by_cases htail : ∃ j ∈ idxs, ∃ v < s.metaData.perBlockNum,
          s.metaData.bufferBlock j (v : ℕ) = p
      · obtain ⟨j, hj, hv⟩ := htail
        rw [if_pos ⟨j, hj, hv⟩, if_pos ⟨j, List.mem_cons_of_mem _ hj, hv⟩]
      · rw [if_neg htail]
        simp only [List.exists_mem_cons_iff, htail, or_false]

omit [BlockDevice σ β] in
theorem mixRebuild_metaData : (mixRebuild s).metaData = s.metaData :=
  (foldl_mixSegmentClear _ s).1

omit [BlockDevice σ β] in
/-- `mix_rebuild` leaves no valid record. -/
theorem mixRebuild_recordKey (idx : Fin 4) (slot : ℕ) :
    (mixRebuild s).recordKey idx slot = none := by
  obtain ⟨hmeta, hstatus⟩ := foldl_mixSegmentClear (List.finRange 4) s
  by_cases hslot : slot < s.metaData.perBlockNum
  · have hclear : ((mixRebuild s).dev.bufferMeta
        (s.metaData.bufferBlock idx slot)).status = 0 := by
      rw [mixRebuild, hstatus,
        if_pos ⟨idx, List.mem_finRange idx, slot, hslot, rfl⟩]
    rw [Store.recordKey, mixRebuild_metaData, hclear]
    simp
  · rw [Store.recordKey, mixRebuild_metaData]
    simp only [hslot, false_and, if_false]

omit [BlockDevice σ β] in
theorem mixRebuild_recordInv (h : ∀ j, RecordInv j s)
    (hempty : ∀ j, (s.metaData.hash j).entries = []) :
    ∀ j, RecordInv j (mixRebuild s) := by
  intro j
  constructor
  · rw [mixRebuild_metaData]
    exact (h j).index
  · rw [mixRebuild_metaData, hempty]
    exact IsGraph.nil (mixRebuild_recordKey j)

/-! ## Runs of all segments -/

/-- Operations on the store: those of each segment, and
`mix_segments_clear`. -/
inductive StoreOp (β : Type*)
  | segment (idx : Fin 4) (op : SegmentOp β)
  | segmentsClear

/-- One operation on the store. -/
def storeStep (s : Store σ β) : StoreOp β → Option (Store σ β)
  | .segment idx op => segmentStep idx s op
  | .segmentsClear => some (mixRebuild s)

/-- The block that a write redirects fits the 32 bits of an index key. -/
def SegmentOp.WritesBelow : SegmentOp β → Prop
  | .write task => task.offset < 2 ^ 32
  | .clear _ => True
  | .migrate => True

/-- The condition under which one operation changes the index and the records
alike. -/
def KeepsAgreement (s : Store σ β) : StoreOp β → Prop
  | .segment idx op =>
      KeepsAccounts idx s op ∧ op.WritesBelow ∧
        (Migrates idx s op →
          idx = 0 ∨ (s.metaData.hash idx).entries = [])
  | .segmentsClear => ∀ idx, (s.metaData.hash idx).entries = []

instance : DecidablePred (SegmentOp.WritesBelow : SegmentOp β → Prop)
  | .write _ => inferInstanceAs (Decidable (_ < _))
  | .clear _ => inferInstanceAs (Decidable True)
  | .migrate => inferInstanceAs (Decidable True)

instance : DecidablePred (KeepsAgreement s : StoreOp β → Prop)
  | .segment _ _ => inferInstanceAs (Decidable (_ ∧ _ ∧ (_ → _ ∨ _)))
  | .segmentsClear => inferInstanceAs (Decidable (∀ _, _))

theorem redirectSlot_recordInv (h : ∀ j, RecordInv j s)
    (hkeeps : KeepsAgreement s (.segment idx (.write task)))
    (hslot : redirectSlot s task idx = some choice) :
    ∀ j, RecordInv j (choice.write task idx) := by
  obtain ⟨haccounts, hlba, hplace⟩ := hkeeps
  have hlba' : lbaKey task.offset = task.offset := Nat.mod_eq_of_lt hlba
  rcases (h idx).index.redirectSlot_cases hslot with
    ⟨v, hmem, rfl⟩ | ⟨hkey, ⟨hroom, htake⟩ | ⟨hfull, htake⟩⟩
  · rw [hlba'] at hmem
    exact RecordInv.rewrite h hmem (task.buf 0) task.opcode
  · exact takeSlot_recordInv h hlba hroom hkey
      (haccounts.enters ⟨hkey, hroom⟩) htake
  · have hfree := haccounts.clean ⟨hkey, hfull⟩
    obtain ⟨hexact, hnil, henters⟩ :=
      mixMigrateSegment_exactInv (h idx).index hfree
    have hmigrated :=
      mixMigrateSegment_recordInv h hfree (hplace ⟨hkey, hfull⟩)
    refine takeSlot_recordInv hmigrated hlba
      (hexact.not_isFull_of_nil hnil) ?_ henters htake
    simp [MixHash.keys, hnil]

theorem storeStep_recordInv {op : StoreOp β} (h : ∀ j, RecordInv j s)
    (hkeeps : KeepsAgreement s op) (hstep : storeStep s op = some s') :
    ∀ j, RecordInv j s' := by
  rcases op with ⟨idx, task | task | _⟩ | _
  · obtain ⟨choice, hslot, rfl⟩ := segmentStep_write hstep
    exact redirectSlot_recordInv h hkeeps hslot
  · obtain rfl := Option.some.inj hstep
    exact mixClearBlock_recordInv h task idx
  · obtain rfl := Option.some.inj hstep
    exact mixMigrateSegment_recordInv h (hkeeps.1.clean trivial)
      (hkeeps.2.2 trivial)
  · obtain rfl := Option.some.inj hstep
    exact mixRebuild_recordInv h hkeeps

omit [BlockDevice σ β] in
theorem freshStore_recordInv {blockNum : ℕ} (hsize : ValidSize blockNum)
    (migration : Fin 4 → Bool) (dev : Devices σ β)
    (hdev : ∀ p, (dev.bufferMeta p).status = 0) (idx : Fin 4) :
    RecordInv idx (freshStore blockNum migration dev) := by
  constructor
  · exact mixMetadataInit_indexInv migration idx hsize
  · refine (mixMetadataInit_entries migration idx).symm ▸
      IsGraph.nil fun v => ?_
    simp [Store.recordKey, freshStore, hdev]

/-- The index and the persisted records of every segment agree after every
operation of a run whose operations all meet the condition. -/
theorem agrees_allStates {blockNum : ℕ} (hsize : ValidSize blockNum)
    (migration : Fin 4 → Bool) (dev : Devices σ β)
    (hdev : ∀ p, (dev.bufferMeta p).status = 0) (ops : List (StoreOp β))
    (hkeeps : AllSteps storeStep KeepsAgreement
      (freshStore blockNum migration dev) ops) :
    AllStates storeStep (fun s => ∀ idx, Agrees idx s)
      (freshStore blockNum migration dev) ops := by
  have hall := allStates_of_allSteps
    (I := fun s : Store σ β => ∀ idx, RecordInv idx s)
    (fun _ _ _ hinv hP hstep => storeStep_recordInv hinv hP hstep)
    (freshStore_recordInv hsize migration dev hdev) hkeeps
  exact hall.mono fun _ hinv idx => (hinv idx).agrees

theorem agrees_allStates_example :
    AllStates storeStep (fun s => ∀ idx, Agrees idx s)
      (freshStore 32 (fun _ => false) zeroDevices)
      [.segment 1 (.write (smallWrite 16 1)),
        .segment 0 (.write (smallWrite 4 2)), .segment 0 .migrate,
        .segment 1 (.write (smallWrite 16 3)),
        .segment 1 (.clear (smallWrite 16 0)), .segmentsClear] :=
  agrees_allStates (by decide) _ _ (fun _ => rfl) _ (by decide +kernel)

/-- Clearing the records leaves the index as it is. -/
theorem agrees_fails :
    ¬ AllStates storeStep (fun s => ∀ idx, Agrees idx s)
      (freshStore 32 (fun _ => false) zeroDevices)
      [.segment 0 (.write (smallWrite 4 2)), .segmentsClear] := by
  intro hall
  have hrecord := hall.mono fun _ h => (h 0 4 0)
  exact absurd hrecord (by decide +kernel)

end Uhs
