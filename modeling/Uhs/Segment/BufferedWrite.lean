import Uhs.Segment.Accounting

/-!
# What a buffered write leaves in the index

A block that has been written is found in the index with its data, and no other
block loses its slot, as long as the slot that was taken has been entered.
-/

namespace Uhs

open Support

variable {σ β : Type*} {idx : Fin 4} {s s' : Store σ β} {m : MixMetadata}
  {task : IoTask β} {choice : SlotChoice σ β}

/-- The test finds exactly the mapped blocks, with their slots. -/
theorem IndexInv.blockTest_eq_iff (hinv : IndexInv idx m) {k v : ℕ} :
    mixBufferBlockTest m k idx = v ↔
      (lbaKey k, v) ∈ (m.hash idx).entries := by
  constructor
  · intro htest
    by_cases hkey : lbaKey k ∈ (m.hash idx).keys
    · obtain ⟨w, hw⟩ := MixHash.mem_keys.mp hkey
      have heq := (hinv.blockTest_of_mem hw).symm.trans htest
      rwa [Int.natCast_inj.mp heq] at hw
    · have hmiss := hinv.blockTest_of_notMem hkey
      omega
  · exact hinv.blockTest_of_mem

/-- The block of the write is found with its data.  Unless a migration has
been run, the other blocks are found with their slots and their data. -/
structure KeepsBlocks (idx : Fin 4) (s : Store σ β) (task : IoTask β)
    (choice : SlotChoice σ β) : Prop where
  stored : ∃ v : ℕ,
    mixBufferBlockTest (choice.write task idx).metaData task.offset idx = v ∧
      (choice.write task idx).dev.buffer
        ((choice.write task idx).metaData.bufferBlock idx v) = task.buf 0
  kept : choice.migrated = false → ∀ k v : ℕ, lbaKey k ≠ lbaKey task.offset →
    mixBufferBlockTest s.metaData k idx = v →
      mixBufferBlockTest (choice.write task idx).metaData k idx = v ∧
        (choice.write task idx).dev.buffer
            ((choice.write task idx).metaData.bufferBlock idx v) =
          s.dev.buffer (s.metaData.bufferBlock idx v)

/-- An index that has the block of the write at the slot of the choice, and
all that was mapped before, keeps the blocks. -/
theorem IndexInv.keepsBlocks {slot : ℕ}
    (hinv : IndexInv idx choice.store.metaData) (hslot : choice.slot = slot)
    (hmem : (lbaKey task.offset, slot) ∈
      (choice.store.metaData.hash idx).entries)
    (hkept : choice.migrated = false → IndexInv idx s.metaData ∧
      choice.store.dev = s.dev ∧
      choice.store.metaData.perBlockNum = s.metaData.perBlockNum ∧
      ∀ kv ∈ (s.metaData.hash idx).entries,
        kv ∈ (choice.store.metaData.hash idx).entries) :
    KeepsBlocks idx s task choice where
  stored := by
    refine ⟨slot, hinv.blockTest_of_mem hmem, ?_⟩
    change Function.update choice.store.dev.buffer
      (choice.store.metaData.bufferBlock idx choice.slot) (task.buf 0)
      (choice.store.metaData.bufferBlock idx slot) = _
    rw [hslot, Function.update_self]
  kept := by
    intro hmigrated k v hk htest
    obtain ⟨hbefore, hdev, hper, hsub⟩ := hkept hmigrated
    have hv := hsub _ (hbefore.blockTest_eq_iff.mp htest)
    refine ⟨hinv.blockTest_of_mem hv, ?_⟩
    -- another key has another slot, and so another buffer block
    have hne : choice.store.metaData.bufferBlock idx v ≠
        choice.store.metaData.bufferBlock idx slot := by
      intro heq
      have hvalue := hinv.value_lt _ (MixHash.mem_values_of_mem hv)
      have hvalue' := hinv.value_lt _ (MixHash.mem_values_of_mem hmem)
      have hvs := (MixMetadata.bufferBlock_inj hinv.per_lt hvalue hvalue'
        heq).2
      have hpair := List.inj_on_of_nodup_map hinv.values_nodup hv hmem hvs
      exact hk (congrArg Prod.fst hpair)
    change Function.update choice.store.dev.buffer
      (choice.store.metaData.bufferBlock idx choice.slot) (task.buf 0)
      (choice.store.metaData.bufferBlock idx v) = _
    rw [hslot, Function.update_of_ne hne, hdev,
      MixMetadata.bufferBlock_congr hper]

/-- A slot that is taken and entered. -/
theorem takeSlot_entered {migrated : Bool} (hinv : IndexInv idx s.metaData)
    (hroom : ¬ IsFull idx s.metaData)
    (hkey : lbaKey task.offset ∉ (s.metaData.hash idx).keys)
    (henters : EntersSlot idx s.metaData)
    (h : takeSlot s task idx migrated = some choice) :
    ∃ slot : ℕ, choice.slot = slot ∧ choice.migrated = migrated ∧
      choice.store.dev = s.dev ∧ IndexInv idx choice.store.metaData ∧
      Claimed idx (lbaKey task.offset) slot s.metaData
        choice.store.metaData := by
  obtain ⟨slot, hclear, hslot, hmigrated, hdev,
    ⟨-, hclaimed⟩ | ⟨hguard, -⟩⟩ := takeSlot_spec hinv.toSegmentShape hroom h
  · exact ⟨slot, hslot, hmigrated, hdev,
      hclaimed.indexInv hinv hkey hclear.lt hclear.1, hclaimed⟩
  · exact absurd (henters slot hclear) hguard

variable [BlockDevice σ β]

/-- Every write that returns keeps the blocks. -/
def KeepsWrite (idx : Fin 4) (s : Store σ β) (op : SegmentOp β) : Prop :=
  ∀ task, op = .write task →
    ∀ choice, redirectSlot s task idx = some choice →
      KeepsBlocks idx s task choice

/-- A write that takes a free slot enters it. -/
def Enters (idx : Fin 4) (s : Store σ β) (op : SegmentOp β) : Prop :=
  TakesSlot idx s op → EntersSlot idx s.metaData

instance : DecidablePred (Enters idx s) := fun _ =>
  inferInstanceAs (Decidable (_ → _))

theorem Enters.keepsWrite {op : SegmentOp β} (hinv : IndexInv idx s.metaData)
    (hclean : DrainsCleanly idx s op) (henters : Enters idx s op) :
    KeepsWrite idx s op := by
  rintro task rfl choice hslot
  rcases hinv.redirectSlot_cases hslot with ⟨v, hv, rfl⟩ | ⟨hkey, hcases⟩
  · exact hinv.keepsBlocks rfl hv fun _ => ⟨hinv, rfl, rfl, fun _ hkv => hkv⟩
  · rcases hcases with ⟨hroom, htake⟩ | ⟨hfull, htake⟩
    · obtain ⟨slot, hs, -, hdev, hinv', hclaimed⟩ :=
        takeSlot_entered hinv hroom hkey (henters ⟨hkey, hroom⟩) htake
      refine hinv'.keepsBlocks hs ?_ fun _ =>
        ⟨hinv, hdev, hclaimed.perBlockNum, fun kv hkv => ?_⟩
      · exact hclaimed.entries.mem_iff.mpr List.mem_cons_self
      · exact hclaimed.entries.mem_iff.mpr (List.mem_cons_of_mem _ hkv)
    · obtain ⟨hexact, hnil, henters'⟩ :=
        mixMigrateSegment_exactInv hinv (hclean ⟨hkey, hfull⟩)
      have hinv₁ := hexact.toIndexInv
      have hkey₁ : lbaKey task.offset ∉
          ((mixMigrateSegment s idx).metaData.hash idx).keys := by
        simp [MixHash.keys, hnil]
      obtain ⟨slot, hs, hmigrated, -, hinv', hclaimed⟩ := takeSlot_entered
        hinv₁ (hinv₁.not_isFull_of_nil hnil) hkey₁ henters' htake
      refine hinv'.keepsBlocks hs ?_ fun hnot => ?_
      · exact hclaimed.entries.mem_iff.mpr List.mem_cons_self
      · rw [hmigrated] at hnot
        cases hnot

/-- A write whose slot is not entered returns, and its block is not found. -/
theorem KeepsWrite.enters {op : SegmentOp β} (hinv : IndexInv idx s.metaData)
    (hkeeps : KeepsWrite idx s op) : Enters idx s op := by
  intro htakes
  cases op with
  | clear task | migrate => exact htakes.elim
  | write task =>
      obtain ⟨hkey, hroom⟩ := htakes
      by_contra hnot
      simp only [EntersSlot, not_forall] at hnot
      obtain ⟨slot, hclear, hguard⟩ := hnot
      have hstray : ∀ slot', (s.metaData.segments idx).bitmap.IsNextClear
          s.metaData.perBlockNum slot' → ¬ GuardSet idx s.metaData slot' := by
        intro slot' hclear'
        rw [hclear'.unique hclear]
        exact hguard
      obtain ⟨choice, htake⟩ := takeSlot_isSome hinv.toSegmentShape hroom
        ⟨slot, hclear.lt, hclear.1⟩ (Or.inr hstray) task false
      have hslot : redirectSlot s task idx = some choice := by
        rw [redirectSlot_of_room hinv.toSegmentShape
          (hinv.blockTest_of_notMem hkey) hroom]
        exact htake
      obtain ⟨v, htest, -⟩ := (hkeeps task rfl choice hslot).stored
      obtain ⟨slot', hclear', -, -, -, ⟨hguard', -⟩ | ⟨-, hstrayed⟩⟩ :=
        takeSlot_spec hinv.toSegmentShape hroom htake
      · exact hstray slot' hclear' hguard'
      · have hinv' : IndexInv idx (choice.write task idx).metaData :=
          hstrayed.indexInv hinv
        have hmem := MixHash.mem_keys_of_mem
          (hinv'.blockTest_eq_iff.mp htest)
        change lbaKey task.offset ∈
          (choice.store.metaData.hash idx).keys at hmem
        rw [hstrayed.hash] at hmem
        exact hkey hmem

/-- In every run whose migrations do not meet the block `2 ^ 32 - 1`, all
writes keep the blocks if and only if every slot that is taken is entered. -/
theorem keepsWrite_allSteps_iff {blockNum : ℕ} (hsize : ValidSize blockNum)
    (migration : Fin 4 → Bool) (dev : Devices σ β) (idx : Fin 4)
    {ops : List (SegmentOp β)}
    (hclean : AllSteps (segmentStep idx) (DrainsCleanly idx)
      (freshStore blockNum migration dev) ops) :
    AllSteps (segmentStep idx) (KeepsWrite idx)
        (freshStore blockNum migration dev) ops ↔
      AllSteps (segmentStep idx) (Enters idx)
        (freshStore blockNum migration dev) ops := by
  have hfresh : IndexInv idx (freshStore blockNum migration dev).metaData :=
    mixMetadataInit_indexInv migration idx hsize
  constructor
  · intro hkeeps
    exact (hclean.and hkeeps).of_invariant
      (I := fun s : Store σ β => IndexInv idx s.metaData)
      (fun _ _ _ hinv hP hstep => segmentStep_indexInv hinv hP.1 hstep)
      (fun _ _ hinv hP => hP.2.enters hinv) hfresh
  · intro henters
    exact (hclean.and henters).of_invariant
      (I := fun s : Store σ β => IndexInv idx s.metaData)
      (fun _ _ _ hinv hP hstep => segmentStep_indexInv hinv hP.1 hstep)
      (fun _ _ hinv hP => hP.2.keepsWrite hinv hP.1) hfresh

theorem keepsWrite_allSteps_iff_example :
    AllSteps (segmentStep 1) (KeepsWrite 1)
        (freshStore 32 (fun _ => false) zeroDevices)
        [.write (smallWrite 16 1), .write (smallWrite 93 2), .migrate,
          .write (smallWrite 16 3)] ↔
      AllSteps (segmentStep 1) (Enters 1)
        (freshStore 32 (fun _ => false) zeroDevices)
        [.write (smallWrite 16 1), .write (smallWrite 93 2), .migrate,
          .write (smallWrite 16 3)] :=
  keepsWrite_allSteps_iff (by decide) _ _ _ (by decide +kernel)

/-- The slots `0` to `4` are mapped, and the slots `0` and `1` cleared again. -/
def holedSteps : List (SegmentOp ℕ) :=
  (List.range 5).map (fun lba => .write (smallWrite lba 1)) ++
    [.clear (smallWrite 0 0), .clear (smallWrite 1 0)]

/-- The store that is reached. -/
def holedStore : Store (ℕ → ℕ) ℕ :=
  (runOps (segmentStep 0) (freshStore 32 (fun _ => false) zeroDevices)
    holedSteps).get (by decide +kernel)

/-- The write of block `5` takes slot `5`, finds bit `1` clear and does not
enter its block. -/
theorem keepsWrite_fails :
    AllSteps (segmentStep 0) (DrainsCleanly 0)
        (freshStore 32 (fun _ => false) zeroDevices)
        (holedSteps ++ [.write (smallWrite 5 1)]) ∧
      ¬ AllSteps (segmentStep 0) (KeepsWrite 0)
        (freshStore 32 (fun _ => false) zeroDevices)
        (holedSteps ++ [.write (smallWrite 5 1)]) := by
  refine ⟨by decide +kernel, fun hall => ?_⟩
  have hrun : runOps (segmentStep 0)
      (freshStore 32 (fun _ => false) zeroDevices) holedSteps =
        some holedStore := (Option.some_get _).symm
  have hkeeps := hall.of_runOps hrun _ rfl
    ((redirectSlot holedStore (smallWrite 5 1) 0).get (by decide +kernel))
    (Option.some_get _).symm
  obtain ⟨v, htest, -⟩ := hkeeps.stored
  have hmiss : mixBufferBlockTest (SlotChoice.write
      ((redirectSlot holedStore (smallWrite 5 1) 0).get (by decide +kernel))
      (smallWrite 5 1) 0).metaData 5 0 = -1 := by decide +kernel
  have hv := htest.symm.trans hmiss
  omega

end Uhs
