import Uhs.Segment.Prefix

/-!
# A segment refines a write-back map

A segment that is only written to is run side by side with the bounded
write-back map of its capacity.  The keys held by the map are the mapped
blocks, and the block that a slot stands for holds their data.
-/

namespace Uhs

open Support

variable {σ β : Type*}

/-- The segment represents the write-back map `w`. -/
structure Refines (idx : Fin 4) (cap : ℕ) (s : Store σ β)
    (w : WriteBack ℕ β) : Prop where
  index : PrefixInv idx s.metaData
  cap_eq : s.metaData.perBlockNum = cap
  dirty : ∀ k, k ∈ w.dirty ↔ k ∈ (s.metaData.hash idx).keys
  data : ∀ kv ∈ (s.metaData.hash idx).entries,
    s.dev.buffer (s.metaData.bufferBlock idx kv.2) = w.data kv.1

/-- `mix_buffer_block_test` maps the keys of `w` and no others, each to a slot
whose buffer block holds the data of the key. -/
def MapsExactly (idx : Fin 4) (s : Store σ β) (w : WriteBack ℕ β) : Prop :=
  ∀ lba < 2 ^ 32,
    (lba ∉ w.dirty → mixBufferBlockTest s.metaData lba idx = -1) ∧
      (lba ∈ w.dirty → ∃ slot < s.metaData.perBlockNum,
        mixBufferBlockTest s.metaData lba idx = (slot : ℕ) ∧
          s.dev.buffer (idx.val * s.metaData.perBlockNum + slot) =
            w.data lba)

variable {idx : Fin 4} {cap : ℕ} {s : Store σ β} {w : WriteBack ℕ β}

theorem Refines.card_dirty (h : Refines idx cap s w) :
    w.dirty.card = (s.metaData.hash idx).entries.length := by
  have heq : w.dirty = (s.metaData.hash idx).keys.toFinset := by
    ext k
    rw [h.dirty, List.mem_toFinset]
  rw [heq, List.toFinset_card_of_nodup h.index.keys_nodup, MixHash.keys,
    List.length_map]

theorem Refines.flushes_iff (h : Refines idx cap s w) {k : ℕ} :
    w.Flushes cap k ↔
      k ∉ (s.metaData.hash idx).keys ∧ IsFull idx s.metaData := by
  rw [WriteBack.Flushes, h.dirty, h.card_dirty, h.index.isFull_iff, h.cap_eq]

theorem Refines.mapsExactly (h : Refines idx cap s w) :
    MapsExactly idx s w := by
  intro lba hlba
  have hkey : lbaKey lba = lba := Nat.mod_eq_of_lt hlba
  refine ⟨fun hnot => ?_, fun hmem => ?_⟩
  · rw [h.dirty, ← hkey] at hnot
    exact h.index.blockTest_of_notMem hnot
  · rw [h.dirty, MixHash.mem_keys] at hmem
    obtain ⟨v, hv⟩ := hmem
    have hlt := h.index.value_lt v (MixHash.mem_values_of_mem hv)
    have hv' : (lbaKey lba, v) ∈ (s.metaData.hash idx).entries := by
      rw [hkey]
      exact hv
    refine ⟨v, hlt, h.index.blockTest_of_mem hv', ?_⟩
    rw [← MixMetadata.bufferBlock_natCast h.index.per_lt hlt]
    exact h.data _ hv

/-! ## One write -/

variable {task : IoTask β} {choice : SlotChoice σ β}

/-- Writing a block to the slot it is mapped to. -/
theorem Refines.write_hit (h : Refines idx cap s w) {v : ℕ}
    (hv : (task.offset, v) ∈ (s.metaData.hash idx).entries) :
    Refines idx cap ((⟨false, v, s⟩ : SlotChoice σ β).write task idx)
      (w.write cap task.offset (task.buf 0)) where
  index := h.index
  cap_eq := h.cap_eq
  dirty := by
    have hmem := (h.dirty task.offset).mpr (MixHash.mem_keys_of_mem hv)
    rw [WriteBack.write_dirty_of_mem hmem]
    exact h.dirty
  data := by
    rintro ⟨k, u⟩ hu
    have hult := h.index.value_lt u (MixHash.mem_values_of_mem hu)
    have hvlt := h.index.value_lt v (MixHash.mem_values_of_mem hv)
    simp only [SlotChoice.write, mixBufferWrite_buffer]
    by_cases hk : k = task.offset
    · have hpair := List.inj_on_of_nodup_map h.index.keys_nodup hu hv hk
      simp only [Prod.mk.injEq] at hpair
      rw [hk, WriteBack.write_data_self, hpair.2, Function.update_self]
    · have huv : u ≠ v := by
        intro huv
        have hpair := List.inj_on_of_nodup_map h.index.values_nodup hu hv huv
        simp only [Prod.mk.injEq] at hpair
        exact hk hpair.1
      rw [WriteBack.write_data_of_ne hk, Function.update_of_ne]
      · exact h.data _ hu
      · exact fun heq => huv (MixMetadata.bufferBlock_inj h.index.per_lt
          hult hvlt heq).2

/-- Writing a block to a slot that was just entered for it. -/
theorem Claimed.refines_write {slot : ℕ} (dirty : Finset ℕ)
    (h : Claimed idx task.offset slot s.metaData choice.store.metaData)
    (hinv : PrefixInv idx s.metaData)
    (hinv' : PrefixInv idx choice.store.metaData)
    (hslot : choice.slot = slot)
    (hdev : choice.store.dev = s.dev)
    (hcap : s.metaData.perBlockNum = cap)
    (hdirty : (w.write cap task.offset (task.buf 0)).dirty =
      insert task.offset dirty)
    (hkeys : ∀ k, k ∈ dirty ↔ k ∈ (s.metaData.hash idx).keys)
    (hdata : ∀ kv ∈ (s.metaData.hash idx).entries,
      s.dev.buffer (s.metaData.bufferBlock idx kv.2) = w.data kv.1) :
    Refines idx cap (choice.write task idx)
      (w.write cap task.offset (task.buf 0)) where
  index := hinv'
  cap_eq := h.perBlockNum.trans hcap
  dirty := by
    intro k
    have hkeys' := (h.entries.map Prod.fst).mem_iff (a := k)
    rw [hdirty, Finset.mem_insert, hkeys]
    exact (hkeys'.trans List.mem_cons).symm
  data := by
    have hnodup := (h.entries.map Prod.fst).nodup_iff.mp hinv'.keys_nodup
    have hvalues := (h.entries.map Prod.snd).nodup_iff.mp hinv'.values_nodup
    rw [List.map_cons, List.nodup_cons] at hnodup hvalues
    have hlt : slot < s.metaData.perBlockNum := by
      have hmem := (h.entries.map Prod.snd).mem_iff.mpr List.mem_cons_self
      exact h.perBlockNum ▸ hinv'.value_lt slot hmem
    intro kv hkv
    simp only [SlotChoice.write, mixBufferWrite_buffer, hslot, hdev,
      MixMetadata.bufferBlock_congr h.perBlockNum]
    rcases List.mem_cons.mp (h.entries.mem_iff.mp hkv) with rfl | hkv
    · rw [WriteBack.write_data_self, Function.update_self]
    · have hk : kv.1 ≠ task.offset := by
        intro hk
        have hmem := MixHash.mem_keys_of_mem hkv
        rw [hk] at hmem
        exact hnodup.1 hmem
      have hv : kv.2 ≠ slot := by
        intro hv
        have hmem := MixHash.mem_values_of_mem hkv
        rw [hv] at hmem
        exact hvalues.1 hmem
      have hvlt := hinv.value_lt _ (MixHash.mem_values_of_mem hkv)
      rw [WriteBack.write_data_of_ne hk, Function.update_of_ne]
      · exact hdata kv hkv
      · exact fun heq => hv (MixMetadata.bufferBlock_inj hinv.per_lt hvlt
          hlt heq).2

variable [BlockDevice σ β]

/-- What one write does, seen against the write-back map: it returns, uses a
proper slot, migrates exactly when the map writes its keys back, and leaves
exactly the keys of the map mapped, with their data. -/
def WritesBack (idx : Fin 4) (cap : ℕ) (sw : Store σ β × WriteBack ℕ β)
    (task : IoTask β) : Prop :=
  ∃ choice, redirectSlot sw.1 task idx = some choice ∧ choice.slot ≠ -1 ∧
    (choice.migrated = true ↔ sw.2.Flushes cap task.offset) ∧
    MapsExactly idx (choice.write task idx)
      (sw.2.write cap task.offset (task.buf 0))

/-- The map does not write the key `2 ^ 32 - 1` back. -/
def FlushesCleanly (cap : ℕ) (w : WriteBack ℕ β) (task : IoTask β) : Prop :=
  w.Flushes cap task.offset → uint32Max ∉ w.dirty

instance (cap : ℕ) (w : WriteBack ℕ β) :
    DecidablePred (FlushesCleanly cap w) := fun _ =>
  inferInstanceAs (Decidable (_ → _))

/-- The segment and the map take a write together. -/
def writeStep (idx : Fin 4) (cap : ℕ) (sw : Store σ β × WriteBack ℕ β)
    (task : IoTask β) : Option (Store σ β × WriteBack ℕ β) :=
  (redirectWrite sw.1 task idx).map fun r =>
    (r.2, sw.2.write cap task.offset (task.buf 0))

/-- One write keeps the representation. -/
theorem Refines.redirectSlot (h : Refines idx cap s w)
    (hlba : task.offset < 2 ^ 32) (hclean : FlushesCleanly cap w task) :
    ∃ choice, redirectSlot s task idx = some choice ∧ choice.slot ≠ -1 ∧
      (choice.migrated = true ↔ w.Flushes cap task.offset) ∧
      Refines idx cap (choice.write task idx)
        (w.write cap task.offset (task.buf 0)) := by
  have hkeyEq : lbaKey task.offset = task.offset := Nat.mod_eq_of_lt hlba
  by_cases hkey : task.offset ∈ (s.metaData.hash idx).keys
  · obtain ⟨v, hv⟩ := MixHash.mem_keys.mp hkey
    have hit := h.index.blockTest_of_mem (by rw [hkeyEq]; exact hv)
    refine ⟨_, redirectSlot_of_hit hit (by omega), ?_, ?_,
      h.write_hit hv⟩
    · simp only
      omega
    · rw [h.flushes_iff]
      simp [hkey]
  · have hkey' : lbaKey task.offset ∉ (s.metaData.hash idx).keys := by
      rw [hkeyEq]
      exact hkey
    have hmiss := h.index.blockTest_of_notMem hkey'
    by_cases hfull : IsFull idx s.metaData
    · have hflush : w.Flushes cap task.offset :=
        h.flushes_iff.mpr ⟨hkey, hfull⟩
      have hfree : uint32Max ∉ (s.metaData.hash idx).keys :=
        (h.dirty _).not.mp (hclean hflush)
      obtain ⟨hinv', hnil⟩ := mixMigrateSegment_prefixInv h.index hfree
      obtain ⟨es, hmigrated⟩ :=
        mixMigrateSegment_migrated h.index.threads_pos h.index.wf
      obtain ⟨choice, slot, htake, hslot, hmig, hdev, -, -, hclaimed,
          hchoice⟩ :=
        hinv'.takeSlot_spec (hinv'.not_isFull_of_nil hnil)
          (by simp [MixHash.keys, hnil]) true
      rw [hkeyEq] at hclaimed
      refine ⟨choice, (redirectSlot_of_full hmiss hfull).trans htake, ?_, ?_,
        ?_⟩
      · rw [hslot]
        omega
      · simp [hmig, hflush]
      · refine hclaimed.refines_write ∅ hinv' hchoice hslot hdev
          (hmigrated.perBlockNum.trans h.cap_eq) ?_ ?_ ?_
        · rw [WriteBack.write_dirty_of_flushes hflush]
          rfl
        · simp [MixHash.keys, hnil]
        · simp [hnil]
    · have hflush : ¬ w.Flushes cap task.offset :=
        fun hflush => hfull (h.flushes_iff.mp hflush).2
      obtain ⟨choice, slot, htake, hslot, hmig, hdev, -, -, hclaimed,
          hchoice⟩ := h.index.takeSlot_spec hfull hkey' false
      rw [hkeyEq] at hclaimed
      refine ⟨choice, (redirectSlot_of_room h.index.toSegmentShape hmiss
        hfull).trans htake, ?_, ?_, ?_⟩
      · rw [hslot]
        omega
      · simp [hmig, hflush]
      · exact hclaimed.refines_write _ h.index hchoice hslot hdev h.cap_eq
          (WriteBack.write_dirty_of_not hflush) h.dirty h.data

omit [BlockDevice σ β] in
/-- A freshly initialised segment represents the empty map. -/
theorem refines_freshStore {blockNum : ℕ} (hsize : ValidSize blockNum)
    (migration : Fin 4 → Bool) (dev : Devices σ β) (idx : Fin 4)
    (data : ℕ → β) :
    Refines idx (blockNum / segmentNum) (freshStore blockNum migration dev)
      (WriteBack.clean data) where
  index := mixMetadataInit_prefixInv hsize migration idx
  cap_eq := rfl
  dirty := by
    intro k
    simp [WriteBack.clean, freshStore, MixHash.keys, mixMetadataInit_entries]
  data := by simp [freshStore, mixMetadataInit_entries]

theorem Refines.writeStep {sw sw' : Store σ β × WriteBack ℕ β}
    (h : Refines idx cap sw.1 sw.2) (hlba : task.offset < 2 ^ 32)
    (hclean : FlushesCleanly cap sw.2 task)
    (hstep : writeStep idx cap sw task = some sw') :
    Refines idx cap sw'.1 sw'.2 := by
  obtain ⟨choice, hslot, -, -, hrefines⟩ := h.redirectSlot hlba hclean
  simp only [Uhs.writeStep, redirectWrite, hslot, Option.map_some,
    Option.some.injEq] at hstep
  subst hstep
  exact hrefines

/-- Every write of a run behaves as on the write-back map, as long as the map
never writes the key `2 ^ 32 - 1` back. -/
theorem writesBack_allSteps {blockNum : ℕ} (hsize : ValidSize blockNum)
    (migration : Fin 4 → Bool) (dev : Devices σ β) (idx : Fin 4)
    (data : ℕ → β) (tasks : List (IoTask β))
    (hlba : ∀ task ∈ tasks, task.offset < 2 ^ 32)
    (hclean : AllSteps (writeStep idx (blockNum / segmentNum))
      (fun sw => FlushesCleanly (blockNum / segmentNum) sw.2)
      (freshStore blockNum migration dev, WriteBack.clean data) tasks) :
    AllSteps (writeStep idx (blockNum / segmentNum))
      (WritesBack idx (blockNum / segmentNum))
      (freshStore blockNum migration dev, WriteBack.clean data) tasks := by
  refine AllSteps.of_invariant
    (I := fun sw => Refines idx (blockNum / segmentNum) sw.1 sw.2)
    (fun sw task sw' hinv hP hstep => hinv.writeStep hP.1 hP.2 hstep) ?_
    (refines_freshStore hsize migration dev idx data)
    (hclean.and_of_forall_mem hlba)
  intro sw task hinv hP
  obtain ⟨choice, hslot, hne, hmigrated, hrefines⟩ :=
    hinv.redirectSlot hP.1 hP.2
  exact ⟨choice, hslot, hne, hmigrated, hrefines.mapsExactly⟩

/-- Nine blocks are written to a segment of eight slots. -/
theorem writesBack_allSteps_example :
    AllSteps (writeStep 2 8) (WritesBack 2 8)
      (freshStore 32 (fun _ => false) zeroDevices,
        WriteBack.clean fun _ => 0)
      ((List.range 9).map fun lba => smallWrite lba lba) :=
  writesBack_allSteps (by decide : ValidSize 32) _ _ _ _ _ (by decide)
    (by decide +kernel)

/-- The ninth write flushes the blocks `16` and `2 ^ 32 - 1`, but the segment
drops the latter and keeps the former mapped to the slot it takes. -/
theorem writesBack_fails :
    ¬ AllSteps (writeStep 0 8) (WritesBack 0 8)
      (freshStore 32 (fun _ => false) zeroDevices,
        WriteBack.clean fun _ => 0)
      ([16, uint32Max, 0, 1, 2, 3, 4, 5, 6].map fun lba =>
        smallWrite lba lba) := by
  intro hall
  have hunmapped := hall.mono
    (R := fun sw task => ∀ sw', writeStep 0 8 sw task = some sw' →
      16 ∉ sw'.2.dirty → mixBufferBlockTest sw'.1.metaData 16 0 = -1) (by
    rintro sw task ⟨choice, hslot, -, -, hmaps⟩ sw' hstep
    simp only [writeStep, redirectWrite, hslot, Option.map_some,
      Option.some.injEq] at hstep
    subst hstep
    exact (hmaps 16 (by decide)).1)
  exact absurd hunmapped (by decide +kernel)

end Uhs
