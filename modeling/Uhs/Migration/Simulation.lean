import Uhs.Migration.Redirect
import Uhs.Segment.Refinement
import Uhs.Support.Cells

/-!
# The machine as a cache of cells

The places are the blocks of the buffer and the keys are SSD blocks.  Every
step of a thread is a step towards an eviction, and the steps of a worker
claim, fill and record a place.
-/

namespace Uhs

open Support

variable {T : ℕ} {σ β : Type*} [BlockDevice σ β] {s s' : Machine T σ β}
  {idx : Fin 4}

/-- The live pairs of all segments, with the devices. -/
def Machine.cells (s : Machine T σ β) : Cells ℕ ℕ β where
  live k p := ∃ idx v, (k, v) ∈ s.live idx ∧
    p = s.store.metaData.bufferBlock idx (v : ℕ)
  buffer := s.store.dev.buffer
  record p :=
    if (s.store.dev.bufferMeta p).status % 2 = 1 then
      some (s.store.dev.bufferMeta p).offset
    else
      none
  disk := s.store.dev.ssdBlock

theorem MachineInv.cells_unique_key (h : MachineInv s) {j k p : ℕ}
    (hj : s.cells.live j p) (hk : s.cells.live k p) : j = k := by
  obtain ⟨i, u, hu, rfl⟩ := hj
  obtain ⟨i', v, hv, hblock⟩ := hk
  obtain ⟨rfl, rfl⟩ := MixMetadata.bufferBlock_inj (h.segment i).shape.per_lt
    (h.live_lt hu) (h.live_lt hv) hblock
  have hpair := List.inj_on_of_nodup_map (h.segment i).values_nodup hu hv rfl
  exact congrArg Prod.fst hpair

/-! ## Steps that leave the data alone -/

theorem cells_congr
    (hlive : ∀ j kv, kv ∈ s'.live j ↔ kv ∈ s.live j)
    (hdev : s'.store.dev = s.store.dev)
    (hper : s'.store.metaData.perBlockNum = s.store.metaData.perBlockNum) :
    s'.cells = s.cells := by
  have hblock : ∀ (j : Fin 4) (v : ℤ), s'.store.metaData.bufferBlock j v =
      s.store.metaData.bufferBlock j v :=
    fun j v => MixMetadata.bufferBlock_congr hper j v
  apply Cells.ext
  · funext k p
    simp only [Machine.cells, hlive, hblock]
  · simp only [Machine.cells, hdev]
  · simp only [Machine.cells, hdev]
  · simp only [Machine.cells, hdev]

theorem Unmoved.cells_eq (h : Unmoved s s') : s'.cells = s.cells :=
  cells_congr (fun j kv => by rw [h.live j]) h.dev h.perBlockNum

/-! ## Steps of the threads -/

/-- The pair that a thread releases is the only one that goes. -/
theorem MachineInv.live_release (h : MachineInv s) {kv : MixKv}
    (hlive : (s.live idx).Perm (kv :: s'.live idx))
    (hlive_ne : ∀ j, j ≠ idx → s'.live j = s.live j) {k p : ℕ} :
    (∃ j v, (k, v) ∈ s'.live j ∧
        p = s.store.metaData.bufferBlock j (v : ℕ)) ↔
      s.cells.live k p ∧
        ¬ (k = kv.1 ∧ p = s.store.metaData.bufferBlock idx (kv.2 : ℕ)) := by
  have hsegment := h.segment idx
  have hkeys := (hlive.map Prod.fst).nodup_iff.mp hsegment.keys_nodup
  rw [List.map_cons, List.nodup_cons] at hkeys
  have hkv : kv ∈ s.live idx := hlive.mem_iff.mpr List.mem_cons_self
  constructor
  · rintro ⟨j, v, hv, rfl⟩
    by_cases hj : j = idx
    · subst hj
      refine ⟨⟨j, v, hlive.mem_iff.mpr (List.mem_cons_of_mem kv hv), rfl⟩, ?_⟩
      rintro ⟨rfl, -⟩
      exact hkeys.1 (List.mem_map.mpr ⟨_, hv, rfl⟩)
    · rw [hlive_ne j hj] at hv
      refine ⟨⟨j, v, hv, rfl⟩, fun hkp => hj ?_⟩
      exact (MixMetadata.bufferBlock_inj hsegment.shape.per_lt (h.live_lt hv)
        (h.live_lt hkv) hkp.2).1
  · rintro ⟨⟨j, v, hv, rfl⟩, hne⟩
    refine ⟨j, v, ?_, rfl⟩
    by_cases hj : j = idx
    · subst hj
      rcases List.mem_cons.mp (hlive.mem_iff.mp hv) with rfl | hv
      · exact absurd ⟨rfl, rfl⟩ hne
      · exact hv
    · rw [hlive_ne j hj]
      exact hv

/-- A thread evicts the pairs of its segment, step by step. -/
theorem ThreadMoves.evicts (hmoves : ThreadMoves idx s s')
    (h : MachineInv s) : Cells.Evicts s.cells s'.cells := by
  have hper := hmoves.elsewhere.perBlockNum
  have hblock : ∀ (j : Fin 4) (v : ℤ), s'.store.metaData.bufferBlock j v =
      s.store.metaData.bufferBlock j v :=
    fun j v => MixMetadata.bufferBlock_congr hper j v
  have hmem : (s.live idx).Perm (s'.live idx) →
      ∀ j kv, kv ∈ s'.live j ↔ kv ∈ s.live j := by
    intro hperm j kv
    by_cases hj : j = idx
    · subst hj
      exact hperm.mem_iff.symm
    · rw [hmoves.live_ne j hj]
  cases hmoves.transfer with
  | quiet hlive hdev => exact .wait (cells_congr (hmem hlive) hdev hper)
  | copy kv hkv hlive hdev =>
      refine .copy kv.1 _ ⟨idx, kv.2, hkv, rfl⟩ (Cells.ext ?_ ?_ ?_ ?_)
      · funext k p
        simp only [Machine.cells, Cells.copy, hmem hlive, hblock]
      · simp only [Machine.cells, Cells.copy, hdev, mixSsdWrite_buffer]
      · simp only [Machine.cells, Cells.copy, hdev, mixSsdWrite_bufferMeta]
      · funext k
        have hiff : (kv.1 ≤ k ∧ k < kv.1 + 1) ↔ k = kv.1 := by omega
        simp only [Machine.cells, Cells.copy, hdev, mixSsdWrite_ssdBlock,
          hiff, Function.update_apply]
  | release kv hlive hssd hdev =>
      refine .release kv.1 _ ⟨idx, kv.2, hlive.mem_iff.mpr
        List.mem_cons_self, rfl⟩ hssd (Cells.ext ?_ ?_ ?_ ?_)
      · funext k p
        rw [Machine.cells]
        simp only [hblock]
        exact propext (h.live_release hlive hmoves.live_ne)
      · simp only [Machine.cells, Cells.release, hdev, mixBufferClear_buffer]
      · funext p
        simp only [Machine.cells, Cells.release, hdev, mixBufferClear_status,
          mixBufferClear_offset, Function.update_apply]
        split <;> simp
      · simp only [Machine.cells, Cells.release, hdev,
          mixBufferClear_ssdBlock]

/-! ## Steps of the workers -/

theorem Takes.cells_eq {key slot : ℕ} (h : Takes idx key slot s s') :
    s'.cells = s.cells.claim key
      (s.store.metaData.bufferBlock idx (slot : ℕ)) := by
  have hblock : ∀ (j : Fin 4) (v : ℤ), s'.store.metaData.bufferBlock j v =
      s.store.metaData.bufferBlock j v :=
    fun j v => MixMetadata.bufferBlock_congr h.elsewhere.perBlockNum j v
  apply Cells.ext
  · funext k p
    simp only [Machine.cells, Cells.claim, hblock, eq_iff_iff]
    constructor
    · rintro ⟨j, v, hv, rfl⟩
      by_cases hj : j = idx
      · subst hj
        rcases List.mem_cons.mp (h.live.mem_iff.mp hv) with heq | hv
        · cases heq
          exact Or.inr ⟨rfl, rfl⟩
        · exact Or.inl ⟨j, v, hv, rfl⟩
      · rw [h.live_ne j hj] at hv
        exact Or.inl ⟨j, v, hv, rfl⟩
    · rintro (⟨j, v, hv, rfl⟩ | ⟨rfl, rfl⟩)
      · refine ⟨j, v, ?_, rfl⟩
        by_cases hj : j = idx
        · subst hj
          exact h.live.mem_iff.mpr (List.mem_cons_of_mem _ hv)
        · rw [h.live_ne j hj]
          exact hv
      · exact ⟨idx, slot, h.live.mem_iff.mpr List.mem_cons_self, rfl⟩
  · simp only [Machine.cells, Cells.claim, h.dev]
  · simp only [Machine.cells, Cells.claim, h.dev]
  · simp only [Machine.cells, Cells.claim, h.dev]

/-- The key was not mapped in its segment. -/
theorem Takes.fresh_key {key slot : ℕ} (h : Takes idx key slot s s') :
    key ∉ (s.live idx).map Prod.fst := by
  have hkeys := (h.live.map Prod.fst).nodup_iff.mp
    (h.inv.segment idx).keys_nodup
  rw [List.map_cons, List.nodup_cons] at hkeys
  exact hkeys.1

/-- The place was not claimed. -/
theorem Takes.fresh_place {key slot : ℕ} (h : Takes idx key slot s s')
    (k : ℕ) :
    ¬ s.cells.live k (s.store.metaData.bufferBlock idx (slot : ℕ)) := by
  rintro ⟨j, v, hv, hblock⟩
  have hvalues := (h.live.map Prod.snd).nodup_iff.mp
    (h.inv.segment idx).values_nodup
  rw [List.map_cons, List.nodup_cons] at hvalues
  have hslot := h.inv.live_lt (h.live.mem_iff.mpr List.mem_cons_self)
  have hv' : (k, v) ∈ s'.live j := by
    by_cases hj : j = idx
    · subst hj
      exact h.live.mem_iff.mpr (List.mem_cons_of_mem _ hv)
    · rw [h.live_ne j hj]
      exact hv
  have hvlt := h.inv.live_lt hv'
  rw [h.elsewhere.perBlockNum] at hslot hvlt
  have hper := (h.inv.segment idx).shape.per_lt
  rw [h.elsewhere.perBlockNum] at hper
  obtain ⟨rfl, rfl⟩ := MixMetadata.bufferBlock_inj hper hslot hvlt hblock
  exact hvalues.1 (List.mem_map.mpr ⟨_, hv, rfl⟩)

theorem cells_writeData (x : β) (p : ℕ) :
    (s.setDev (mixBufferWriteData s.store.dev x p)).cells =
      s.cells.fill p x := rfl

theorem cells_writeMeta (lba p flags : ℕ) :
    (s.setDev (mixBufferWriteMeta s.store.dev lba p flags)).cells =
      s.cells.mark lba p := by
  apply Cells.ext
  · rfl
  · rfl
  · funext q
    simp only [Machine.cells, Cells.mark, Machine.setDev, mixBufferWriteMeta,
      Function.update_apply]
    split <;> simp
  · rfl

end Uhs
