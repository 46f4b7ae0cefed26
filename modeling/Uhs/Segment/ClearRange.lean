import Uhs.Segment.Operations

/-!
# Clearing a range of blocks

`mix_clear_block` takes the blocks of its task out of the index, with their
bits, their status words and their share of the counter, until it meets one
that is not mapped.
-/

namespace Uhs

open Support

variable {σ β : Type*} {idx : Fin 4} {s s' : Store σ β} {lba key v : ℕ}

/-- The status words of `blocks` are zero, and nothing else has changed. -/
def Devices.clearStatus (dev : Devices σ β) (blocks : List ℕ) : Devices σ β :=
  { dev with bufferMeta := fun p =>
      if p ∈ blocks then { dev.bufferMeta p with status := 0 }
      else dev.bufferMeta p }

theorem Devices.clearStatus_congr (dev : Devices σ β) {blocks blocks' : List ℕ}
    (h : ∀ p, p ∈ blocks ↔ p ∈ blocks') :
    dev.clearStatus blocks = dev.clearStatus blocks' := by
  unfold clearStatus
  simp only [h]

theorem mixBufferClear_clearStatus (dev : Devices σ β) (a : ℕ)
    (blocks : List ℕ) :
    (mixBufferClear dev a).clearStatus blocks =
      dev.clearStatus (a :: blocks) := by
  have hmeta : ((mixBufferClear dev a).clearStatus blocks).bufferMeta =
      (dev.clearStatus (a :: blocks)).bufferMeta := by
    funext p
    by_cases hp : p = a
    · simp [Devices.clearStatus, mixBufferClear, hp]
    · simp [Devices.clearStatus, mixBufferClear, hp]
  exact congrArg (fun records => { dev with bufferMeta := records }) hmeta

/-- The slots of the blocks of `keys` in a segment. -/
def MixMetadata.slotsOf (m : MixMetadata) (idx : Fin 4) (keys : List ℕ) :
    List ℕ :=
  ((m.hash idx).entries.filter fun kv => kv.1 ∈ keys).map Prod.snd

/-- The blocks of `keys` are taken out of the index, and nothing else: the
other entries stay, the bits and the status words of their slots are cleared,
and the counter is lowered by their number. -/
structure ClearsKeys (idx : Fin 4) (keys : List ℕ) (s s' : Store σ β) : Prop
    extends MixMetadata.SameElsewhere idx s.metaData s'.metaData where
  entries : (s'.metaData.hash idx).entries.Perm
    ((s.metaData.hash idx).entries.filter fun kv => kv.1 ∉ keys)
  bit : ∀ nr, mixBitmapTestBit (s'.metaData.segments idx).bitmap nr =
    (mixBitmapTestBit (s.metaData.segments idx).bitmap nr &&
      decide (nr ∉ s.metaData.slotsOf idx keys))
  used : (s'.metaData.segments idx).usedBlockNum =
    (s.metaData.segments idx).usedBlockNum -
      (s.metaData.slotsOf idx keys).length
  dev : s'.dev = s.dev.clearStatus ((s.metaData.slotsOf idx keys).map
    fun (v : ℕ) => s.metaData.bufferBlock idx v)

theorem ClearsKeys.refl (idx : Fin 4) (s : Store σ β) :
    ClearsKeys idx [] s s where
  toSameElsewhere := MixMetadata.SameElsewhere.refl idx s.metaData
  entries := by simp
  bit := by simp [MixMetadata.slotsOf]
  used := by simp [MixMetadata.slotsOf]
  dev := by simp [MixMetadata.slotsOf, Devices.clearStatus]

/-- Only the mapped ones among the keys count. -/
theorem ClearsKeys.congr {keys keys' : List ℕ}
    (h : ClearsKeys idx keys s s')
    (hkeys : ∀ k ∈ (s.metaData.hash idx).keys, k ∈ keys ↔ k ∈ keys') :
    ClearsKeys idx keys' s s' := by
  have hmem : ∀ kv ∈ (s.metaData.hash idx).entries,
      kv.1 ∈ keys ↔ kv.1 ∈ keys' :=
    fun kv hkv => hkeys _ (MixHash.mem_keys_of_mem hkv)
  have hslots : s.metaData.slotsOf idx keys' =
      s.metaData.slotsOf idx keys := by
    unfold MixMetadata.slotsOf
    congr 1
    refine List.filter_congr fun kv hkv => ?_
    simp [hmem kv hkv]
  have hkept : ((s.metaData.hash idx).entries.filter
      fun kv => kv.1 ∉ keys') =
        (s.metaData.hash idx).entries.filter fun kv => kv.1 ∉ keys := by
    refine List.filter_congr fun kv hkv => ?_
    simp [hmem kv hkv]
  exact
    { toSameElsewhere := h.toSameElsewhere
      entries := by
        rw [hkept]
        exact h.entries
      bit := by
        rw [hslots]
        exact h.bit
      used := by
        rw [hslots]
        exact h.used
      dev := by
        rw [hslots]
        exact h.dev }

/-- One block and then the others. -/
theorem Unmaps.clearsKeys {s₁ : Store σ β} {keys : List ℕ}
    (h : Unmaps idx key v s s₁) (hindex : SlotIndex idx s.metaData)
    (hrest : ClearsKeys idx keys s₁ s') :
    ClearsKeys idx (key :: keys) s s' := by
  have hne : ∀ kv ∈ (s₁.metaData.hash idx).entries, kv.1 ≠ key := by
    rintro kv hkv rfl
    exact h.notMem_keys hindex (MixHash.mem_keys_of_mem hkv)
  have hslots : (s.metaData.slotsOf idx (key :: keys)).Perm
      (v :: s₁.metaData.slotsOf idx keys) := by
    have hperm := (h.entries.filter
      fun kv : MixKv => decide (kv.1 ∈ key :: keys)).map Prod.snd
    rw [List.filter_cons_of_pos (by simp), List.map_cons] at hperm
    have hsame : ((s₁.metaData.hash idx).entries.filter
        fun kv => kv.1 ∈ key :: keys) =
          (s₁.metaData.hash idx).entries.filter fun kv => kv.1 ∈ keys := by
      refine List.filter_congr fun kv hkv => ?_
      simp [hne kv hkv]
    rw [hsame] at hperm
    exact hperm
  have hblock := MixMetadata.bufferBlock_congr h.perBlockNum idx
  refine
    { toSameElsewhere := h.toSameElsewhere.trans hrest.toSameElsewhere
      entries := ?_
      bit := ?_
      used := ?_
      dev := ?_ }
  · have hperm := h.entries.filter
      fun kv : MixKv => decide (kv.1 ∉ key :: keys)
    rw [List.filter_cons_of_neg (by simp)] at hperm
    have hsame : ((s₁.metaData.hash idx).entries.filter
        fun kv => kv.1 ∉ key :: keys) =
          (s₁.metaData.hash idx).entries.filter fun kv => kv.1 ∉ keys := by
      refine List.filter_congr fun kv hkv => ?_
      simp [hne kv hkv]
    rw [hsame] at hperm
    exact hrest.entries.trans hperm.symm
  · intro nr
    have hfirst : mixBitmapTestBit (s₁.metaData.segments idx).bitmap nr =
        (mixBitmapTestBit (s.metaData.segments idx).bitmap nr &&
          decide (nr ≠ v)) := by
      rw [h.bitmap, mixBitmapTestBit, mixBitmapClearBit, testBit_clearBit,
        decide_not]
      exact Bool.and_comm _ _
    rw [hrest.bit, hfirst, Bool.and_assoc]
    congr 1
    simp [hslots.mem_iff, not_or]
  · rw [hrest.used, h.used, hslots.length_eq, List.length_cons]
    omega
  · rw [hrest.dev, h.dev, mixBufferClear_clearStatus]
    refine s.dev.clearStatus_congr fun p => ?_
    simp [hslots.mem_iff, hblock, eq_comm]

/-! ## The loop -/

/-- The blocks of a task of `mix_clear_block`. -/
def IoTask.clearedLbas (task : IoTask β) : List ℕ :=
  List.range' task.offset task.len segmentNum

/-- The loop clears the blocks before the first one that is not mapped. -/
theorem clearFrom_spec (h : SlotIndex idx s.metaData) {len : ℕ}
    (hrange : lba + segmentNum * len < 2 ^ 32) :
    ∃ n ≤ len,
      (∀ i < n, lba + segmentNum * i ∈ (s.metaData.hash idx).keys) ∧
      (n < len → lba + segmentNum * n ∉ (s.metaData.hash idx).keys) ∧
      ClearsKeys idx (List.range' lba n segmentNum) s
        (clearFrom idx len lba s) := by
  induction len generalizing lba s with
  | zero =>
      refine ⟨0, Nat.le_refl 0, fun i hi => absurd hi (Nat.not_lt_zero i),
        fun hlt => absurd hlt (Nat.lt_irrefl 0), ClearsKeys.refl idx s⟩
  | succ len ih =>
      rw [segmentNum] at hrange
      have hkey : lbaKey lba = lba := Nat.mod_eq_of_lt (by omega)
      rw [clearFrom]
      by_cases hmapped : lba ∈ (s.metaData.hash idx).keys
      · obtain ⟨v, hmem⟩ := MixHash.mem_keys.mp hmapped
        rw [← hkey] at hmem
        obtain ⟨s₁, hclear, hunmaps⟩ := clearOne_unmaps h hmem
        rw [hkey] at hunmaps
        have hkeys := hunmaps.keys_perm
        have hnext : lba + segmentNum + segmentNum * len < 2 ^ 32 := by
          rw [segmentNum]
          omega
        obtain ⟨n, hn, hbelow, hend, hclears⟩ :=
          ih (hunmaps.slotIndex h) hnext
        have hshift : ∀ i, lba + segmentNum + segmentNum * i =
            lba + segmentNum * (i + 1) := by
          intro i
          rw [Nat.mul_succ]
          omega
        refine ⟨n + 1, by omega, fun i hi => ?_, fun hlt => ?_, ?_⟩
        · cases i with
          | zero => exact hmapped
          | succ i =>
              rw [← hshift, hkeys.mem_iff]
              exact List.mem_cons_of_mem lba (hbelow i (by omega))
        · have hnot := hend (by omega)
          rw [hshift] at hnot
          rw [hkeys.mem_iff, List.mem_cons, not_or]
          exact ⟨by rw [segmentNum]; omega, hnot⟩
        · rw [hclear, List.range'_succ]
          exact hunmaps.clearsKeys h hclears
      · refine ⟨0, by omega, fun i hi => absurd hi (Nat.not_lt_zero i),
          fun _ => hmapped, ?_⟩
        rw [clearOne_of_notMem h.keyed (by rwa [hkey])]
        exact ClearsKeys.refl idx s

/-- The mapped blocks of the task come first. -/
def MappedFirst (idx : Fin 4) (m : MixMetadata) (task : IoTask β) : Prop :=
  ∀ i < task.len, task.offset + segmentNum * i ∈ (m.hash idx).keys →
    ∀ j < i, task.offset + segmentNum * j ∈ (m.hash idx).keys

instance (idx : Fin 4) (m : MixMetadata) (task : IoTask β) :
    Decidable (MappedFirst idx m task) :=
  inferInstanceAs (Decidable (∀ _ < _, _ → ∀ _ < _, _))

/-- `mix_clear_block` clears the blocks of its task and nothing else if and
only if no block that is not mapped stands before a mapped one. -/
theorem mixClearBlock_clears_iff (h : SlotIndex idx s.metaData)
    {task : IoTask β} (hrange : task.offset + segmentNum * task.len < 2 ^ 32) :
    ClearsKeys idx task.clearedLbas s (mixClearBlock s task idx) ↔
      MappedFirst idx s.metaData task := by
  obtain ⟨n, hn, hbelow, hend, hclears⟩ := clearFrom_spec h hrange
  constructor
  · intro hall i hi hmapped j hj
    by_cases hin : i < n
    · exact hbelow j (by omega)
    · exfalso
      -- block `n` ends the loop, so block `i` has been left in the index
      have hne : i ≠ n := by
        rintro rfl
        exact hend hi hmapped
      obtain ⟨v, hmem⟩ := MixHash.mem_keys.mp hmapped
      have hkept : task.offset + segmentNum * i ∉
          List.range' task.offset n segmentNum := by
        rw [List.mem_range', segmentNum]
        rintro ⟨k, hk, heq⟩
        omega
      have hleft := hclears.entries.mem_iff.mpr
        (List.mem_filter.mpr ⟨hmem, by simpa using hkept⟩)
      have hgone := (List.mem_filter.mp (hall.entries.mem_iff.mp hleft)).2
      refine absurd ?_ (of_decide_eq_true hgone)
      exact List.mem_range'.mpr ⟨i, hi, rfl⟩
  · intro hfirst
    refine hclears.congr fun k hk => ?_
    constructor
    · intro hmem
      obtain ⟨i, hi, rfl⟩ := List.mem_range'.mp hmem
      exact List.mem_range'.mpr ⟨i, by omega, rfl⟩
    · intro hmem
      obtain ⟨i, hi, rfl⟩ := List.mem_range'.mp hmem
      refine List.mem_range'.mpr ⟨i, ?_, rfl⟩
      by_contra hin
      have hmapped : task.offset + segmentNum * n ∈
          (s.metaData.hash idx).keys := by
        rcases Nat.lt_or_eq_of_le (Nat.not_lt.mp hin) with hlt | rfl
        · exact hfirst i hi hk n hlt
        · exact hk
      exact hend (by omega) hmapped

/-! ## A small segment -/

/-- A task that clears `len` blocks from `lba` on. -/
def clearTask (lba len : ℕ) : IoTask ℕ where
  buf := fun _ => 0
  len := len
  offset := lba
  opcode := mixClear
  type := .ssd
  inflightBuffer := 0

/-- Segment `0` with the blocks `4` and `12`. -/
def twoBlocksStore : Store (ℕ → ℕ) ℕ :=
  (runOps (segmentStep 0) (freshStore 32 (fun _ => false) zeroDevices)
    [.write (smallWrite 4 1), .write (smallWrite 12 2)]).get
      (by decide +kernel)

theorem twoBlocksStore_slotIndex : SlotIndex 0 twoBlocksStore.metaData :=
  (indexInv_of_runOps (by decide) _ _ (by decide +kernel)
    (Option.some_get _).symm).slotIndex

theorem mixClearBlock_clears_iff_example :
    ClearsKeys 0 (clearTask 4 2).clearedLbas twoBlocksStore
        (mixClearBlock twoBlocksStore (clearTask 4 2) 0) ↔
      MappedFirst 0 twoBlocksStore.metaData (clearTask 4 2) :=
  mixClearBlock_clears_iff twoBlocksStore_slotIndex (by decide)

/-- Block `8` is not mapped, and block `12` behind it stays mapped. -/
theorem mixClearBlock_clears_fails :
    SlotIndex 0 twoBlocksStore.metaData ∧
      ¬ ClearsKeys 0 (clearTask 4 3).clearedLbas twoBlocksStore
        (mixClearBlock twoBlocksStore (clearTask 4 3) 0) := by
  refine ⟨twoBlocksStore_slotIndex, fun h => ?_⟩
  have hlength := h.entries.length_eq
  exact absurd hlength (by decide +kernel)

end Uhs
