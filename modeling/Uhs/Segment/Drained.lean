import Mathlib.Data.List.Flatten
import Uhs.Segment.Accounting

/-!
# A migration of any index

A migration drains a bucket up to the pair with the key `2 ^ 32 - 1`.  What
becomes of a mapped block is settled here for every well-formed index: it is
moved out, left behind that pair, or lost with it.
-/

namespace Uhs

open Support

/-- The pair stands in its bucket behind the pair at which a migration
stops. -/
def LeftBehind (idx : Fin 4) {σ β : Type*} (s : Store σ β) (kv : MixKv) :
    Prop :=
  ∃ i < (s.metaData.hash idx).hashSize, kv ∈ leftPart (s.bucket idx i)

/-- A migration moves some pair out. -/
def MovesSome (idx : Fin 4) {σ β : Type*} (s : Store σ β) : Prop :=
  ∃ i < (s.metaData.hash idx).hashSize, movedPart (s.bucket idx i) ≠ []

instance (idx : Fin 4) {σ β : Type*} (s : Store σ β) (kv : MixKv) :
    Decidable (LeftBehind idx s kv) :=
  inferInstanceAs (Decidable (∃ i < _, kv ∈ _))

instance (idx : Fin 4) {σ β : Type*} (s : Store σ β) :
    Decidable (MovesSome idx s) :=
  inferInstanceAs (Decidable (∃ i < _, movedPart _ ≠ []))

/-! ## One bucket -/

theorem mem_movedPart_or_leftPart {l : List MixKv} {kv : MixKv}
    (hkv : kv ∈ l) (hnot : ¬ IsSentinel kv) :
    kv ∈ movedPart l ∨ kv ∈ leftPart l := by
  induction l with
  | nil => exact absurd hkv List.not_mem_nil
  | cons e l ih =>
      by_cases he : IsSentinel e
      · right
        rw [leftPart_cons_of_sentinel l he]
        rcases List.mem_cons.mp hkv with rfl | hkv
        · exact absurd he hnot
        · exact hkv
      · rw [movedPart_cons_of_not l he, leftPart_cons_of_not l he,
          List.mem_cons]
        rcases List.mem_cons.mp hkv with rfl | hkv
        · exact Or.inl (Or.inl rfl)
        · exact (ih hkv).imp_left Or.inr

theorem notMem_leftPart_of_moved {l : List MixKv} {kv : MixKv}
    (hnodup : l.Nodup) (hmoved : kv ∈ movedPart l) : kv ∉ leftPart l := by
  induction l with
  | nil => exact absurd hmoved List.not_mem_nil
  | cons e l ih =>
      obtain ⟨he, htail⟩ := List.nodup_cons.mp hnodup
      by_cases hsentinel : IsSentinel e
      · rw [movedPart_cons_of_sentinel l hsentinel] at hmoved
        exact absurd hmoved List.not_mem_nil
      · rw [movedPart_cons_of_not l hsentinel, List.mem_cons] at hmoved
        rw [leftPart_cons_of_not l hsentinel]
        rcases hmoved with rfl | hmoved
        · exact fun hleft => he ((leftPart_sublist l).subset hleft)
        · exact ih htail hmoved

/-! ## The whole segment -/

variable {σ β : Type*} [BlockDevice σ β] {idx : Fin 4} {es : List MixKv}
  {s s' : Store σ β} {kv : MixKv} {b w : ℕ}

theorem Migrated.mem_moved_iff (h : Migrated idx es s s') :
    kv ∈ es ↔ ∃ i < (s.metaData.hash idx).hashSize,
      kv ∈ movedPart (s.bucket idx i) :=
  h.moved.mem_iff.trans mem_entries

theorem Migrated.mem_entries_iff (h : Migrated idx es s s') :
    kv ∈ (s'.metaData.hash idx).entries ↔ LeftBehind idx s kv := by
  rw [h.entries_eq]
  exact mem_entries

theorem Migrated.movesSome_iff (h : Migrated idx es s s') :
    MovesSome idx s ↔ es ≠ [] := by
  have hnil : es = [] ↔ ∀ i < (s.metaData.hash idx).hashSize,
      movedPart (s.bucket idx i) = [] := by
    rw [← entries_eq_nil_iff]
    exact ⟨fun heq => (heq ▸ h.moved).nil_eq.symm,
      fun heq => (heq ▸ h.moved).eq_nil⟩
  rw [MovesSome, ne_eq, hnil]
  push Not
  rfl

theorem Migrated.moved_subset (h : Migrated idx es s s') :
    es ⊆ (s.metaData.hash idx).entries := by
  intro kv hkv
  obtain ⟨i, hi, hmem⟩ := h.mem_moved_iff.mp hkv
  exact mem_entries.mpr ⟨i, hi, (movedPart_sublist _).subset hmem⟩

theorem Migrated.left_sublist (h : Migrated idx es s s') :
    (s'.metaData.hash idx).entries.Sublist
      (s.metaData.hash idx).entries := by
  rw [h.entries_eq, MixHash.entries, Support.entries, Support.entries]
  exact List.Sublist.flatMap_right _ fun i _ => leftPart_sublist _

theorem Migrated.left_keys_nodup (h : Migrated idx es s s')
    (hinv : IndexInv idx s.metaData) :
    (s'.metaData.hash idx).keys.Nodup :=
  (h.left_sublist.map Prod.fst).nodup hinv.keys_nodup

/-- A mapped block is moved unless it is left behind or stops the
migration. -/
theorem Migrated.mem_moved_of_mem (h : Migrated idx es s s')
    (hinv : IndexInv idx s.metaData)
    (hkv : kv ∈ (s.metaData.hash idx).entries) :
    kv ∈ es ↔ ¬ LeftBehind idx s kv ∧ kv.1 ≠ uint32Max := by
  have hplaced : ∀ i < (s.metaData.hash idx).hashSize,
      ∀ e ∈ s.bucket idx i,
        mixHashHash e.1 (s.metaData.hash idx).hashSize = i :=
    hinv.wf.placed
  constructor
  · intro hmoved
    obtain ⟨i, hi, hmem⟩ := h.mem_moved_iff.mp hmoved
    refine ⟨?_, fun hkey =>
      not_sentinel_of_mem_movedPart hmem (Or.inl hkey)⟩
    rintro ⟨j, hj, hleft⟩
    have hij : i = j :=
      (hplaced i hi kv ((movedPart_sublist _).subset hmem)).symm.trans
        (hplaced j hj kv ((leftPart_sublist _).subset hleft))
    subst hij
    have hnodup : (s.bucket idx i).Nodup :=
      (nodup_keys_bucket hi hinv.keys_nodup).of_map
    exact notMem_leftPart_of_moved hnodup hmem hleft
  · rintro ⟨hnot, hkey⟩
    obtain ⟨i, hi, hmem⟩ := mem_entries.mp hkv
    have hlt := hinv.value_lt _ (MixHash.mem_values_of_mem hkv)
    have hper := hinv.per_lt
    have hsentinel : ¬ IsSentinel kv := by
      rintro (hmax | hmax)
      · exact hkey hmax
      · rw [hmax, uint32Max] at hlt
        omega
    rcases mem_movedPart_or_leftPart hmem hsentinel with hmoved | hleft
    · exact h.mem_moved_iff.mpr ⟨i, hi, hmoved⟩
    · exact absurd ⟨i, hi, hleft⟩ hnot

/-- The SSD block of a mapped block: it is overwritten from the slot when the
pair is moved. -/
theorem Migrated.ssdBlock_eq (h : Migrated idx es s s')
    (hinv : IndexInv idx s.metaData)
    (hkeys : ∀ key ∈ (s.metaData.hash idx).keys, key < 2 ^ 32)
    (hmem : (lbaKey b, w) ∈ (s.metaData.hash idx).entries) :
    s'.dev.ssdBlock b =
      if ¬ LeftBehind idx s (lbaKey b, w) ∧ b < uint32Max then
        s.dev.buffer w
      else s.dev.ssdBlock b := by
  rw [h.dev]
  split_ifs with hmoved
  · have hlt := hmoved.2
    rw [uint32Max] at hlt
    have hkey : lbaKey b = b := Nat.mod_eq_of_lt (by omega)
    rw [hkey] at hmem hmoved
    have hes : (b, w) ∈ es :=
      (h.mem_moved_of_mem hinv hmem).mpr ⟨hmoved.1, hmoved.2.ne⟩
    refine moveOut_ssdBlock_of_mem s.dev ?_ hes
    intro e he e' he' heq
    have hpair := List.inj_on_of_nodup_map hinv.keys_nodup
      (h.moved_subset he) (h.moved_subset he') heq
    rw [hpair]
  · apply moveOut_ssdBlock_of_notMem
    intro hb
    obtain ⟨⟨key, w'⟩, hes, rfl⟩ := List.mem_map.mp hb
    have hentry := h.moved_subset hes
    have hlt := hkeys key (MixHash.mem_keys_of_mem hentry)
    have hkey : lbaKey key = key := Nat.mod_eq_of_lt hlt
    rw [hkey] at hmem hmoved
    have hpair := List.inj_on_of_nodup_map hinv.keys_nodup hentry hmem rfl
    obtain ⟨hnot, hne⟩ := (h.mem_moved_of_mem hinv hentry).mp hes
    rw [hpair] at hnot
    refine hmoved ⟨hnot, ?_⟩
    change key < uint32Max
    have hne' : key ≠ uint32Max := hne
    rw [uint32Max] at hne' ⊢
    omega

/-- Blocks that are not keys of the segment stay as they are on the SSD. -/
theorem Migrated.ssdBlock_of_notMem (h : Migrated idx es s s')
    (hb : b ∉ (s.metaData.hash idx).keys) :
    s'.dev.ssdBlock b = s.dev.ssdBlock b := by
  rw [h.dev]
  apply moveOut_ssdBlock_of_notMem
  intro hmem
  obtain ⟨kv, hes, rfl⟩ := List.mem_map.mp hmem
  exact hb (MixHash.mem_keys_of_mem (h.moved_subset hes))

end Uhs
