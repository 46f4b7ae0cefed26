import Mathlib.Data.List.Nodup
import Mathlib.Data.List.Perm.Basic
import Mathlib.Logic.Function.Basic

/-!
# Bucket families

A chained table is a family of lists of key-value pairs, one per bucket.  Its
entries are the concatenation of the first `n` buckets, up to permutation.
Once every pair sits in the bucket of its key and keys are distinct, lookup in
one bucket decides membership in the whole table.
-/

namespace Uhs.Support

variable {ε κ ν : Type*}

/-- All entries of the first `n` buckets. -/
def entries (n : ℕ) (b : ℕ → List ε) : List ε :=
  (List.range n).flatMap b

@[simp] theorem mem_entries {n : ℕ} {b : ℕ → List ε} {e : ε} :
    e ∈ entries n b ↔ ∃ i < n, e ∈ b i := by
  simp [entries]

theorem entries_eq_nil_iff {n : ℕ} {b : ℕ → List ε} :
    entries n b = [] ↔ ∀ i < n, b i = [] := by
  simp [entries]

theorem entries_congr {n : ℕ} {b c : ℕ → List ε} (h : ∀ i < n, b i = c i) :
    entries n b = entries n c := by
  apply List.flatMap_congr
  intro i hi
  exact h i (List.mem_range.mp hi)

/-- Splitting one bucket splits the entries. -/
theorem entries_perm_append_update {n i : ℕ} {b : ℕ → List ε}
    {l r : List ε} (hi : i < n) (hsplit : (b i).Perm (l ++ r)) :
    (entries n b).Perm (l ++ entries n (Function.update b i r)) := by
  have hrange : (List.range n).Perm (i :: (List.range n).erase i) :=
    List.perm_cons_erase (List.mem_range.mpr hi)
  have hrest : ((List.range n).erase i).flatMap (Function.update b i r) =
      ((List.range n).erase i).flatMap b := by
    apply List.flatMap_congr
    intro j hj
    have hji : j ≠ i := ((List.nodup_range (n := n)).mem_erase_iff.mp hj).1
    exact Function.update_of_ne hji r b
  have hleft := hrange.flatMap_right b
  have hright := hrange.flatMap_right (Function.update b i r)
  simp only [List.flatMap_cons, Function.update_self, hrest] at hleft hright
  calc
    (entries n b).Perm (b i ++ ((List.range n).erase i).flatMap b) := hleft
    List.Perm _ ((l ++ r) ++ ((List.range n).erase i).flatMap b) :=
      hsplit.append_right _
    List.Perm _ (l ++ (r ++ ((List.range n).erase i).flatMap b)) := by
      rw [List.append_assoc]
    List.Perm _ (l ++ entries n (Function.update b i r)) :=
      hright.symm.append_left l

theorem entries_cons_update_perm {n i : ℕ} (b : ℕ → List ε) (e : ε)
    (hi : i < n) :
    (entries n (Function.update b i (e :: b i))).Perm (e :: entries n b) := by
  have h := entries_perm_append_update (b := Function.update b i (e :: b i))
    (l := [e]) (r := b i) hi (by simp)
  simpa using h

/-- Replacing one bucket changes the number of entries accordingly. -/
theorem length_entries_update {n i : ℕ} (b : ℕ → List ε) (l : List ε)
    (hi : i < n) :
    (entries n (Function.update b i l)).length + (b i).length =
      (entries n b).length + l.length := by
  have hold := entries_perm_append_update (b := b) (l := b i) (r := []) hi
    (by simp)
  have hnew := entries_perm_append_update (b := Function.update b i l) (l := l)
    (r := []) hi (by simp)
  rw [Function.update_idem] at hnew
  have hlengthOld := hold.length_eq
  have hlengthNew := hnew.length_eq
  rw [List.length_append] at hlengthOld hlengthNew
  omega

/-- Mapping the buckets maps the entries. -/
theorem entries_map {δ : Type*} (n : ℕ) (b : ℕ → List ε) (f : ε → δ) :
    entries n (fun i => (b i).map f) = (entries n b).map f := by
  rw [entries, entries, List.map_flatMap]

/-! ## Placement by a bucket function -/

/-- Every pair sits in the bucket of its key. -/
def Placed (bucketOf : κ → ℕ) (n : ℕ) (b : ℕ → List (κ × ν)) : Prop :=
  ∀ i < n, ∀ e ∈ b i, bucketOf e.1 = i

variable {bucketOf : κ → ℕ} {n : ℕ} {b : ℕ → List (κ × ν)}

theorem Placed.mem_bucket_iff (hplaced : Placed bucketOf n b) {e : κ × ν}
    (hlt : bucketOf e.1 < n) :
    e ∈ b (bucketOf e.1) ↔ e ∈ entries n b := by
  constructor
  · intro he
    exact mem_entries.mpr ⟨_, hlt, he⟩
  · intro he
    obtain ⟨i, hi, hmem⟩ := mem_entries.mp he
    rw [hplaced i hi e hmem]
    exact hmem

theorem Placed.update (hplaced : Placed bucketOf n b) {i : ℕ}
    {l : List (κ × ν)} (hl : ∀ e ∈ l, bucketOf e.1 = i) :
    Placed bucketOf n (Function.update b i l) := by
  intro j hj e he
  by_cases hji : j = i
  · subst hji
    rw [Function.update_self] at he
    exact hl e he
  · rw [Function.update_of_ne hji] at he
    exact hplaced j hj e he

/-- A pair occurs in the table as often as in the bucket of its key. -/
theorem Placed.count_entries [DecidableEq κ] [DecidableEq ν]
    (hplaced : Placed bucketOf n b) {e : κ × ν} (hlt : bucketOf e.1 < n) :
    (entries n b).count e = (b (bucketOf e.1)).count e := by
  have hsplit := entries_perm_append_update (b := b)
    (l := b (bucketOf e.1)) (r := []) hlt (by simp)
  have hrest : e ∉ entries n (Function.update b (bucketOf e.1) []) := by
    intro hmem
    obtain ⟨i, hi, he⟩ := mem_entries.mp hmem
    by_cases hbucket : i = bucketOf e.1
    · subst hbucket
      simp at he
    · rw [Function.update_of_ne hbucket] at he
      exact hbucket (hplaced i hi e he).symm
  rw [hsplit.count_eq, List.count_append, List.count_eq_zero_of_not_mem hrest,
    Nat.add_zero]

theorem nodup_keys_bucket {i : ℕ} (hi : i < n)
    (hnodup : ((entries n b).map Prod.fst).Nodup) :
    ((b i).map Prod.fst).Nodup := by
  have hperm := entries_perm_append_update (b := b) (l := b i) (r := [])
    hi (by simp)
  have hkeys := (hperm.map Prod.fst).nodup_iff.mp hnodup
  rw [List.map_append] at hkeys
  exact hkeys.of_append_left

/-! ## Lookup of keys -/

variable [DecidableEq κ]

/-- Value of the first pair whose key is `k`. -/
def lookupKey (l : List (κ × ν)) (k : κ) : Option ν :=
  (l.find? fun e => e.1 == k).map Prod.snd

/-- Remove the first pair whose key is `k`. -/
def eraseKey (l : List (κ × ν)) (k : κ) : List (κ × ν) :=
  l.eraseP fun e => e.1 == k

theorem lookupKey_eq_none_iff {l : List (κ × ν)} {k : κ} :
    lookupKey l k = none ↔ ∀ e ∈ l, e.1 ≠ k := by
  simp [lookupKey]

theorem mem_of_lookupKey {l : List (κ × ν)} {k : κ} {v : ν}
    (h : lookupKey l k = some v) : (k, v) ∈ l := by
  rw [lookupKey, Option.map_eq_some_iff] at h
  obtain ⟨⟨k', v'⟩, hfind, rfl⟩ := h
  have hkey := List.find?_some hfind
  simp only [beq_iff_eq] at hkey
  subst hkey
  exact List.mem_of_find?_eq_some hfind

theorem lookupKey_perm_cons {l : List (κ × ν)} {k : κ} {v : ν}
    (h : lookupKey l k = some v) : l.Perm ((k, v) :: eraseKey l k) := by
  induction l with
  | nil => simp [lookupKey] at h
  | cons e l ih =>
      by_cases he : e.1 = k
      · have hev : e = (k, v) := by
          simp [lookupKey, he] at h
          exact Prod.ext he h
        simp [eraseKey, hev]
      · have htail : lookupKey l k = some v := by
          simpa [lookupKey, he] using h
        have herase : eraseKey (e :: l) k = e :: eraseKey l k := by
          simp [eraseKey, he]
        rw [herase]
        exact ((ih htail).cons e).trans (List.Perm.swap _ _ _)

theorem lookupKey_eq_some_iff {l : List (κ × ν)}
    (hnodup : (l.map Prod.fst).Nodup) {k : κ} {v : ν} :
    lookupKey l k = some v ↔ (k, v) ∈ l := by
  constructor
  · exact mem_of_lookupKey
  · intro hmem
    cases hlook : lookupKey l k with
    | none =>
        exact absurd rfl (lookupKey_eq_none_iff.mp hlook (k, v) hmem)
    | some w =>
        have hw := mem_of_lookupKey hlook
        have heq := List.inj_on_of_nodup_map hnodup hmem hw rfl
        simp only [Prod.mk.injEq, true_and] at heq
        rw [heq]

theorem eraseKey_of_forall_ne {l : List (κ × ν)} {k : κ}
    (h : ∀ e ∈ l, e.1 ≠ k) : eraseKey l k = l := by
  apply List.eraseP_of_forall_not
  simpa using h

theorem lookupKey_of_split {pre post : List (κ × ν)} {e : κ × ν}
    (hpre : ∀ e' ∈ pre, e'.1 ≠ e.1) :
    lookupKey (pre ++ e :: post) e.1 = some e.2 := by
  have hnone : pre.find? (fun e' => e'.1 == e.1) = none := by
    simpa using hpre
  simp [lookupKey, List.find?_append, hnone]

theorem eraseKey_of_split {pre post : List (κ × ν)} {e : κ × ν}
    (hpre : ∀ e' ∈ pre, e'.1 ≠ e.1) :
    eraseKey (pre ++ e :: post) e.1 = pre ++ post := by
  rw [eraseKey, List.eraseP_append_right]
  · simp
  · simpa using hpre

/-! ## The values under one key -/

/-- The values paired with `k`, in order. -/
def valuesOf (l : List (κ × ν)) (k : κ) : List ν :=
  (l.filter fun e => e.1 == k).map Prod.snd

theorem valuesOf_cons_self (l : List (κ × ν)) (k : κ) (v : ν) :
    valuesOf ((k, v) :: l) k = v :: valuesOf l k := by
  simp [valuesOf]

theorem valuesOf_cons_of_ne (l : List (κ × ν)) {e : κ × ν} {k : κ}
    (h : e.1 ≠ k) : valuesOf (e :: l) k = valuesOf l k := by
  simp [valuesOf, h]

theorem lookupKey_eq_head? (l : List (κ × ν)) (k : κ) :
    lookupKey l k = (valuesOf l k).head? := by
  rw [lookupKey, valuesOf, List.head?_map, List.head?_filter]

/-- Erasing a key drops its first value. -/
theorem valuesOf_eraseKey_self (l : List (κ × ν)) (k : κ) :
    valuesOf (eraseKey l k) k = (valuesOf l k).tail := by
  induction l with
  | nil => rfl
  | cons e l ih =>
      by_cases he : e.1 = k
      · subst he
        simp [eraseKey, valuesOf]
      · have herase : eraseKey (e :: l) k = e :: eraseKey l k := by
          simp [eraseKey, he]
        rw [herase, valuesOf_cons_of_ne _ he, valuesOf_cons_of_ne _ he, ih]

/-- Erasing a key keeps the values of the others. -/
theorem valuesOf_eraseKey_of_ne (l : List (κ × ν)) {k k' : κ} (h : k' ≠ k) :
    valuesOf (eraseKey l k) k' = valuesOf l k' := by
  induction l with
  | nil => rfl
  | cons e l ih =>
      by_cases he : e.1 = k
      · have herase : eraseKey (e :: l) k = l := by
          simp [eraseKey, he]
        have hne : e.1 ≠ k' := fun heq => h (heq.symm.trans he)
        rw [herase, valuesOf_cons_of_ne _ hne]
      · have herase : eraseKey (e :: l) k = e :: eraseKey l k := by
          simp [eraseKey, he]
        rw [herase]
        by_cases he' : e.1 = k'
        · subst he'
          rw [valuesOf_cons_self, valuesOf_cons_self, ih]
        · rw [valuesOf_cons_of_ne _ he', valuesOf_cons_of_ne _ he', ih]

theorem count_valuesOf [DecidableEq ν] (l : List (κ × ν)) (k : κ) (v : ν) :
    (valuesOf l k).count v = l.count (k, v) := by
  induction l with
  | nil => rfl
  | cons e l ih =>
      by_cases he : e.1 = k
      · subst he
        rw [valuesOf_cons_self, List.count_cons, List.count_cons, ih]
        simp [Prod.ext_iff]
      · have hne : e ≠ (k, v) := by
          rintro rfl
          exact he rfl
        rw [valuesOf_cons_of_ne _ he, ih, List.count_cons_of_ne hne]

/-- With distinct keys, looking a key up in its bucket decides the table. -/
theorem Placed.lookupKey_eq_some_iff (hplaced : Placed bucketOf n b)
    (hnodup : ((entries n b).map Prod.fst).Nodup) {k : κ} {v : ν}
    (hlt : bucketOf k < n) :
    lookupKey (b (bucketOf k)) k = some v ↔ (k, v) ∈ entries n b := by
  rw [Support.lookupKey_eq_some_iff (nodup_keys_bucket hlt hnodup)]
  exact hplaced.mem_bucket_iff (e := (k, v)) hlt

theorem Placed.lookupKey_eq_none_iff (hplaced : Placed bucketOf n b)
    {k : κ} (hlt : bucketOf k < n) :
    lookupKey (b (bucketOf k)) k = none ↔
      k ∉ (entries n b).map Prod.fst := by
  rw [Support.lookupKey_eq_none_iff]
  constructor
  · intro hnone hmem
    obtain ⟨⟨k', v⟩, he, rfl⟩ := List.mem_map.mp hmem
    exact hnone (k', v) ((hplaced.mem_bucket_iff hlt).mpr he) rfl
  · intro hnot e he hek
    apply hnot
    exact List.mem_map.mpr ⟨e, mem_entries.mpr ⟨_, hlt, he⟩, hek⟩

end Uhs.Support
