import Mathlib.Data.List.Nodup
import Mathlib.Data.List.Range
import Mathlib.Logic.Function.Basic

/-!
# Chains of cells

A successor function on cells turns a pointer into the list of cells met from
it.  A family of such lists without common cells is kept by the three moves of
a linked structure: taking the first cell off a list, putting a cell in front
of a list, and unlinking an inner cell.
-/

namespace Uhs.Support

variable {α ι : Type*} {next : α → Option α}

/-- The cells met from a pointer up to the end of its list. -/
def Chain (next : α → Option α) : Option α → List α → Prop
  | p, [] => p = none
  | p, a :: l => p = some a ∧ Chain next (next a) l

/-- The first `fuel` cells met from a pointer. -/
def follow (next : α → Option α) : ℕ → Option α → List α
  | 0, _ => []
  | _ + 1, none => []
  | fuel + 1, some a => a :: follow next fuel (next a)

theorem Chain.follow_eq {p : Option α} {l : List α} {fuel : ℕ}
    (h : Chain next p l) (hfuel : l.length ≤ fuel) :
    follow next fuel p = l := by
  induction l generalizing p fuel with
  | nil =>
      have hp : p = none := h
      subst hp
      cases fuel with
      | zero => rfl
      | succ fuel => rfl
  | cons a l ih =>
      obtain ⟨hp, hrest⟩ := h
      subst hp
      cases fuel with
      | zero => simp at hfuel
      | succ fuel =>
          rw [follow, ih hrest (Nat.le_of_succ_le_succ hfuel)]

theorem Chain.congr {next' : α → Option α} {p : Option α} {l : List α}
    (h : Chain next p l) (hnext : ∀ a ∈ l, next' a = next a) :
    Chain next' p l := by
  induction l generalizing p with
  | nil => exact h
  | cons a l ih =>
      refine ⟨h.1, ?_⟩
      rw [hnext a List.mem_cons_self]
      exact ih h.2 fun b hb => hnext b (List.mem_cons_of_mem a hb)

theorem Chain.head?_eq {p : Option α} {l : List α} (h : Chain next p l) :
    l.head? = p := by
  cases l with
  | nil => exact Eq.symm h
  | cons a l => exact h.1.symm

theorem Chain.eq_cons {a : α} {l : List α} (h : Chain next (some a) l) :
    ∃ l', l = a :: l' := by
  cases l with
  | nil => exact absurd h (by simp [Chain])
  | cons b l =>
      obtain ⟨hb, -⟩ := h
      exact ⟨l, by rw [Option.some.inj hb]⟩

theorem Chain.eq_nil {l : List α} (h : Chain next none l) : l = [] := by
  cases l with
  | nil => rfl
  | cons b l => exact absurd h.1 (by simp)

/-- A chain after one of its cells. -/
theorem Chain.after {p : Option α} {pre post : List α} {a : α}
    (h : Chain next p (pre ++ a :: post)) : Chain next (next a) post := by
  induction pre generalizing p with
  | nil => exact h.2
  | cons b pre ih => exact ih h.2

variable [DecidableEq α]

/-- Leading the successor of a cell elsewhere replaces what follows it. -/
theorem Chain.redirect {p q : Option α} {pre post post' : List α} {a : α}
    (h : Chain next p (pre ++ a :: post)) (hpre : a ∉ pre)
    (hpost : a ∉ post') (hq : Chain next q post') :
    Chain (Function.update next a q) p (pre ++ a :: post') := by
  induction pre generalizing p with
  | nil =>
      refine ⟨h.1, ?_⟩
      rw [Function.update_self]
      refine hq.congr fun b hb => Function.update_of_ne ?_ _ _
      rintro rfl
      exact hpost hb
  | cons b pre ih =>
      refine ⟨h.1, ?_⟩
      have hb : b ≠ a := by
        rintro rfl
        exact hpre List.mem_cons_self
      rw [Function.update_of_ne hb]
      exact ih h.2 fun hmem => hpre (List.mem_cons_of_mem b hmem)

/-! ## Searching a chain -/

/-- Walk to the first cell that is `found` and return it with the cell before
it; `none` when the walk is still going on after `fuel` cells. -/
def search (found : α → Bool) (next : α → Option α) :
    ℕ → Option α → Option α → Option (Option α × Option α)
  | _, prev, none => some (prev, none)
  | 0, _, some _ => none
  | fuel + 1, prev, some cur =>
      if found cur then some (prev, some cur)
      else search found next fuel (some cur) (next cur)

omit [DecidableEq α] in
/-- Either nothing in a list is found or there is a first element that is. -/
theorem exists_first (found : α → Bool) (l : List α) :
    (∀ b ∈ l, found b = false) ∨ ∃ pre a post, l = pre ++ a :: post ∧
      (∀ b ∈ pre, found b = false) ∧ found a = true := by
  cases hfind : l.find? found with
  | none =>
      left
      simpa using hfind
  | some a =>
      right
      obtain ⟨ha, pre, post, hl, hpre⟩ :=
        List.find?_eq_some_iff_append.mp hfind
      exact ⟨pre, a, post, hl, by simpa using hpre, ha⟩

omit [DecidableEq α] in
/-- A search stops at the first cell that is found. -/
theorem search_of_split {found : α → Bool} {prev p : Option α}
    {pre post : List α} {a : α} {fuel : ℕ}
    (h : Chain next p (pre ++ a :: post)) (hpre : ∀ b ∈ pre, found b = false)
    (ha : found a = true) (hfuel : pre.length < fuel) :
    search found next fuel prev p = some (pre.getLast?.or prev, some a) := by
  induction pre generalizing p prev fuel with
  | nil =>
      obtain ⟨hp, -⟩ := h
      obtain ⟨fuel, rfl⟩ := Nat.exists_eq_succ_of_ne_zero (Nat.ne_of_gt hfuel)
      rw [hp, search, if_pos ha]
      rfl
  | cons b pre ih =>
      obtain ⟨hp, hrest⟩ := h
      obtain ⟨fuel, rfl⟩ := Nat.exists_eq_succ_of_ne_zero
        (Nat.ne_of_gt (Nat.zero_lt_of_lt hfuel))
      have hb := hpre b List.mem_cons_self
      rw [hp, search, hb, if_neg Bool.false_ne_true,
        ih hrest (fun c hc => hpre c (List.mem_cons_of_mem b hc))
          (Nat.lt_of_succ_lt_succ hfuel)]
      rw [List.getLast?_cons]
      cases pre.getLast? with
      | none => rfl
      | some c => rfl

omit [DecidableEq α] in
/-- A search without a cell to find runs to the end of the chain. -/
theorem search_of_forall {found : α → Bool} {prev p : Option α} {l : List α}
    {fuel : ℕ} (h : Chain next p l) (hl : ∀ b ∈ l, found b = false)
    (hfuel : l.length ≤ fuel) :
    ∃ last, search found next fuel prev p = some (last, none) := by
  induction l generalizing p prev fuel with
  | nil =>
      have hp : p = none := h
      subst hp
      refine ⟨prev, ?_⟩
      rw [search]
  | cons b l ih =>
      obtain ⟨hp, hrest⟩ := h
      subst hp
      cases fuel with
      | zero => simp at hfuel
      | succ fuel =>
          have hb := hl b List.mem_cons_self
          have hih : ∃ last,
              search found next fuel (some b) (next b) = some (last, none) :=
            ih hrest (fun c hc => hl c (List.mem_cons_of_mem b hc))
              (Nat.le_of_succ_le_succ hfuel)
          obtain ⟨last, hlast⟩ := hih
          refine ⟨last, ?_⟩
          rw [search, hb, if_neg Bool.false_ne_true, hlast]

/-! ## Freeing a chain -/

/-- Free the cells met from a pointer one by one, after reading the successor;
`none` when a cell is met that has been freed, or when the walk is still going
on after `fuel` cells. -/
def freeChain (next : α → Option α) :
    ℕ → Option α → List α → Option (List α)
  | _, none, freed => some freed
  | 0, some _, _ => none
  | fuel + 1, some cur, freed =>
      if cur ∈ freed then none
      else freeChain next fuel (next cur) (cur :: freed)

/-- A chain of cells that are not freed can be freed. -/
theorem Chain.freeChain_eq {p : Option α} {l freed : List α} {fuel : ℕ}
    (h : Chain next p l) (hnodup : l.Nodup) (hfreed : ∀ a ∈ l, a ∉ freed)
    (hfuel : l.length ≤ fuel) :
    freeChain next fuel p freed = some (l.reverse ++ freed) := by
  induction l generalizing p freed fuel with
  | nil =>
      have hp : p = none := h
      subst hp
      rw [freeChain]
      rfl
  | cons a l ih =>
      obtain ⟨hp, hrest⟩ := h
      subst hp
      obtain ⟨hnotMem, hl⟩ := List.nodup_cons.mp hnodup
      cases fuel with
      | zero => simp at hfuel
      | succ fuel =>
          have hfree : ∀ b ∈ l, b ∉ a :: freed := by
            intro b hb hmem
            rcases List.mem_cons.mp hmem with rfl | hmem
            · exact hnotMem hb
            · exact hfreed b (List.mem_cons_of_mem a hb) hmem
          rw [freeChain, if_neg (hfreed a List.mem_cons_self),
            ih hrest hl hfree (Nat.le_of_succ_le_succ hfuel),
            List.reverse_cons, List.append_assoc]
          rfl

/-! ## Families of chains -/

/-- A family of chains without common cells. -/
structure Chains (next : α → Option α) (head : ι → Option α)
    (lists : ι → List α) : Prop where
  chain : ∀ i, Chain next (head i) (lists i)
  nodup : ∀ i, (lists i).Nodup
  disjoint : ∀ i j a, a ∈ lists i → a ∈ lists j → i = j

variable {head : ι → Option α} {lists : ι → List α}

/-- A cell outside all lists may point anywhere. -/
theorem Chains.write (h : Chains next head lists) {a : α}
    (ha : ∀ i, a ∉ lists i) (q : Option α) :
    Chains (Function.update next a q) head lists where
  chain := by
    intro i
    refine (h.chain i).congr fun b hb => Function.update_of_ne ?_ _ _
    rintro rfl
    exact ha i hb
  nodup := h.nodup
  disjoint := h.disjoint

variable [DecidableEq ι]

omit [DecidableEq α] in
/-- Replacing one list by one whose cells were in no other list. -/
theorem Chains.replace (h : Chains next head lists) {next' : α → Option α}
    {i : ι} {p : Option α} {l : List α}
    (hnext : ∀ j, j ≠ i → ∀ a ∈ lists j, next' a = next a)
    (hchain : Chain next' p l) (hnodup : l.Nodup)
    (hcells : ∀ a ∈ l, ∀ j, a ∈ lists j → j = i) :
    Chains next' (Function.update head i p) (Function.update lists i l) where
  chain := by
    intro j
    by_cases hj : j = i
    · subst hj
      simpa using hchain
    · simpa [hj] using (h.chain j).congr (hnext j hj)
  nodup := by
    intro j
    by_cases hj : j = i
    · subst hj
      simpa using hnodup
    · simpa [hj] using h.nodup j
  disjoint := by
    intro j k a haj hak
    by_cases hj : j = i
    · by_cases hk : k = i
      · rw [hj, hk]
      · subst hj
        rw [Function.update_self] at haj
        rw [Function.update_of_ne hk] at hak
        exact absurd (hcells a haj k hak) hk
    · rw [Function.update_of_ne hj] at haj
      by_cases hk : k = i
      · subst hk
        rw [Function.update_self] at hak
        exact hcells a hak j haj
      · rw [Function.update_of_ne hk] at hak
        exact h.disjoint j k a haj hak

omit [DecidableEq α] in
/-- A cell of one list that its replacement lacks is in no list any more. -/
theorem Chains.notMem_update (h : Chains next head lists) {i : ι} {a : α}
    {l : List α} (ha : a ∈ lists i) (hl : a ∉ l) (j : ι) :
    a ∉ Function.update lists i l j := by
  by_cases hj : j = i
  · subst hj
    rw [Function.update_self]
    exact hl
  · rw [Function.update_of_ne hj]
    intro haj
    exact hj (h.disjoint j i a haj ha)

omit [DecidableEq α] in
/-- Taking the first cell off a list. -/
theorem Chains.pop (h : Chains next head lists) {i : ι} {a : α} {l : List α}
    (hi : lists i = a :: l) :
    Chains next (Function.update head i (next a)) (Function.update lists i l) ∧
      ∀ j, a ∉ Function.update lists i l j := by
  have hchain := h.chain i
  have hnodup := h.nodup i
  rw [hi] at hchain hnodup
  obtain ⟨hnotMem, hl⟩ := List.nodup_cons.mp hnodup
  have ha : a ∈ lists i := by simp [hi]
  constructor
  · refine h.replace (fun _ _ _ _ => rfl) hchain.2 hl fun b hb j hbj => ?_
    apply h.disjoint j i b hbj
    simp [hi, hb]
  · exact h.notMem_update ha hnotMem

/-- Putting a cell in front of a list. -/
theorem Chains.push (h : Chains next head lists) {a : α}
    (ha : ∀ j, a ∉ lists j) (i : ι) :
    Chains (Function.update next a (head i))
      (Function.update head i (some a))
      (Function.update lists i (a :: lists i)) := by
  have hwrite := h.write ha (head i)
  refine h.replace ?_ ?_ ?_ ?_
  · intro j _ b hb
    refine Function.update_of_ne ?_ _ _
    rintro rfl
    exact ha j hb
  · refine ⟨rfl, ?_⟩
    rw [Function.update_self]
    exact hwrite.chain i
  · exact List.nodup_cons.mpr ⟨ha i, h.nodup i⟩
  · intro b hb j hbj
    rcases List.mem_cons.mp hb with rfl | hb
    · exact absurd hbj (ha j)
    · exact h.disjoint j i b hbj hb

/-- Unlinking an inner cell. -/
theorem Chains.unlink (h : Chains next head lists) {i : ι} {prev cur : α}
    {pre post : List α} (hi : lists i = pre ++ prev :: cur :: post) :
    Chains (Function.update next prev (next cur)) head
        (Function.update lists i (pre ++ prev :: post)) ∧
      ∀ j, cur ∉ Function.update lists i (pre ++ prev :: post) j := by
  have hchain := h.chain i
  have hnodup := h.nodup i
  rw [hi] at hchain hnodup
  have hsub : (pre ++ prev :: post).Sublist (pre ++ prev :: cur :: post) :=
    List.Sublist.append_left ((List.sublist_cons_self cur post).cons_cons prev)
      pre
  obtain ⟨hpre, hpost, hdisj⟩ := List.nodup_append.mp hnodup
  have hprevPre : prev ∉ pre := fun hmem =>
    hdisj prev hmem prev List.mem_cons_self rfl
  have hcurPre : cur ∉ pre := fun hmem =>
    hdisj cur hmem cur (by simp) rfl
  simp only [List.nodup_cons, List.mem_cons, not_or] at hpost
  obtain ⟨⟨hne, hprevPost⟩, hcurPost, -⟩ := hpost
  have hcur : cur ∈ lists i := by simp [hi]
  constructor
  · have hreplaced : Chains (Function.update next prev (next cur))
        (Function.update head i (head i))
        (Function.update lists i (pre ++ prev :: post)) := by
      refine h.replace ?_ ?_ (hnodup.sublist hsub) ?_
      · intro j hj b hb
        refine Function.update_of_ne ?_ _ _
        rintro rfl
        apply hj
        apply h.disjoint j i b hb
        simp [hi]
      · have hafter := hchain.after
        exact hchain.redirect hprevPre hprevPost hafter.2
      · intro b hb j hbj
        apply h.disjoint j i b hbj
        rw [hi]
        exact hsub.subset hb
    rwa [Function.update_eq_self] at hreplaced
  · apply h.notMem_update hcur
    simp [hcurPre, hcurPost, Ne.symm hne]

end Uhs.Support
