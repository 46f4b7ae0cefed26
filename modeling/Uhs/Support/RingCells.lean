import Mathlib.Data.Set.Insert
import Uhs.Support.RingSlots

/-!
# Cells of a ring under writers and readers

Every cell has a flag that records whether it holds a value that nobody has
read.  The values written are numbered without end and value `p` goes to cell
`p % C`; as long as the numbers of the unread values lie less than `C` apart,
a write never meets an unread value and a read never misses one.
-/

namespace Uhs.Support

variable {α : Type*}

/-- The cells of a ring; `occupied` is the record of the unread ones. -/
structure RingCells (α : Type*) where
  cell : ℕ → α
  occupied : ℕ → Bool

namespace RingCells

/-- Write the cell `s`. -/
def put (r : RingCells α) (s : ℕ) (x : α) : RingCells α where
  cell := Function.update r.cell s x
  occupied := Function.update r.occupied s true

/-- Read the cell `s`. -/
def take (r : RingCells α) (s : ℕ) : RingCells α where
  cell := r.cell
  occupied := Function.update r.occupied s false

/-- The unread values are those with the numbers in `held`, all of them among
the `C` numbers before `hi`. -/
structure Holds (r : RingCells α) (C : ℕ) (values : List α) (held : Set ℕ)
    (hi : ℕ) : Prop where
  window : ∀ p ∈ held, p < hi ∧ hi ≤ p + C
  occupied : ∀ s < C, r.occupied s = true ↔ ∃ p ∈ held, p % C = s
  cell : ∀ p ∈ held, values[p]? = some (r.cell (p % C))

namespace Holds

variable {r : RingCells α} {C : ℕ} {values : List α} {held : Set ℕ}
  {hi p : ℕ}

/-- Unread values stand in different cells. -/
theorem inj (h : Holds r C values held hi) {q : ℕ} (hp : p < hi)
    (hwindow : hi ≤ p + C) (hq : q ∈ held) (heq : p % C = q % C) : p = q := by
  have hq' := h.window q hq
  exact slot_inj (w := hi - C) (by omega) (by omega) heq

/-- An unread value is there to be read. -/
theorem occupied_of_mem (h : Holds r C values held hi) (hp : p ∈ held) :
    r.occupied (p % C) = true := by
  have hwindow := h.window p hp
  exact (h.occupied _ (Nat.mod_lt p (by omega))).mpr ⟨p, hp, rfl⟩

/-- The cell of the next value to be written has been read. -/
theorem free_of_not_mem (h : Holds r C values held hi) (hp : p < hi)
    (hwindow : hi ≤ p + C) (hnot : p ∉ held) :
    r.occupied (p % C) = false := by
  rw [← Bool.not_eq_true]
  intro hocc
  obtain ⟨q, hq, heq⟩ := (h.occupied _ (Nat.mod_lt p (by omega))).mp hocc
  exact hnot (h.inj hp hwindow hq heq.symm ▸ hq)

/-- Writing value `p`. -/
theorem put (h : Holds r C values held hi) (hp : p < hi)
    (hwindow : hi ≤ p + C) (hnot : p ∉ held) {x : α}
    (hx : values[p]? = some x) :
    Holds (r.put (p % C) x) C values (insert p held) hi where
  window := by
    rintro q (rfl | hq)
    · exact ⟨hp, hwindow⟩
    · exact h.window q hq
  occupied := by
    intro s hs
    by_cases hsame : s = p % C
    · subst hsame
      simp only [RingCells.put, Function.update_self, true_iff]
      exact ⟨p, Set.mem_insert p held, rfl⟩
    · simp only [RingCells.put, Function.update_of_ne hsame, h.occupied s hs]
      constructor
      · rintro ⟨q, hq, heq⟩
        exact ⟨q, Set.mem_insert_of_mem p hq, heq⟩
      · rintro ⟨q, rfl | hq, heq⟩
        · exact absurd heq.symm hsame
        · exact ⟨q, hq, heq⟩
  cell := by
    rintro q (rfl | hq)
    · simpa only [RingCells.put, Function.update_self] using hx
    · have hne : q % C ≠ p % C := fun heq =>
        hnot (h.inj hp hwindow hq heq.symm ▸ hq)
      simpa only [RingCells.put, Function.update_of_ne hne] using h.cell q hq

/-- Reading value `p`. -/
theorem take (h : Holds r C values held hi) (hp : p ∈ held) :
    Holds (r.take (p % C)) C values (held \ {p}) hi where
  window := fun q hq => h.window q hq.1
  occupied := by
    intro s hs
    by_cases hsame : s = p % C
    · subst hsame
      simp only [RingCells.take, Function.update_self, Bool.false_eq_true,
        false_iff]
      rintro ⟨q, hq, heq⟩
      have hwindow := h.window p hp
      exact hq.2 (h.inj hwindow.1 hwindow.2 hq.1 heq.symm).symm
    · simp only [RingCells.take, Function.update_of_ne hsame,
        h.occupied s hs]
      constructor
      · rintro ⟨q, hq, heq⟩
        refine ⟨q, ⟨hq, ?_⟩, heq⟩
        rintro rfl
        exact hsame heq.symm
      · rintro ⟨q, hq, heq⟩
        exact ⟨q, hq.1, heq⟩
  cell := fun q hq => h.cell q hq.1

/-- More values may be announced, and the window may move with them. -/
theorem extend (h : Holds r C values held hi) {values' : List α} {hi' : ℕ}
    (hvalues : values <+: values') (hwindow : ∀ p ∈ held, hi' ≤ p + C)
    (hle : hi ≤ hi') : Holds r C values' held hi' where
  window := fun q hq => ⟨(h.window q hq).1.trans_le hle, hwindow q hq⟩
  occupied := h.occupied
  cell := by
    intro q hq
    obtain ⟨suffix, rfl⟩ := hvalues
    have hcell := h.cell q hq
    have hlt : q < values.length := by
      rw [List.getElem?_eq_some_iff] at hcell
      exact hcell.1
    rwa [List.getElem?_append_left hlt]

end Holds

end RingCells

end Uhs.Support
