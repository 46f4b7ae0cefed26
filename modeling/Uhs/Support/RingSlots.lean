import Mathlib.Order.Interval.Finset.Nat

/-!
# Slots of a ring

Positions are counted without end and position `p` stands in slot `p % C`.
Positions less than `C` apart stand in different slots, so what is written
to the next positions leaves the earlier ones in the window alone.
-/

namespace Uhs.Support

variable {α : Type*} {C : ℕ}

/-- Positions of one window of the ring have slots of their own. -/
theorem slot_inj {w p q : ℕ} (hp : w ≤ p ∧ p < w + C)
    (hq : w ≤ q ∧ q < w + C) (h : p % C = q % C) : p = q := by
  apply Nat.mod_injOn_Ico w C
  · simpa using hp
  · simpa using hq
  · exact h

/-- A counter that wraps at a multiple of the capacity counts the slots. -/
theorem slot_wrap {W : ℕ} (h : C ∣ W) (p i : ℕ) :
    (p % W + i) % C = (p + i) % C := by
  rw [Nat.add_mod, Nat.mod_mod_of_dvd _ h, ← Nat.add_mod]

/-- The slots that follow a position wrap once around the ring. -/
theorem slot_offset {off i : ℕ} (hi : i < C) :
    (if off % C + i < C then off % C + i else off % C + i - C) =
      (off + i) % C := by
  have hoff := Nat.mod_lt off (show 0 < C by omega)
  rw [Nat.add_mod, Nat.mod_eq_of_lt hi]
  split_ifs with h
  · exact (Nat.mod_eq_of_lt h).symm
  · have hwrap : C ≤ off % C + i := by omega
    have hlt : off % C + i - C < C := by omega
    rw [Nat.mod_eq_sub_mod hwrap, Nat.mod_eq_of_lt hlt]

/-- The ring after `n` values have been written from position `off` on. -/
def fill (C : ℕ) (slots : ℕ → α) (off : ℕ) (values : ℕ → α) : ℕ → ℕ → α
  | 0 => slots
  | n + 1 => Function.update (fill C slots off values n) ((off + n) % C)
      (values n)

theorem fill_of_ne {slots values : ℕ → α} {off n s : ℕ}
    (h : ∀ i < n, (off + i) % C ≠ s) :
    fill C slots off values n s = slots s := by
  induction n with
  | zero => rfl
  | succ n ih =>
      rw [fill, Function.update_of_ne (h n (Nat.lt_succ_self n)).symm,
        ih fun i hi => h i (Nat.lt_succ_of_lt hi)]

/-- A fill depends on the slots it leaves alone only. -/
theorem fill_congr {slots slots' values : ℕ → α} {off n s : ℕ}
    (h : ∀ p < C, slots p = slots' p) (hs : s < C) :
    fill C slots off values n s = fill C slots' off values n s := by
  induction n with
  | zero => exact h s hs
  | succ n ih =>
      by_cases hlast : s = (off + n) % C
      · rw [fill, fill, hlast, Function.update_self, Function.update_self]
      · rw [fill, fill, Function.update_of_ne hlast,
          Function.update_of_ne hlast, ih]

theorem fill_slot (slots values : ℕ → α) (off : ℕ) {n i : ℕ} (hi : i < n)
    (hn : n ≤ C) :
    fill C slots off values n ((off + i) % C) = values i := by
  induction n with
  | zero => exact absurd hi (Nat.not_lt_zero i)
  | succ n ih =>
      rw [fill]
      by_cases hlast : i = n
      · rw [hlast, Function.update_self]
      · rw [Function.update_of_ne, ih (by omega) (by omega)]
        intro heq
        have hpos := slot_inj (w := off) (by omega) (by omega) heq
        omega

/-- The slots of a fill, by their distance from its first one. -/
theorem fill_eq {slots values : ℕ → α} {off n s : ℕ} (hn : n ≤ C)
    (hs : s < C) :
    fill C slots off values n s =
      if off % C ≤ s ∧ s < off % C + n then values (s - off % C)
      else if s + C < off % C + n then values (s + C - off % C)
      else slots s := by
  have hoff := Nat.mod_lt off (show 0 < C by omega)
  split_ifs with hfirst hsecond
  · have hat := fill_slot slots values off (i := s - off % C) (n := n)
      (by omega) hn
    rwa [← slot_offset (by omega), if_pos (by omega),
      Nat.add_sub_cancel' hfirst.1] at hat
  · have hat := fill_slot slots values off (i := s + C - off % C)
      (n := n) (by omega) hn
    rwa [← slot_offset (by omega), if_neg (by omega),
      show off % C + (s + C - off % C) - C = s by omega] at hat
  · apply fill_of_ne
    intro i hi
    rw [← slot_offset (by omega)]
    split_ifs <;> omega

end Uhs.Support
