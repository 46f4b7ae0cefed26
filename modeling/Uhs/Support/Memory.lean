import Mathlib.Data.List.Basic
import Mathlib.Algebra.Order.Ring.Nat

/-!
# Byte memories seen as arrays of elements

A memory is a function of the address.  Read in chunks of `e` addresses it is
an array of elements, and a copy of whole elements is a copy of that array.
-/

namespace Uhs.Support

variable {β : Type*}

/-- Copy `n` bytes from `src + s` to `dst + d`. -/
def memcpy (dst : ℕ → β) (d : ℕ) (src : ℕ → β) (s n : ℕ) : ℕ → β :=
  fun i => if d ≤ i ∧ i < d + n then src (s + (i - d)) else dst i

/-- Element `i` of a memory that holds elements of `e` bytes. -/
def element (e : ℕ) (memory : ℕ → β) (i : ℕ) : List β :=
  (List.range e).map fun t => memory (i * e + t)

theorem element_congr {e : ℕ} {memory memory' : ℕ → β} {i j : ℕ}
    (h : ∀ t < e, memory (i * e + t) = memory' (j * e + t)) :
    element e memory i = element e memory' j :=
  List.map_congr_left fun t ht => h t (List.mem_range.mp ht)

/-- An address of an element starts no earlier than the element. -/
theorem element_le_iff {e t : ℕ} (ht : t < e) (d i : ℕ) :
    d * e ≤ i * e + t ↔ d ≤ i := by
  constructor
  · intro h
    by_contra hlt
    have hmul : (i + 1) * e ≤ d * e := Nat.mul_le_mul_right e (by omega)
    rw [Nat.add_mul] at hmul
    omega
  · intro h
    exact (Nat.mul_le_mul_right e h).trans (Nat.le_add_right _ _)

/-- A copy of `n` whole elements. -/
theorem element_memcpy {e : ℕ} {dst src : ℕ → β} {d d' s s' n n' : ℕ}
    (hd : d' = d * e) (hs : s' = s * e) (hn : n' = n * e) (i : ℕ) :
    element e (memcpy dst d' src s' n') i =
      if d ≤ i ∧ i < d + n then element e src (s + (i - d))
      else element e dst i := by
  subst hd hs hn
  have hin : ∀ t < e, (d * e ≤ i * e + t ∧ i * e + t < d * e + n * e) ↔
      (d ≤ i ∧ i < d + n) := by
    intro t ht
    have hlow := element_le_iff ht d i
    have hhigh := element_le_iff ht (d + n) i
    rw [Nat.add_mul] at hhigh
    omega
  split_ifs with hi
  · apply element_congr
    intro t ht
    rw [memcpy, if_pos ((hin t ht).mpr hi)]
    congr 1
    have hmul : (s + (i - d)) * e = s * e + (i * e - d * e) := by
      rw [Nat.add_mul, Nat.sub_mul]
    have hle : d * e ≤ i * e := Nat.mul_le_mul_right e hi.1
    omega
  · apply element_congr
    intro t ht
    rw [memcpy, if_neg (mt (hin t ht).mp hi)]

/-- Every byte is a byte of an element. -/
theorem eq_of_element_eq {e : ℕ} (he : 0 < e) {memory memory' : ℕ → β}
    (h : ∀ i, element e memory i = element e memory' i) :
    memory = memory' := by
  funext a
  have hat := List.map_inj_left.mp (h (a / e)) (a % e)
    (List.mem_range.mpr (Nat.mod_lt a he))
  rwa [Nat.mul_comm, Nat.div_add_mod] at hat

end Uhs.Support
