import Mathlib.Algebra.Order.SuccPred
import Mathlib.Data.Nat.SuccPred
import Mathlib.Order.CompletePartialOrder
import Mathlib.Order.Interval.Set.Disjoint
import Mathlib.Order.SuccPred.IntervalSucc
import Uhs.Support.ByteBits
import Uhs.Support.Memory

/-!
# Copies into a byte memory

A write of a memory is a list of copies that are carried out in order, by any
function that copies; it changes no byte outside the ranges that they copy to.
Ranges laid out one behind the other, and the cells of an array, have no byte
in common.  A number takes its bytes with the lowest first.
-/

namespace Uhs.Support

/-! ## Ranges of addresses -/

/-- The `len` addresses from `start` on. -/
def bytesAt (start len : ℕ) : Set ℕ := Set.Ico start (start + len)

/-- Cell `i` of an array of cells of `size` bytes. -/
def cell (base size i : ℕ) : Set ℕ := bytesAt (base + size * i) size

variable {base size start start' len len' i j n a : ℕ}

theorem mem_bytesAt : a ∈ bytesAt start len ↔ start ≤ a ∧ a < start + len :=
  Iff.rfl

theorem bytesAt_subset (hstart : start' ≤ start)
    (hend : start + len ≤ start' + len') :
    bytesAt start len ⊆ bytesAt start' len' :=
  Set.Ico_subset_Ico hstart hend

theorem bytesAt_disjoint (h : start + len ≤ start') :
    Disjoint (bytesAt start len) (bytesAt start' len') := by
  rw [Set.disjoint_left]
  intro a ha ha'
  rw [mem_bytesAt] at ha ha'
  omega

/-- Different cells have no byte in common. -/
theorem cell_disjoint (h : i ≠ j) :
    Disjoint (cell base size i) (cell base size j) := by
  have hmono : Monotone fun i : ℕ => base + size * i := by
    intro i j hij
    exact Nat.add_le_add_left (Nat.mul_le_mul_left size hij) base
  have hcells := hmono.pairwise_disjoint_on_Ico_succ h
  simp only [Function.onFun, Order.succ_eq_add_one,
    Nat.mul_add_one, ← Nat.add_assoc] at hcells
  exact hcells

/-- The cells of an array of `n` cells lie in its `size * n` bytes. -/
theorem cell_subset (h : i < n) :
    cell base size i ⊆ bytesAt base (size * n) := by
  have hmul : size * (i + 1) ≤ size * n := Nat.mul_le_mul_left size h
  rw [Nat.mul_add_one] at hmul
  exact bytesAt_subset (Nat.le_add_right _ _) (by omega)

/-! ## Copies -/

/-- A call of `memcpy`: the first `len` bytes of `src` go to `dst`. -/
structure Copy where
  dst : ℕ
  src : ByteMemory
  len : ℕ

/-- The addresses that are copied to. -/
def Copy.bytes (copy : Copy) : Set ℕ := bytesAt copy.dst copy.len

/-- The `len` bytes of a copy from its byte `start` on. -/
def Copy.part (copy : Copy) (start len : ℕ) : Copy where
  dst := copy.dst + start
  src := fun a => copy.src (start + a)
  len := len

/-- What a copying function does: it copies `len` bytes of `src` to `dst` and
changes no others. -/
structure CopiesBytes
    (copyTo : ByteMemory → ℕ → ByteMemory → ℕ → ByteMemory) : Prop where
  inside : ∀ m dst src len, ∀ d < len, copyTo m dst src len (dst + d) = src d
  outside : ∀ m dst src len, ∀ a ∉ bytesAt dst len,
    copyTo m dst src len a = m a

theorem copiesBytes_memcpy :
    CopiesBytes fun m dst src len => memcpy m dst src 0 len where
  inside m dst src len d hd := by
    rw [memcpy, if_pos ⟨by omega, by omega⟩, Nat.add_sub_cancel_left,
      Nat.zero_add]
  outside _ _ _ _ _ ha := if_neg ha

/-- Carry out copies in order. -/
def runCopies (copyTo : ByteMemory → ℕ → ByteMemory → ℕ → ByteMemory)
    (m : ByteMemory) (copies : List Copy) : ByteMemory :=
  copies.foldl (fun m copy => copyTo m copy.dst copy.src copy.len) m

variable {copyTo : ByteMemory → ℕ → ByteMemory → ℕ → ByteMemory}
  {m m' : ByteMemory} {copy : Copy} {copies : List Copy}

/-- Copies change no byte outside the ranges that they copy to. -/
theorem CopiesBytes.runCopies_of_notMem (hcopy : CopiesBytes copyTo)
    (h : ∀ copy ∈ copies, a ∉ copy.bytes) :
    runCopies copyTo m copies a = m a := by
  induction copies generalizing m with
  | nil => rfl
  | cons copy copies ih =>
      obtain ⟨hfirst, hrest⟩ := List.forall_mem_cons.mp h
      exact (ih hrest).trans (hcopy.outside m _ _ _ a hfirst)

theorem CopiesBytes.apply (hcopy : CopiesBytes copyTo) (m : ByteMemory)
    (dst : ℕ) (src : ByteMemory) (len a : ℕ) :
    copyTo m dst src len a =
      if dst ≤ a ∧ a < dst + len then src (a - dst) else m a := by
  split_ifs with hin
  · obtain ⟨d, rfl⟩ := Nat.exists_eq_add_of_le hin.1
    rw [Nat.add_sub_cancel_left]
    exact hcopy.inside m dst src len d (by omega)
  · exact hcopy.outside m dst src len a hin

/-- A copy is made by any cells that it is cut into, one after the other. -/
theorem CopiesBytes.runCopies_parts (hcopy : CopiesBytes copyTo)
    (m : ByteMemory) (copy : Copy) (size n : ℕ) :
    runCopies copyTo m
        ((List.range n).map fun i => copy.part (size * i) size) =
      copyTo m copy.dst copy.src (size * n) := by
  induction n with
  | zero =>
      funext a
      rw [hcopy.apply, if_neg (by omega)]
      rfl
  | succ n ih =>
      rw [List.range_succ, List.map_append, runCopies, List.foldl_append]
      change copyTo (runCopies copyTo m _) _ _ _ = _
      rw [ih]
      funext a
      simp only [hcopy.apply, Copy.part, Nat.mul_add_one]
      split_ifs <;>
        first | rfl | omega | exact congrArg copy.src (by omega)

/-- A copy of `n` whole cells of an array, from cell `d` on. -/
theorem CopiesBytes.array (hcopy : CopiesBytes copyTo) (src : ByteMemory)
    {d b t : ℕ} (ht : t < size) :
    copyTo m (base + size * d) src (size * n) (base + size * b + t) =
      if d ≤ b ∧ b < d + n then src (size * (b - d) + t)
      else m (base + size * b + t) := by
  have hlow := element_le_iff ht d b
  have hhigh := element_le_iff ht (d + n) b
  rw [Nat.add_mul, Nat.mul_comm d, Nat.mul_comm n, Nat.mul_comm b] at hhigh
  rw [Nat.mul_comm d, Nat.mul_comm b] at hlow
  split_ifs with hin
  · have hle := Nat.mul_le_mul_left size hin.1
    have hsub := Nat.mul_sub size b d
    have haddr : base + size * b + t =
        base + size * d + (size * (b - d) + t) := by omega
    rw [haddr]
    apply hcopy.inside
    omega
  · apply hcopy.outside
    rw [mem_bytesAt]
    omega

/-! ## Numbers -/

/-- Byte `i` of a number. -/
def byteOf (v i : ℕ) : BitVec 8 := BitVec.ofNat 8 (v / 256 ^ i)

/-- The number in the `n` bytes from `a` on. -/
def readNumber (m : ByteMemory) (a : ℕ) : ℕ → ℕ
  | 0 => 0
  | n + 1 => (m a).toNat + 256 * readNumber m (a + 1) n

theorem readNumber_congr (h : ∀ b ∈ bytesAt a n, m' b = m b) :
    readNumber m' a n = readNumber m a n := by
  induction n generalizing a with
  | zero => rfl
  | succ n ih =>
      rw [readNumber, readNumber, h a ⟨le_rfl, by omega⟩]
      rw [ih fun b hb => h b ⟨by have := hb.1; omega, by have := hb.2; omega⟩]

theorem byteOf_succ (v i : ℕ) : byteOf v (i + 1) = byteOf (v / 256) i := by
  rw [byteOf, byteOf, Nat.pow_succ', Nat.div_div_eq_div_mul]

/-- What is read of the bytes of a number. -/
theorem readNumber_of_bytes {v : ℕ}
    (h : ∀ i < n, m (a + i) = byteOf v i) :
    readNumber m a n = v % 256 ^ n := by
  induction n generalizing a v with
  | zero => rw [readNumber, Nat.pow_zero, Nat.mod_one]
  | succ n ih =>
      have hfirst : m a = byteOf v 0 := h 0 (by omega)
      have hrest : ∀ i < n, m (a + 1 + i) = byteOf (v / 256) i := by
        intro i hi
        rw [← byteOf_succ, ← h (i + 1) (by omega), Nat.add_assoc,
          Nat.add_comm 1]
      have hvalue : v % 256 ^ (n + 1) =
          v % 256 + 256 * (v / 256 % 256 ^ n) := by
        rw [Nat.pow_succ', Nat.mod_mul]
      rw [readNumber, ih hrest, hfirst, byteOf, BitVec.toNat_ofNat,
        Nat.pow_zero, Nat.div_one, hvalue]

theorem readNumber_injective
    (heq : readNumber m a n = readNumber m' a n) :
    ∀ b ∈ bytesAt a n, m b = m' b := by
  induction n generalizing a with
  | zero => exact fun b hb => absurd hb.2 (Nat.not_lt.mpr hb.1)
  | succ n ih =>
      rw [readNumber, readNumber] at heq
      have hm := (m a).isLt
      have hm' := (m' a).isLt
      intro b hb
      rcases eq_or_lt_of_le hb.1 with hfirst | hrest
      · subst hfirst
        exact BitVec.eq_of_toNat_eq (by omega)
      · have htail : readNumber m (a + 1) n = readNumber m' (a + 1) n := by
          omega
        exact ih htail b ⟨hrest, by have := hb.2; omega⟩

theorem readNumber_lt (m : ByteMemory) (a n : ℕ) :
    readNumber m a n < 256 ^ n := by
  induction n generalizing a with
  | zero => simp [readNumber]
  | succ n ih =>
      have hfirst := (m a).isLt
      have hrest := ih (a + 1)
      rw [readNumber, Nat.pow_succ']
      omega

end Uhs.Support
