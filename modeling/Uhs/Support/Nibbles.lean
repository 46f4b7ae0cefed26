import Uhs.Support.ByteBits

/-!
# Nibbles and words of a byte memory

Two counters of four bits share a byte: from a base address on, the even
counter of a pair is its high nibble and the odd one its low nibble.  A word
of 32 bits takes four bytes, the lowest first.  What an update of a byte or of
a word leaves alone is stated here once for all its users.
-/

namespace Uhs.Support

/-- The nibble of a byte for counter `i`. -/
def half (n : BitVec 8) (i : ℕ) : ℕ :=
  if i % 2 ≠ 0 then (n &&& 0x0f#8).toNat else ((n &&& 0xf0#8) >>> 4).toNat

/-- Counter `i` behind the address `base`. -/
def nibble (m : ByteMemory) (base i : ℕ) : ℕ := half (m (i / 2 + base)) i

theorem low_lt (n : BitVec 8) : (n &&& 0x0f#8).toNat < 16 := by
  revert n
  decide +kernel

theorem high_lt (n : BitVec 8) : ((n &&& 0xf0#8) >>> 4).toNat < 16 := by
  revert n
  decide +kernel

theorem half_lt (n : BitVec 8) (i : ℕ) : half n i < 16 := by
  rw [half]
  split_ifs
  · exact low_lt n
  · exact high_lt n

theorem nibble_lt (m : ByteMemory) (base i : ℕ) : nibble m base i < 16 :=
  half_lt _ i

theorem nibble_congr {m m' : ByteMemory} {base i : ℕ}
    (h : m' (i / 2 + base) = m (i / 2 + base)) :
    nibble m' base i = nibble m base i := by
  rw [nibble, h, nibble]

theorem half_of_odd {n : BitVec 8} {i : ℕ} (hi : i % 2 ≠ 0) :
    half n i = (n &&& 0x0f#8).toNat :=
  if_pos hi

theorem half_of_even {n : BitVec 8} {i : ℕ} (hi : ¬ i % 2 ≠ 0) :
    half n i = ((n &&& 0xf0#8) >>> 4).toNat :=
  if_neg hi

/-- Counter `i` becomes `v`; all other counters and all bytes but its own stay
as they are. -/
structure UpdatesNibble (base i v : ℕ) (m m' : ByteMemory) : Prop where
  self : nibble m' base i = v
  other : ∀ j, j ≠ i → nibble m' base j = nibble m base j
  byte : ∀ a, a ≠ i / 2 + base → m' a = m a

theorem UpdatesNibble.refl (base i : ℕ) (m : ByteMemory) :
    UpdatesNibble base i (nibble m base i) m m :=
  ⟨rfl, fun _ _ => rfl, fun _ _ => rfl⟩

/-- A byte that changes in the nibble of counter `i` alone. -/
theorem updatesNibble_update {m : ByteMemory} {base i v : ℕ} {n : BitVec 8}
    (hself : half n i = v)
    (hother : half n (i + 1) = half (m (i / 2 + base)) (i + 1)) :
    UpdatesNibble base i v m (Function.update m (i / 2 + base) n) where
  self := by rw [nibble, Function.update_self, hself]
  other := by
    intro j hj
    by_cases hbyte : j / 2 = i / 2
    · -- the two counters share the byte, so `j` has the parity of `i + 1`
      have hhalf : ∀ n : BitVec 8, half n j = half n (i + 1) := by
        intro n
        have hparity : j % 2 = (i + 1) % 2 := by omega
        rw [half, half, hparity]
      rw [nibble, nibble, hbyte, Function.update_self, hhalf, hhalf, hother]
    · apply nibble_congr
      apply Function.update_of_ne
      omega
  byte := fun a ha => Function.update_of_ne ha n m

/-- Updates of different counters, one after the other. -/
theorem foldl_updatesNibble {S : Type*} {memory : S → ByteMemory}
    {step : S → ℕ → S} {base : ℕ} {f : ℕ → ℕ}
    (hstep : ∀ s i, UpdatesNibble base i (f (nibble (memory s) base i))
      (memory s) (memory (step s i)))
    {is : List ℕ} (hnodup : is.Nodup) (s : S) (j : ℕ) :
    nibble (memory (is.foldl step s)) base j =
      if j ∈ is then f (nibble (memory s) base j)
      else nibble (memory s) base j := by
  induction is generalizing s with
  | nil => rfl
  | cons i is ih =>
      obtain ⟨hi, htail⟩ := List.nodup_cons.mp hnodup
      rw [List.foldl_cons, ih htail]
      by_cases hj : j = i
      · subst hj
        rw [if_neg hi, if_pos List.mem_cons_self, (hstep s j).self]
      · simp only [List.mem_cons, hj, false_or, (hstep s i).other j hj]

/-- Updates of counters leave the bytes below the base alone. -/
theorem foldl_updatesNibble_below {S : Type*} {memory : S → ByteMemory}
    {step : S → ℕ → S} {base : ℕ} {f : ℕ → ℕ}
    (hstep : ∀ s i, UpdatesNibble base i (f (nibble (memory s) base i))
      (memory s) (memory (step s i)))
    (is : List ℕ) (s : S) {a : ℕ} (ha : a < base) :
    memory (is.foldl step s) a = memory s a := by
  induction is generalizing s with
  | nil => rfl
  | cons i is ih =>
      rw [List.foldl_cons, ih]
      exact (hstep s i).byte a (by omega)

/-! ## Words -/

/-- The word at address `a`. -/
def readWord (m : ByteMemory) (a : ℕ) : BitVec 32 :=
  m (a + 3) ++ m (a + 2) ++ m (a + 1) ++ m a

/-- Store a word at address `a`. -/
def writeWord (m : ByteMemory) (a : ℕ) (w : BitVec 32) : ByteMemory :=
  fun b => if a ≤ b ∧ b < a + 4 then w.extractLsb' (8 * (b - a)) 8 else m b

theorem writeWord_of_outside {m : ByteMemory} {a b : ℕ} (w : BitVec 32)
    (h : b < a ∨ a + 4 ≤ b) : writeWord m a w b = m b := by
  rw [writeWord, if_neg (by omega)]

theorem writeWord_byte (m : ByteMemory) (a : ℕ) (w : BitVec 32) {d : ℕ}
    (hd : d < 4) : writeWord m a w (a + d) = w.extractLsb' (8 * d) 8 := by
  rw [writeWord, if_pos ⟨by omega, by omega⟩, Nat.add_sub_cancel_left]

@[simp] theorem readWord_writeWord (m : ByteMemory) (a : ℕ) (w : BitVec 32) :
    readWord (writeWord m a w) a = w := by
  have hzero := writeWord_byte m a w (by decide : 0 < 4)
  rw [Nat.add_zero] at hzero
  rw [readWord, writeWord_byte m a w (by decide : 3 < 4),
    writeWord_byte m a w (by decide : 2 < 4),
    writeWord_byte m a w (by decide : 1 < 4), hzero]
  apply BitVec.eq_of_getLsbD_eq
  intro i hi
  simp only [BitVec.getLsbD_append, BitVec.getLsbD_extractLsb']
  by_cases h₁ : i < 8
  · simp [h₁]
  · by_cases h₂ : i - 8 < 8
    · rw [if_neg h₁, if_pos h₂, show 8 * 1 + (i - 8) = i by omega]
      simp [h₂]
    · by_cases h₃ : i - 8 - 8 < 8
      · rw [if_neg h₁, if_neg h₂, if_pos h₃,
          show 8 * 2 + (i - 8 - 8) = i by omega]
        simp [h₃]
      · have h₄ : i - 8 - 8 - 8 < 8 := by omega
        rw [if_neg h₁, if_neg h₂, if_neg h₃,
          show 8 * 3 + (i - 8 - 8 - 8) = i by omega]
        simp [h₄]

theorem readWord_congr {m m' : ByteMemory} {a : ℕ}
    (h : ∀ b, a ≤ b → b < a + 4 → m' b = m b) :
    readWord m' a = readWord m a := by
  rw [readWord, readWord, h (a + 3) (by omega) (by omega),
    h (a + 2) (by omega) (by omega), h (a + 1) (by omega) (by omega),
    h a le_rfl (by omega)]

end Uhs.Support
