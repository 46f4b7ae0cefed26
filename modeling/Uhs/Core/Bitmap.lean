import Uhs.Support.ByteBits
import Uhs.Support.CyclicSearch

/-!
# The segment bitmap

Model of `mix_bitmap.c`.  The array is a byte memory: an access outside the
allocation is undefined in C, here it meets ordinary memory.  Where an
operation of the source does not return (a search that never ends, a division
by zero) the model gives `none`.
-/

namespace Uhs

open Support

/-- `BITS_PER_BYTE`. -/
def bitsPerByte : ℕ := 8

/-- `mix_bitmap_t`; its `nvm_offset` and `rwlock` are never read. -/
structure MixBitmap where
  array : ByteMemory
  bytes : ℕ
  nextBit : ℕ

/-- `mix_bitmap_init`. -/
def mixBitmapInit (bytes : ℕ) : MixBitmap where
  array := fun _ => 0#8
  bytes := bytes / bitsPerByte
  nextBit := 0

/-- `mix_bitmap_test_bit`. -/
def mixBitmapTestBit (bitmap : MixBitmap) (nr : ℕ) : Bool :=
  testBit bitmap.array nr

/-- `mix_bitmap_set_bit`: the old value of the bit and the new bitmap. -/
def mixBitmapSetBit (bitmap : MixBitmap) (nr : ℕ) : Bool × MixBitmap :=
  (testBit bitmap.array nr, { bitmap with array := setBit bitmap.array nr })

/-- `mix_bitmap_clear_bit`: the old value of the bit and the new bitmap. -/
def mixBitmapClearBit (bitmap : MixBitmap) (nr : ℕ) : Bool × MixBitmap :=
  (testBit bitmap.array nr, { bitmap with array := clearBit bitmap.array nr })

/-- `mix_bitmap_clear`. -/
def mixBitmapClear (bitmap : MixBitmap) : MixBitmap :=
  { bitmap with
    array := zeroBytes bitmap.array bitmap.bytes
    nextBit := 0 }

/-- Number of bits that the allocator cycles through. -/
def MixBitmap.bits (bitmap : MixBitmap) : ℕ := bitmap.bytes * bitsPerByte

/-- `mix_bitmap_next_zero_bit`: the slot, or `-1`, and the new bitmap. -/
def mixBitmapNextZeroBit (bitmap : MixBitmap) : Option (ℤ × MixBitmap) :=
  if bitmap.bits = 0 then
    none
  else
    let nextZeroBit := bitmap.nextBit
    if !mixBitmapTestBit bitmap nextZeroBit then
      let (old, marked) := mixBitmapSetBit bitmap nextZeroBit
      if !old then
        some (nextZeroBit,
          { marked with nextBit := (nextZeroBit + 1) % bitmap.bits })
      else
        some (-1, marked)
    else
      -- `none` once the cursor has gone round: the C loop does not end then
      (cyclicSearch (mixBitmapTestBit bitmap) bitmap.bits bitmap.bits
        nextZeroBit).bind fun nextZeroBit =>
        let (old, marked) := mixBitmapSetBit bitmap nextZeroBit
        if !old then
          -- the source divides here where the other branch takes the remainder
          some (nextZeroBit,
            { marked with nextBit := (nextZeroBit + 1) / bitmap.bits })
        else
          some (-1, marked)

/-! ## What one allocation does -/

/-- A bitmap of `n` bits whose cursor is in range. -/
structure MixBitmap.Ready (bitmap : MixBitmap) (n : ℕ) : Prop where
  bits_eq : bitmap.bits = n
  one_lt : 1 < n
  nextBit_lt : bitmap.nextBit < n

variable {bitmap : MixBitmap} {n : ℕ}

theorem mixBitmapNextZeroBit_of_clear (hready : bitmap.Ready n)
    (hclear : testBit bitmap.array bitmap.nextBit = false) :
    mixBitmapNextZeroBit bitmap =
      some ((bitmap.nextBit : ℤ),
        { bitmap with
          array := setBit bitmap.array bitmap.nextBit
          nextBit := (bitmap.nextBit + 1) % n }) := by
  have hone := hready.one_lt
  have hbits : ¬ n = 0 := by omega
  simp [mixBitmapNextZeroBit, mixBitmapTestBit, mixBitmapSetBit, hclear,
    hready.bits_eq, hbits]

theorem mixBitmapNextZeroBit_of_set (hready : bitmap.Ready n)
    (hset : testBit bitmap.array bitmap.nextBit = true) :
    mixBitmapNextZeroBit bitmap =
      (cyclicSearch (testBit bitmap.array) n n bitmap.nextBit).map fun s : ℕ =>
        ((s : ℤ), { bitmap with
          array := setBit bitmap.array s
          nextBit := (s + 1) / n }) := by
  have hone := hready.one_lt
  have hbits : ¬ n = 0 := by omega
  simp only [mixBitmapNextZeroBit, hready.bits_eq, hbits, if_false,
    mixBitmapTestBit, hset, Bool.not_true, Bool.false_eq_true]
  change (cyclicSearch (testBit bitmap.array) n n bitmap.nextBit).bind _ = _
  cases hfound : cyclicSearch (testBit bitmap.array) n n bitmap.nextBit with
  | none => rfl
  | some s =>
      have hfalse : testBit bitmap.array s = false :=
        cyclicSearch_false hready.nextBit_lt hfound
      simp [mixBitmapSetBit, hfalse]

/-- Slot `s` is the first clear bit from the cursor on, in cyclic order. -/
def MixBitmap.IsNextClear (bitmap : MixBitmap) (n s : ℕ) : Prop :=
  testBit bitmap.array s = false ∧
    ∃ d < n, s = (bitmap.nextBit + d) % n ∧
      ∀ e < d, testBit bitmap.array ((bitmap.nextBit + e) % n) = true

instance (n s : ℕ) : Decidable (bitmap.IsNextClear n s) :=
  inferInstanceAs (Decidable (_ ∧ ∃ d < n, _ ∧ ∀ e < d, _))

theorem MixBitmap.IsNextClear.lt {s : ℕ} (h : bitmap.IsNextClear n s) :
    s < n := by
  obtain ⟨-, d, hd, rfl, -⟩ := h
  exact Nat.mod_lt _ (by omega)

/-- The first clear bit is unique. -/
theorem MixBitmap.IsNextClear.unique {s s' : ℕ} (h : bitmap.IsNextClear n s)
    (h' : bitmap.IsNextClear n s') : s = s' := by
  obtain ⟨hs, d, -, rfl, hd⟩ := h
  obtain ⟨hs', d', -, rfl, hd'⟩ := h'
  rcases lt_trichotomy d d' with hlt | rfl | hgt
  · exact absurd (hd' d hlt) (by simp [hs])
  · rfl
  · exact absurd (hd d' hgt) (by simp [hs'])

/-- A returned slot is the first clear bit, and only this bit is set; the
cursor moves on by one when it stood on that bit. -/
theorem mixBitmapNextZeroBit_spec (hready : bitmap.Ready n)
    {slot : ℤ} {bitmap' : MixBitmap}
    (h : mixBitmapNextZeroBit bitmap = some (slot, bitmap')) :
    ∃ s : ℕ, slot = s ∧ bitmap.IsNextClear n s ∧
      bitmap'.array = setBit bitmap.array s ∧ bitmap'.Ready n ∧
      (testBit bitmap.array bitmap.nextBit = false →
        bitmap'.nextBit = (bitmap.nextBit + 1) % n) := by
  have hone := hready.one_lt
  have hlt := hready.nextBit_lt
  cases hbit : testBit bitmap.array bitmap.nextBit with
  | false =>
      rw [mixBitmapNextZeroBit_of_clear hready hbit] at h
      simp only [Option.some.injEq, Prod.mk.injEq] at h
      obtain ⟨rfl, rfl⟩ := h
      refine ⟨bitmap.nextBit, rfl, ⟨hbit, 0, by omega, ?_, by simp⟩, rfl,
        ⟨hready.bits_eq, hone, Nat.mod_lt _ (by omega)⟩, fun _ => rfl⟩
      exact (Nat.mod_eq_of_lt hlt).symm
  | true =>
      rw [mixBitmapNextZeroBit_of_set hready hbit,
        Option.map_eq_some_iff] at h
      obtain ⟨s, hfound, h⟩ := h
      simp only [Prod.mk.injEq] at h
      obtain ⟨rfl, rfl⟩ := h
      obtain ⟨d, hd, hs, hfalse, hbefore⟩ := cyclicSearch_spec hlt hfound
      refine ⟨s, rfl, ⟨hfalse, d, hd, hs, hbefore⟩, rfl,
        ⟨hready.bits_eq, hone, ?_⟩, fun hclear => ?_⟩
      swap
      · exact Bool.noConfusion hclear
      have hslt := cyclicSearch_lt hlt hfound
      have hdiv : (s + 1) / n ≤ 1 := Nat.div_le_of_le_mul (by omega)
      exact lt_of_le_of_lt hdiv hone

/-- The search for a clear bit ends when there is one. -/
theorem mixBitmapNextZeroBit_isSome (hready : bitmap.Ready n)
    (hexists : ∃ s < n, testBit bitmap.array s = false) :
    ∃ slot bitmap', mixBitmapNextZeroBit bitmap = some (slot, bitmap') := by
  cases hbit : testBit bitmap.array bitmap.nextBit with
  | false => exact ⟨_, _, mixBitmapNextZeroBit_of_clear hready hbit⟩
  | true =>
      obtain ⟨s, hs, hfalse⟩ := hexists
      obtain ⟨found, hfound⟩ :=
        cyclicSearch_isSome_of_exists hready.nextBit_lt hs hfalse
      rw [mixBitmapNextZeroBit_of_set hready hbit, hfound]
      exact ⟨_, _, rfl⟩

theorem mixBitmapClear_ready (hready : bitmap.Ready n) :
    (mixBitmapClear bitmap).Ready n :=
  ⟨hready.bits_eq, hready.one_lt, by
    have := hready.one_lt
    simp only [mixBitmapClear]
    omega⟩

theorem testBit_mixBitmapClear (hready : bitmap.Ready n) {i : ℕ} (hi : i < n) :
    testBit (mixBitmapClear bitmap).array i = false := by
  have hbits := hready.bits_eq
  simp only [MixBitmap.bits, bitsPerByte] at hbits
  have hnot : ¬ 8 * bitmap.bytes ≤ i := by omega
  simp [mixBitmapClear, testBit_zeroBytes, hnot]

/-! ## The allocator -/

/-- The bit handed out is the first clear one in cyclic order; it is the only
bit that changes, and the cursor stays in range. -/
structure MixBitmap.Allocates (bitmap bitmap' : MixBitmap) (b : ℕ) : Prop where
  first : bitmap.IsNextClear bitmap.bits b
  marked : ∀ nr, mixBitmapTestBit bitmap' nr =
    (mixBitmapTestBit bitmap nr || decide (nr = b))
  bits : bitmap'.bits = bitmap.bits
  nextBit : bitmap'.nextBit < bitmap.bits

/-- As long as a bit is clear, the search ends and hands out the first one. -/
theorem mixBitmapNextZeroBit_allocates (hbytes : 0 < bitmap.bytes)
    (hcursor : bitmap.nextBit < bitmap.bits)
    (hclear : ∃ b < bitmap.bits, mixBitmapTestBit bitmap b = false) :
    ∃ (b : ℕ) (bitmap' : MixBitmap),
      mixBitmapNextZeroBit bitmap = some ((b : ℤ), bitmap') ∧
        bitmap.Allocates bitmap' b := by
  have hready : bitmap.Ready bitmap.bits := by
    refine ⟨rfl, ?_, hcursor⟩
    rw [MixBitmap.bits, bitsPerByte]
    omega
  obtain ⟨slot, bitmap', hnext⟩ := mixBitmapNextZeroBit_isSome hready hclear
  obtain ⟨b, rfl, hfirst, harray, hready', -⟩ :=
    mixBitmapNextZeroBit_spec hready hnext
  refine ⟨b, bitmap', hnext, hfirst, fun nr => ?_, hready'.bits_eq,
    hready'.nextBit_lt⟩
  rw [mixBitmapTestBit, harray, testBit_setBit]
  exact Bool.or_comm _ _

/-- A bitmap of two bytes whose first byte has only bit `7` clear, with the
cursor behind it. -/
def nearlyFullByte : MixBitmap where
  array := fun a => if a = 0 then 0x7F#8 else 0xFF#8
  bytes := 2
  nextBit := 9

theorem mixBitmapNextZeroBit_allocates_example :
    ∃ (b : ℕ) (bitmap' : MixBitmap),
      mixBitmapNextZeroBit nearlyFullByte = some ((b : ℤ), bitmap') ∧
        nearlyFullByte.Allocates bitmap' b :=
  mixBitmapNextZeroBit_allocates (by decide) (by decide)
    ⟨7, by decide, by decide⟩

end Uhs
