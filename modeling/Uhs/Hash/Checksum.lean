import Mathlib.Data.Set.Card
import Uhs.Core.HashFunction
import Uhs.Support.CyclicRedundancy
import Uhs.Support.Mixing

/-!
# The checksum under the hash

The table of `crc32` is the one of the divisor `0xedb88320`, so `crc32` is the
cyclic redundancy code of its string from the register `0`.  `Hash::crc32`
keeps its register in 32 bits where `crc32` keeps it in 64.  The steps behind
the checksum lose three bits, and then the reduction by the size of the table.
-/

namespace Uhs

open Support Polynomial

/-! ## The table -/

/-- The divisor of `crc32_tab`. -/
def crc32Divisor : BitVec 32 := 0xedb88320#32

theorem crc32Tab_getD :
    ∀ v : BitVec 8, crc32Tab.getD v.toNat 0 =
      (shiftBits crc32Divisor 8 (v.setWidth 32)).toNat := by
  decide +kernel

/-- The bytes that `crc32` reads of its characters. -/
def hashBytes (s : List (BitVec 64)) : List (BitVec 8) :=
  s.map fun c => c.setWidth 8

theorem and_255 {w : ℕ} (hw : 8 ≤ w) (v : BitVec w) :
    (v &&& BitVec.ofNat w 0xff).toNat = (v.setWidth 8).toNat := by
  have hmask : 255 < 2 ^ w :=
    lt_of_lt_of_le (by decide) (Nat.pow_le_pow_right (by decide) hw)
  rw [BitVec.toNat_and, BitVec.toNat_ofNat, BitVec.toNat_setWidth,
    Nat.mod_eq_of_lt hmask]
  exact Nat.and_two_pow_sub_one_eq_mod v.toNat 8

/-- One round of `crc32` on a register of 32 bits. -/
theorem crc32_round (v : BitVec 32) (c : BitVec 64) :
    BitVec.ofNat 64
        (crc32Tab.getD ((v.setWidth 64 ^^^ c) &&& 0xff#64).toNat 0) ^^^
      v.setWidth 64 >>> 8 =
    (crcByte crc32Divisor v (c.setWidth 8)).setWidth 64 := by
  have hindex : (v.setWidth 64 ^^^ c).setWidth 8 =
      v.setWidth 8 ^^^ c.setWidth 8 := by
    rw [BitVec.setWidth_xor, BitVec.setWidth_setWidth_of_le _ (by decide)]
  have hdown : v.setWidth 64 >>> 8 = (v >>> 8).setWidth 64 :=
    (BitVec.setWidth_ushiftRight (by decide)).symm
  rw [and_255 (by decide), hindex, crc32Tab_getD, crcByte_eq, hdown,
    BitVec.ofNat_toNat, ← BitVec.setWidth_xor]

theorem crc32_eq_crc (s : List (BitVec 64)) :
    crc32 s = (crc crc32Divisor 0 (hashBytes s)).setWidth 64 := by
  suffices ∀ v : BitVec 32, s.foldl (fun crc32val c =>
      BitVec.ofNat 64 (crc32Tab.getD ((crc32val ^^^ c) &&& 0xff#64).toNat 0) ^^^
        (crc32val >>> 8)) (v.setWidth 64) =
      (crc crc32Divisor v (hashBytes s)).setWidth 64 from this 0
  induction s with
  | nil => exact fun v => rfl
  | cons c s ih =>
      intro v
      rw [List.foldl_cons, crc32_round, ih]
      rfl

/-- `Hash::crc32`, whose register is a `uint32_t`. -/
def Hash.crc32 (s : List (BitVec 64)) : BitVec 64 :=
  let crc32val := s.foldl (fun (crc32val : BitVec 32) c =>
    (BitVec.ofNat 64
        (crc32Tab.getD ((crc32val ^^^ c.setWidth 32) &&& 0xff#32).toNat 0) ^^^
      (crc32val >>> 8).setWidth 64).setWidth 32) 0#32
  crc32val.setWidth 64

theorem Hash.crc32_round (v : BitVec 32) (c : BitVec 64) :
    (BitVec.ofNat 64
        (crc32Tab.getD ((v ^^^ c.setWidth 32) &&& 0xff#32).toNat 0) ^^^
      (v >>> 8).setWidth 64).setWidth 32 =
    crcByte crc32Divisor v (c.setWidth 8) := by
  have hindex : (v ^^^ c.setWidth 32).setWidth 8 =
      v.setWidth 8 ^^^ c.setWidth 8 := by
    rw [BitVec.setWidth_xor, BitVec.setWidth_setWidth_of_le _ (by decide)]
  rw [and_255 (by decide), hindex, crc32Tab_getD, crcByte_eq,
    BitVec.ofNat_toNat, ← BitVec.setWidth_xor,
    BitVec.setWidth_setWidth_of_le _ (by decide), BitVec.setWidth_eq]

theorem Hash.crc32_eq_crc (s : List (BitVec 64)) :
    Hash.crc32 s = (crc crc32Divisor 0 (hashBytes s)).setWidth 64 := by
  suffices ∀ v : BitVec 32, s.foldl (fun crc32val c =>
      (BitVec.ofNat 64
          (crc32Tab.getD ((crc32val ^^^ c.setWidth 32) &&& 0xff#32).toNat 0) ^^^
        (crc32val >>> 8).setWidth 64).setWidth 32) v =
      crc crc32Divisor v (hashBytes s) from
    congrArg (BitVec.setWidth 64) (this 0)
  induction s with
  | nil => exact fun v => rfl
  | cons c s ih =>
      intro v
      rw [List.foldl_cons, Hash.crc32_round, ih]
      rfl

/-! ## What the checksum is -/

/-- The modulus of `crc32`. -/
noncomputable def crc32Modulus : (ZMod 2)[X] :=
  X ^ 32 + X ^ 26 + X ^ 23 + X ^ 22 + X ^ 16 + X ^ 12 + X ^ 11 + X ^ 10 +
    X ^ 8 + X ^ 7 + X ^ 5 + X ^ 4 + X ^ 2 + X + 1

theorem modulus_crc32Divisor : modulus crc32Divisor = crc32Modulus := by
  have hbits : crc32Divisor = BitVec.twoPow 32 5 ^^^ BitVec.twoPow 32 8 ^^^
      BitVec.twoPow 32 9 ^^^ BitVec.twoPow 32 15 ^^^ BitVec.twoPow 32 19 ^^^
      BitVec.twoPow 32 20 ^^^ BitVec.twoPow 32 21 ^^^ BitVec.twoPow 32 23 ^^^
      BitVec.twoPow 32 24 ^^^ BitVec.twoPow 32 26 ^^^ BitVec.twoPow 32 27 ^^^
      BitVec.twoPow 32 29 ^^^ BitVec.twoPow 32 30 ^^^ BitVec.twoPow 32 31 := by
    decide +kernel
  rw [modulus, crc32Modulus, hbits]
  simp (disch := decide) only [reflected_xor, reflected_twoPow]
  ring

/-- `crc32` and `Hash::crc32` both give the remainder of their string. -/
theorem crc32_eq_remainder (s : List (BitVec 64)) :
    (crc32 s).toNat < 2 ^ 32 ∧ Hash.crc32 s = crc32 s ∧
      reflected ((crc32 s).setWidth 32) =
        (X ^ 32 * messagePoly (hashBytes s)) %ₘ crc32Modulus := by
  rw [← modulus_crc32Divisor, crc32_eq_crc, Hash.crc32_eq_crc,
    BitVec.setWidth_setWidth_of_le _ (by decide), BitVec.setWidth_eq]
  refine ⟨?_, rfl, reflected_crc (by decide) _ _⟩
  rw [BitVec.toNat_setWidth_of_le (by decide)]
  exact BitVec.isLt _

theorem crc_eq_of_crc32_eq {s t : List (BitVec 64)} (heq : crc32 s = crc32 t) :
    crc crc32Divisor 0 (hashBytes s) = crc crc32Divisor 0 (hashBytes t) := by
  have hlow := congrArg (BitVec.setWidth 32) heq
  rwa [crc32_eq_crc, crc32_eq_crc, BitVec.setWidth_setWidth_of_le _ (by decide),
    BitVec.setWidth_eq, BitVec.setWidth_setWidth_of_le _ (by decide),
    BitVec.setWidth_eq] at hlow

/-- Two strings have one checksum exactly when the modulus divides what they
differ by. -/
theorem crc32_eq_iff (s t : List (BitVec 64)) :
    crc32 s = crc32 t ↔
      crc32Modulus ∣ messagePoly (hashBytes s) - messagePoly (hashBytes t) := by
  rw [← modulus_crc32Divisor, ← crc_eq_iff (by decide) (by decide)]
  refine ⟨crc_eq_of_crc32_eq, fun heq => ?_⟩
  rw [crc32_eq_crc, crc32_eq_crc, heq]

/-! ## Keys that differ in four digits -/

/-- The byte that `crc32` reads of a character. -/
def charByte (c : Char) : BitVec 8 := (BitVec.ofNat 64 c.toNat).setWidth 8

theorem charByte_of_isDigit {c : Char} (hc : c.isDigit) :
    (charByte c).toNat = c.toNat ∧ 48 ≤ c.toNat := by
  have hrange : 48 ≤ c.toNat ∧ c.toNat ≤ 57 := Char.isDigit_iff_toNat.mp hc
  refine ⟨?_, hrange.1⟩
  rw [charByte, BitVec.toNat_setWidth, BitVec.toNat_ofNat]
  omega

theorem isDigit_toDigits {n : ℕ} {c : Char} (hc : c ∈ Nat.toDigits 10 n) :
    c.isDigit :=
  Nat.isDigit_of_mem_toDigits (by decide) (by decide) hc

/-- The bytes of a number's digits name the number. -/
theorem digitBytes_injective :
    Function.Injective fun n => (Nat.toDigits 10 n).map charByte := by
  have hchars : ∀ n, ((Nat.toDigits 10 n).map charByte).map
      (fun v => Char.ofNat v.toNat) = Nat.toDigits 10 n := by
    intro n
    rw [List.map_map]
    refine (List.map_congr_left fun c hc => ?_).trans (List.map_id _)
    rw [Function.comp_apply, (charByte_of_isDigit (isDigit_toDigits hc)).1,
      Char.ofNat_toNat, id]
  intro m n heq
  have hdigits := congrArg (List.map fun v => Char.ofNat v.toNat) heq
  simp only [hchars] at hdigits
  rw [← @Nat.ofDigitChars_ten_toDigits m, hdigits,
    Nat.ofDigitChars_ten_toDigits]

theorem hashBytes_sprintfD (k : ℤ) :
    hashBytes (sprintfD k) =
      if k < 0 then 45#8 :: (Nat.toDigits 10 k.natAbs).map charByte
      else (Nat.toDigits 10 k.natAbs).map charByte := by
  rw [sprintfD]
  split_ifs <;>
  · simp only [hashBytes, List.map_cons, List.map_map]
    rfl

/-- The sign is no digit. -/
theorem minus_notMem_digitBytes (n : ℕ) :
    45#8 ∉ (Nat.toDigits 10 n).map charByte := by
  intro hmem
  obtain ⟨c, hc, hbyte⟩ := List.mem_map.mp hmem
  obtain ⟨hvalue, hlow⟩ := charByte_of_isDigit (isDigit_toDigits hc)
  rw [← hvalue, hbyte] at hlow
  exact absurd hlow (by decide)

/-- Different numbers are printed with different bytes. -/
theorem hashBytes_sprintfD_injective :
    Function.Injective fun k => hashBytes (sprintfD k) := by
  intro k l heq
  simp only [hashBytes_sprintfD] at heq
  split_ifs at heq with hk hl hl
  · have habs := digitBytes_injective (List.cons.inj heq).2
    omega
  · exact absurd (heq ▸ List.mem_cons_self) (minus_notMem_digitBytes _)
  · exact absurd (heq ▸ List.mem_cons_self) (minus_notMem_digitBytes _)
  · have habs := digitBytes_injective heq
    omega

/-- Keys that are printed alike but for four neighbouring characters have
different checksums. -/
theorem crc32_key_ne {key key' : ℕ}
    {front window window' back : List (BitVec 64)}
    (hkey : sprintfD (toInt32 key) = front ++ window ++ back)
    (hkey' : sprintfD (toInt32 key') = front ++ window' ++ back)
    (hlen : window.length = window'.length) (hfour : window.length ≤ 4)
    (hne : toInt32 key ≠ toInt32 key') :
    crc32 (sprintfD (toInt32 key)) ≠ crc32 (sprintfD (toInt32 key')) := by
  have hbytes : hashBytes (sprintfD (toInt32 key)) =
      hashBytes front ++ hashBytes window ++ hashBytes back := by
    simp only [hkey, hashBytes, List.map_append]
  have hbytes' : hashBytes (sprintfD (toInt32 key')) =
      hashBytes front ++ hashBytes window' ++ hashBytes back := by
    simp only [hkey', hashBytes, List.map_append]
  have hlength : ∀ s, (hashBytes s).length = s.length := fun s =>
    List.length_map _
  have hwindow : hashBytes window ≠ hashBytes window' := by
    intro heq
    refine hne (hashBytes_sprintfD_injective ?_)
    change hashBytes _ = hashBytes _
    rw [hbytes, hbytes', heq]
  have hcrc := crc_ne_of_burst (by decide) (by decide : crc32Divisor.msb)
    (hashBytes front) (hashBytes back) (by rw [hlength, hlength, hlen])
    (by rw [hlength]; omega) hwindow
  intro heq
  have hsame := crc_eq_of_crc32_eq heq
  rw [hbytes, hbytes'] at hsame
  exact hcrc hsame

/-- The blocks 1234 and 5678, the blocks 100007 and 200007, and the blocks
2^32 - 12 and 2^32 - 98, which are printed as -12 and -98. -/
theorem crc32_key_ne_example :
    crc32 (sprintfD (toInt32 1234)) ≠ crc32 (sprintfD (toInt32 5678)) ∧
      crc32 (sprintfD (toInt32 100007)) ≠
        crc32 (sprintfD (toInt32 200007)) ∧
      crc32 (sprintfD (toInt32 4294967284)) ≠
        crc32 (sprintfD (toInt32 4294967198)) := by
  have h1234 : sprintfD (toInt32 1234) =
      [] ++ [49#64, 50#64, 51#64, 52#64] ++ [] := rfl
  have h5678 : sprintfD (toInt32 5678) =
      [] ++ [53#64, 54#64, 55#64, 56#64] ++ [] := rfl
  have h100007 : sprintfD (toInt32 100007) =
      [] ++ [49#64] ++ [48#64, 48#64, 48#64, 48#64, 55#64] := rfl
  have h200007 : sprintfD (toInt32 200007) =
      [] ++ [50#64] ++ [48#64, 48#64, 48#64, 48#64, 55#64] := rfl
  have hminus12 : sprintfD (toInt32 4294967284) =
      [45#64] ++ [49#64, 50#64] ++ [] := rfl
  have hminus98 : sprintfD (toInt32 4294967198) =
      [45#64] ++ [57#64, 56#64] ++ [] := rfl
  exact ⟨crc32_key_ne h1234 h5678 rfl (by decide) (by decide),
    crc32_key_ne h100007 h200007 rfl (by decide) (by decide),
    crc32_key_ne hminus12 hminus98 rfl (by decide) (by decide)⟩

/-! ## Behind the checksum -/

/-- The steps of `mix_hash_hash` between the checksum and its last shift. -/
def mixHashMix (key : BitVec 64) : BitVec 64 :=
  let key := key + (key <<< 12)
  let key := key ^^^ (key >>> 22)
  let key := key + (key <<< 4)
  let key := key ^^^ (key >>> 9)
  let key := key + (key <<< 10)
  let key := key ^^^ (key >>> 2)
  let key := key + (key <<< 7)
  key ^^^ (key >>> 12)

/-- The word that `mix_hash_hash` reduces by the size of the table. -/
def mixHashWord (key : BitVec 64) : BitVec 64 :=
  (mixHashMix key >>> 3) * 2654435761#64

theorem mixHashHash_eq (intKey hashSize : ℕ) :
    mixHashHash intKey hashSize =
      (mixHashWord (crc32 (sprintfD (toInt32 intKey)))).toNat % hashSize :=
  rfl

/-- `Hash::hash`. -/
def Hash.hash (intKey hashSize : ℕ) : ℕ :=
  let key := Hash.crc32 (sprintfD (toInt32 intKey))
  let key := key + (key <<< 12)
  let key := key ^^^ (key >>> 22)
  let key := key + (key <<< 4)
  let key := key ^^^ (key >>> 9)
  let key := key + (key <<< 10)
  let key := key ^^^ (key >>> 2)
  let key := key + (key <<< 7)
  let key := key ^^^ (key >>> 12)
  let key := (key >>> 3) * 2654435761#64
  key.toNat % hashSize

/-- The two hash functions put a key into the same bucket. -/
theorem Hash.hash_eq_mixHashHash (intKey hashSize : ℕ) :
    Hash.hash intKey hashSize = mixHashHash intKey hashSize := by
  have hcrc : Hash.crc32 (sprintfD (toInt32 intKey)) =
      Uhs.crc32 (sprintfD (toInt32 intKey)) := by
    rw [Hash.crc32_eq_crc, Uhs.crc32_eq_crc]
  rw [mixHashHash_eq, ← hcrc]
  rfl

theorem mixHashMix_injective : Function.Injective mixHashMix :=
  (xorShift_injective (by decide)).comp <|
    (addShift_injective (by decide)).comp <|
      (xorShift_injective (by decide)).comp <|
        (addShift_injective (by decide)).comp <|
          (xorShift_injective (by decide)).comp <|
            (addShift_injective (by decide)).comp <|
              (xorShift_injective (by decide)).comp <|
                addShift_injective (by decide)

theorem mixHashMix_ushiftRight_eq {c d : BitVec 64}
    (heq : mixHashWord c = mixHashWord d) :
    mixHashMix c >>> 3 = mixHashMix d >>> 3 :=
  mulOdd_injective (by decide) heq

/-- At most eight checksums share the word of one hash. -/
theorem mixHashWord_ncard_le (word : BitVec 64) :
    {c : BitVec 64 | mixHashWord c = word}.ncard ≤ 8 := by
  have hinj : Set.InjOn (fun c => ((mixHashMix c).setWidth 3).toFin)
      {c : BitVec 64 | mixHashWord c = word} := by
    intro c hc d hd hlow
    have hc' : mixHashWord c = word := hc
    have hword : mixHashWord c = mixHashWord d := hc'.trans hd.symm
    exact mixHashMix_injective
      (eq_of_ushiftRight_eq (mixHashMix_ushiftRight_eq hword)
        (BitVec.toFin_inj.mp hlow))
  calc {c : BitVec 64 | mixHashWord c = word}.ncard
      ≤ (Set.univ : Set (Fin (2 ^ 3))).ncard :=
        Set.ncard_le_ncard_of_injOn _ (fun _ _ => Set.mem_univ _) hinj
    _ = 8 := by rw [Set.ncard_univ, Nat.card_fin]; rfl

end Uhs
