import Uhs.Bloom.Outstanding
import Uhs.Core.HashFunction
import Uhs.Support.Copies
import Uhs.Support.Mixing

/-!
# The hash of the filter

Model of `MurmurHash3_x64_128` and of `hash_func` in `mix_bloom_filter.c`.  A
block of 16 bytes goes into a state of two words, and so do the bytes behind
the last whole block.  Every step can be taken back, so two keys of one length
that differ within one block only keep different states to the end.
-/

namespace Uhs

open Support

/-! ## The steps -/

/-- `rotl64`. -/
def rotl64 (x : BitVec 64) (r : ℕ) : BitVec 64 := x <<< r ||| x >>> (64 - r)

/-- `fmix64`. -/
def fmix64 (k : BitVec 64) : BitVec 64 :=
  let k := k ^^^ k >>> 33
  let k := k * 0xff51afd7ed558ccd#64
  let k := k ^^^ k >>> 33
  let k := k * 0xc4ceb9fe1a85ec53#64
  k ^^^ k >>> 33

/-- `c1` of `MurmurHash3_x64_128`. -/
def murmurC1 : BitVec 64 := 0x87c37b91114253d5#64

/-- `c2` of `MurmurHash3_x64_128`. -/
def murmurC2 : BitVec 64 := 0x4cf5ad432745937f#64

/-- `h1` and `h2` of `MurmurHash3_x64_128`. -/
structure MurmurState where
  h1 : BitVec 64
  h2 : BitVec 64
  deriving DecidableEq

/-- What happens to `k1` before it meets `h1`. -/
def mixFirst (k1 : BitVec 64) : BitVec 64 :=
  let k1 := k1 * murmurC1
  let k1 := rotl64 k1 31
  k1 * murmurC2

/-- What happens to `k2` before it meets `h2`. -/
def mixSecond (k2 : BitVec 64) : BitVec 64 :=
  let k2 := k2 * murmurC2
  let k2 := rotl64 k2 33
  k2 * murmurC1

/-- `getblock`: a word of the key, its lowest byte first. -/
def getblock (data : ByteMemory) (i : ℕ) : BitVec 64 :=
  BitVec.ofNat 64 (readNumber data (8 * i) 8)

/-- One pass of the loop over the blocks, from the two words of the block. -/
def murmurRound (k1 k2 : BitVec 64) (s : MurmurState) : MurmurState :=
  let h1 := s.h1 ^^^ mixFirst k1
  let h1 := rotl64 h1 27
  let h1 := h1 + s.h2
  let h1 := h1 * 5 + 0x52dce729#64
  let h2 := s.h2 ^^^ mixSecond k2
  let h2 := rotl64 h2 31
  let h2 := h2 + h1
  let h2 := h2 * 5 + 0x38495ab5#64
  ⟨h1, h2⟩

/-- The loop over the blocks. -/
def murmurBody (data : ByteMemory) (nblocks : ℕ) (s : MurmurState) :
    MurmurState :=
  (List.range nblocks).foldl (fun s i =>
    murmurRound (getblock data (i * 2 + 0)) (getblock data (i * 2 + 1)) s) s

/-- The cases of the `switch` that fall through from byte `n - 1` down to the
first: each byte is moved to its place. -/
def tailWord (data : ByteMemory) (tail n : ℕ) : BitVec 64 :=
  (List.range n).foldr (fun j k =>
    k ^^^ (data (tail + j)).setWidth 64 <<< (8 * j)) 0

/-- The tail, of `len & 15` bytes. -/
def murmurTail (data : ByteMemory) (len : ℕ) (s : MurmurState) :
    MurmurState :=
  let tail := len / 16 * 16
  let n := len &&& 15
  let h2 := if 9 ≤ n then
      s.h2 ^^^ mixSecond (tailWord data (tail + 8) (n - 8))
    else s.h2
  let h1 := if 1 ≤ n then s.h1 ^^^ mixFirst (tailWord data tail (min 8 n))
    else s.h1
  ⟨h1, h2⟩

/-- The finalization. -/
def murmurFinal (len : ℕ) (s : MurmurState) : MurmurState :=
  let h1 := s.h1 ^^^ BitVec.ofNat 64 len
  let h2 := s.h2 ^^^ BitVec.ofNat 64 len
  let h1 := h1 + h2
  let h2 := h2 + h1
  let h1 := fmix64 h1
  let h2 := fmix64 h2
  let h1 := h1 + h2
  let h2 := h2 + h1
  ⟨h1, h2⟩

/-- `MurmurHash3_x64_128`. -/
def murmurHash3X64128 (data : ByteMemory) (len : ℕ) (seed : BitVec 32) :
    MurmurState :=
  let nblocks := len / 16
  let s := murmurBody data nblocks ⟨seed.setWidth 64, seed.setWidth 64⟩
  murmurFinal len (murmurTail data len s)

/-- `SALT_CONSTANT`. -/
def saltConstant : BitVec 32 := 0x97c29b3a#32

/-- The bytes of a key in `keystring`. -/
def keystring (key : ℕ) : ByteMemory := fun a =>
  ((sprintfD (toInt32 key)).getD a 0).setWidth 8

/-- `hash_func`: what it leaves in `hashes[i]`. -/
def hashFunc (countsPerFunc key i : ℕ) : ℕ :=
  let checksum := murmurHash3X64128 (keystring key)
    (sprintfD (toInt32 key)).length saltConstant
  let h1 := checksum.h1.setWidth 32
  let h2 := (checksum.h1 >>> 32).setWidth 32
  (h1 + BitVec.ofNat 32 i * h2).toNat % countsPerFunc

/-! ## Steps that can be taken back -/

theorem rotl64_injective {r : ℕ} (hr : r ≤ 64) :
    Function.Injective fun x : BitVec 64 => rotl64 x r :=
  rotate_injective hr

theorem fmix64_injective : Function.Injective fmix64 :=
  (xorShift_injective (by decide)).comp <|
    (mulOdd_injective (by decide)).comp <|
      (xorShift_injective (by decide)).comp <|
        (mulOdd_injective (by decide)).comp <|
          xorShift_injective (by decide)

theorem mixFirst_injective : Function.Injective mixFirst :=
  (mulOdd_injective (by decide)).comp <|
    (rotl64_injective (by decide)).comp <|
      mulOdd_injective (by decide)

theorem mixSecond_injective : Function.Injective mixSecond :=
  (mulOdd_injective (by decide)).comp <|
    (rotl64_injective (by decide)).comp <|
      mulOdd_injective (by decide)

theorem mul_five_add_injective (b : BitVec 64) :
    Function.Injective fun v : BitVec 64 => v * 5 + b :=
  (add_left_injective b).comp (mulOdd_injective (by decide))

/-- What two passes with one outcome have in common. -/
theorem murmurRound_eq {k1 k2 l1 l2 : BitVec 64} {s t : MurmurState}
    (heq : murmurRound k1 k2 s = murmurRound l1 l2 t) :
    s.h2 ^^^ mixSecond k2 = t.h2 ^^^ mixSecond l2 ∧
      rotl64 (s.h1 ^^^ mixFirst k1) 27 + s.h2 =
        rotl64 (t.h1 ^^^ mixFirst l1) 27 + t.h2 := by
  have hfirst := mul_five_add_injective _ (congrArg MurmurState.h1 heq)
  have hsecond := mul_five_add_injective _ (congrArg MurmurState.h2 heq)
  have hh1 : (murmurRound k1 k2 s).h1 = (murmurRound l1 l2 t).h1 :=
    congrArg MurmurState.h1 heq
  refine ⟨?_, hfirst⟩
  have hsum : rotl64 (s.h2 ^^^ mixSecond k2) 31 + (murmurRound k1 k2 s).h1 =
      rotl64 (t.h2 ^^^ mixSecond l2) 31 + (murmurRound l1 l2 t).h1 := hsecond
  rw [hh1] at hsum
  exact rotl64_injective (by decide) (add_left_injective _ hsum)

theorem murmurRound_injective (k1 k2 : BitVec 64) :
    Function.Injective (murmurRound k1 k2) := by
  intro s t heq
  obtain ⟨hsecond, hfirst⟩ := murmurRound_eq heq
  have hh2 : s.h2 = t.h2 := xor_injective _ hsecond
  rw [hh2] at hfirst
  have hh1 : s.h1 = t.h1 :=
    xor_injective _ (rotl64_injective (by decide) (add_left_injective _ hfirst))
  cases s
  cases t
  simp_all

theorem murmurRound_words {k1 k2 l1 l2 : BitVec 64} {s : MurmurState}
    (heq : murmurRound k1 k2 s = murmurRound l1 l2 s) :
    k1 = l1 ∧ k2 = l2 := by
  obtain ⟨hsecond, hfirst⟩ := murmurRound_eq heq
  rw [BitVec.xor_right_inj] at hsecond
  have hxor := rotl64_injective (by decide) (add_left_injective _ hfirst)
  rw [BitVec.xor_right_inj] at hxor
  exact ⟨mixFirst_injective hxor, mixSecond_injective hsecond⟩

theorem murmurFinal_injective (len : ℕ) :
    Function.Injective (murmurFinal len) := by
  intro s t heq
  have hh1 : (murmurFinal len s).h1 = (murmurFinal len t).h1 :=
    congrArg MurmurState.h1 heq
  have hh2 : (murmurFinal len s).h2 = (murmurFinal len t).h2 :=
    congrArg MurmurState.h2 heq
  simp only [murmurFinal] at hh1 hh2
  rw [hh1] at hh2
  have hmix := add_left_injective _ hh2
  rw [hmix] at hh1
  have hsum := fmix64_injective (add_left_injective _ hh1)
  have hsum' := fmix64_injective hmix
  rw [hsum] at hsum'
  have hsecond : s.h2 = t.h2 :=
    xor_injective _ (add_left_injective _ hsum')
  rw [hsecond] at hsum
  have hfirst : s.h1 = t.h1 := xor_injective _ (add_left_injective _ hsum)
  cases s
  cases t
  simp_all

/-! ## What a word shows of its bytes -/

theorem getblock_eq_iff {data data' : ByteMemory} {i : ℕ} :
    getblock data i = getblock data' i ↔
      ∀ a ∈ bytesAt (8 * i) 8, data a = data' a := by
  constructor
  · intro heq
    have h := congrArg BitVec.toNat heq
    have hlt : ∀ m, readNumber m (8 * i) 8 < 2 ^ 64 :=
      fun m => readNumber_lt m _ 8
    rw [getblock, getblock, BitVec.toNat_ofNat, BitVec.toNat_ofNat,
      Nat.mod_eq_of_lt (hlt data), Nat.mod_eq_of_lt (hlt data')] at h
    exact readNumber_injective h
  · intro h
    rw [getblock, getblock, readNumber_congr h]

theorem getLsbD_tailFold (data : ByteMemory) (tail n : ℕ) (k : BitVec 64)
    {i : ℕ} (hi : i < 64) :
    ((List.range n).foldr (fun j k =>
        k ^^^ (data (tail + j)).setWidth 64 <<< (8 * j)) k).getLsbD i =
      (k.getLsbD i ^^
        (decide (i / 8 < n) && (data (tail + i / 8)).getLsbD (i % 8))) := by
  induction n generalizing k with
  | zero => simp
  | succ n ih =>
      rw [List.range_succ, List.foldr_append, ih, List.foldr_cons,
        List.foldr_nil, BitVec.getLsbD_xor, BitVec.getLsbD_shiftLeft,
        BitVec.getLsbD_setWidth]
      rcases Nat.lt_trichotomy (i / 8) n with hn | hn | hn
      · have hbefore : i < 8 * n := by omega
        simp [hn, hbefore, show i / 8 < n + 1 by omega]
      · have hbit : i - 8 * n = i % 8 := by omega
        have hat : 8 * n ≤ i := by omega
        simp [hn, hbit, hi, hat, show i % 8 < 64 by omega]
      · have hpast : 8 ≤ i - 8 * n := by omega
        simp [BitVec.getLsbD_of_ge _ _ hpast, show ¬ i / 8 < n by omega,
          show ¬ i / 8 < n + 1 by omega]

theorem getLsbD_tailWord (data : ByteMemory) (tail n : ℕ) {i : ℕ}
    (hi : i < 64) :
    (tailWord data tail n).getLsbD i =
      (decide (i / 8 < n) && (data (tail + i / 8)).getLsbD (i % 8)) := by
  rw [tailWord, getLsbD_tailFold data tail n 0 hi]
  simp

theorem tailWord_eq_iff {data data' : ByteMemory} {tail n : ℕ} (hn : n ≤ 8) :
    tailWord data tail n = tailWord data' tail n ↔
      ∀ a ∈ bytesAt tail n, data a = data' a := by
  constructor
  · intro heq a ha
    obtain ⟨hge, hlt⟩ := ha
    obtain ⟨j, rfl⟩ := Nat.exists_eq_add_of_le hge
    apply BitVec.eq_of_getLsbD_eq
    intro b hb
    have h := congrArg (BitVec.getLsbD · (8 * j + b)) heq
    simp only [getLsbD_tailWord _ _ _ (show 8 * j + b < 64 by omega)] at h
    have hj : (8 * j + b) / 8 = j := by omega
    have hb' : (8 * j + b) % 8 = b := by omega
    simpa [hj, hb', show j < n by omega] using h
  · intro h
    apply BitVec.eq_of_getLsbD_eq
    intro i hi
    rw [getLsbD_tailWord _ _ _ hi, getLsbD_tailWord _ _ _ hi]
    by_cases hin : i / 8 < n
    · rw [h (tail + i / 8) ⟨by omega, by omega⟩]
    · simp [hin]

/-! ## The digest -/

theorem murmurBody_succ (data : ByteMemory) (nblocks : ℕ) (s : MurmurState) :
    murmurBody data (nblocks + 1) s =
      murmurRound (getblock data (nblocks * 2 + 0))
        (getblock data (nblocks * 2 + 1)) (murmurBody data nblocks s) := by
  rw [murmurBody, List.range_succ, List.foldl_append]
  rfl

/-- Block `i` of two keys. -/
def SameBlock (data data' : ByteMemory) (i : ℕ) : Prop :=
  ∀ a ∈ bytesAt (16 * i) 16, data a = data' a

theorem sameBlock_iff {data data' : ByteMemory} {i : ℕ} :
    SameBlock data data' i ↔
      getblock data (i * 2 + 0) = getblock data' (i * 2 + 0) ∧
        getblock data (i * 2 + 1) = getblock data' (i * 2 + 1) := by
  rw [getblock_eq_iff, getblock_eq_iff]
  constructor
  · intro h
    exact ⟨fun a ha => h a ⟨by have := ha.1; omega, by have := ha.2; omega⟩,
      fun a ha => h a ⟨by have := ha.1; omega, by have := ha.2; omega⟩⟩
  · intro h a ha
    have hge := ha.1
    have hlt := ha.2
    rcases Nat.lt_or_ge a (16 * i + 8) with hlow | hhigh
    · exact h.1 a ⟨by omega, by omega⟩
    · exact h.2 a ⟨by omega, by omega⟩

variable {data data' : ByteMemory} {len n : ℕ}

/-- Whole blocks that agree keep states apart. -/
theorem murmurBody_ne_of_same {s t : MurmurState} {m : ℕ}
    (hnm : n ≤ m) (hsame : ∀ i < m, n ≤ i → SameBlock data data' i)
    (hne : murmurBody data n s ≠ murmurBody data' n t) :
    murmurBody data m s ≠ murmurBody data' m t := by
  induction m, hnm using Nat.le_induction with
  | base => exact hne
  | succ m hnm ih =>
      intro heq
      obtain ⟨hfirst, hsecond⟩ := sameBlock_iff.mp (hsame m (by omega) hnm)
      rw [murmurBody_succ, murmurBody_succ, ← hfirst, ← hsecond] at heq
      exact ih (fun i hi => hsame i (by omega)) (murmurRound_injective _ _ heq)

theorem murmurBody_congr {s : MurmurState}
    (hsame : ∀ i < n, SameBlock data data' i) :
    murmurBody data n s = murmurBody data' n s := by
  induction n with
  | zero => simp only [murmurBody, List.range_zero, List.foldl_nil]
  | succ n ih =>
      obtain ⟨hfirst, hsecond⟩ := sameBlock_iff.mp (hsame n (by omega))
      rw [murmurBody_succ, murmurBody_succ, hfirst, hsecond,
        ih fun i hi => hsame i (by omega)]

/-- A tail that agrees keeps states apart. -/
theorem murmurTail_injective
    (hsame : ∀ a < len, len / 16 ≤ a / 16 → data a = data' a)
    {s t : MurmurState} (heq : murmurTail data len s = murmurTail data' len t) :
    s = t := by
  have hlen : len &&& 15 = len % 16 := Nat.and_two_pow_sub_one_eq_mod len 4
  have hhigh : tailWord data (len / 16 * 16 + 8) (len % 16 - 8) =
      tailWord data' (len / 16 * 16 + 8) (len % 16 - 8) := by
    rw [tailWord_eq_iff (by omega)]
    intro a ha
    have := ha.1
    have := ha.2
    exact hsame a (by omega) (by omega)
  have hlow : tailWord data (len / 16 * 16) (min 8 (len % 16)) =
      tailWord data' (len / 16 * 16) (min 8 (len % 16)) := by
    rw [tailWord_eq_iff (by omega)]
    intro a ha
    have := ha.1
    have := ha.2
    exact hsame a (by omega) (by omega)
  rw [murmurTail, murmurTail, hlen, hhigh, hlow, MurmurState.mk.injEq] at heq
  obtain ⟨hfirst, hsecond⟩ := heq
  have hh1 : s.h1 = t.h1 := by
    split at hfirst
    · exact xor_injective _ hfirst
    · exact hfirst
  have hh2 : s.h2 = t.h2 := by
    split at hsecond
    · exact xor_injective _ hsecond
    · exact hsecond
  cases s
  cases t
  simp_all

/-- From one state, equal outcomes of the tail show equal tails. -/
theorem murmurTail_bytes {s : MurmurState}
    (heq : murmurTail data len s = murmurTail data' len s) :
    ∀ a < len, len / 16 ≤ a / 16 → data a = data' a := by
  have hlen : len &&& 15 = len % 16 := Nat.and_two_pow_sub_one_eq_mod len 4
  rw [murmurTail, murmurTail, hlen, MurmurState.mk.injEq] at heq
  obtain ⟨hfirst, hsecond⟩ := heq
  intro a ha hblock
  rcases Nat.lt_or_ge a (len / 16 * 16 + 8) with hlow | hhigh
  · rw [if_pos (by omega), if_pos (by omega), BitVec.xor_right_inj] at hfirst
    exact (tailWord_eq_iff (by omega)).mp (mixFirst_injective hfirst) a
      ⟨by omega, by omega⟩
  · rw [if_pos (by omega), if_pos (by omega), BitVec.xor_right_inj] at hsecond
    exact (tailWord_eq_iff (by omega)).mp (mixSecond_injective hsecond) a
      ⟨by omega, by omega⟩

/-- Two keys of one length that differ, and within one block only, have
different digests. -/
theorem murmurHash3X64128_ne (seed : BitVec 32)
    (hsame : ∀ a < len, a / 16 ≠ n → data a = data' a)
    (hdiff : ∃ a < len, data a ≠ data' a) :
    murmurHash3X64128 data len seed ≠ murmurHash3X64128 data' len seed := by
  obtain ⟨a, ha, hne⟩ := hdiff
  have hblock : a / 16 = n := by
    by_contra hother
    exact hne (hsame a ha hother)
  have hother : ∀ i < len / 16, i ≠ n → SameBlock data data' i := by
    intro i hi hin b hb
    have := hb.1
    have := hb.2
    exact hsame b (by omega) (by omega)
  let s : MurmurState := ⟨seed.setWidth 64, seed.setWidth 64⟩
  intro heq
  have htail := murmurFinal_injective len heq
  rcases Nat.lt_or_ge n (len / 16) with hbody | hend
  · -- the block is a whole one, and everything behind it agrees
    have hrest := murmurTail_injective
      (fun b hb hge => hsame b hb (by omega)) htail
    have hbefore : murmurBody data n s = murmurBody data' n s :=
      murmurBody_congr fun i hi => hother i (by omega) (by omega)
    have hdiffers : murmurBody data (n + 1) s ≠ murmurBody data' (n + 1) s := by
      intro hround
      rw [murmurBody_succ, murmurBody_succ, ← hbefore] at hround
      have hwords := sameBlock_iff.mpr (murmurRound_words hround)
      exact hne (hwords a ⟨by omega, by omega⟩)
    exact murmurBody_ne_of_same (by omega)
      (fun i hi hge => hother i hi (by omega)) hdiffers hrest
  · -- the block is the tail
    have hbefore : murmurBody data (len / 16) s =
        murmurBody data' (len / 16) s :=
      murmurBody_congr fun i hi => hother i hi (by omega)
    have htail' : murmurTail data len (murmurBody data (len / 16) s) =
        murmurTail data' len (murmurBody data' (len / 16) s) := htail
    rw [← hbefore] at htail'
    exact hne (murmurTail_bytes htail' a ha (by omega))

/-- Keys of 40 bytes that differ in byte 20. -/
theorem murmurHash3X64128_ne_in_second_block :
    murmurHash3X64128 (fun _ => 0#8) 40 saltConstant ≠
      murmurHash3X64128 (fun a => if a = 20 then 1#8 else 0#8) 40
        saltConstant :=
  murmurHash3X64128_ne (n := 1) saltConstant
    (fun a _ hblock => (if_neg fun h => hblock (by rw [h])).symm)
    ⟨20, by decide, by decide⟩

/-! ## The filter under this hash -/

section Filter

open MixCountingBloomFilter

variable {filter : MixCountingBloomFilter} {countsPerFunc nfuncs : ℕ}

theorem hashFunc_lt (hcounts : 0 < countsPerFunc) (key i : ℕ) :
    hashFunc countsPerFunc key i < countsPerFunc :=
  Nat.mod_lt _ hcounts

theorem mixCountingBloomFilterInit_sized (hnfuncs : 0 < nfuncs)
    (hcounts : 0 < countsPerFunc) (hsize : nfuncs * countsPerFunc < 2 ^ 31) :
    (mixCountingBloomFilterInit nfuncs countsPerFunc).Sized
      (hashFunc countsPerFunc) :=
  ⟨rfl, hnfuncs, rfl, hsize, rfl, fun key i _ => hashFunc_lt hcounts key i⟩

theorem MixCountingBloomFilter.Sized.counter_adds {hash : ℕ → ℕ → ℕ}
    (h : filter.Sized hash) (keys : List ℕ) (j : ℕ) :
    (keys.foldl (mixCountingBloomFilterAdd hash) filter).counter j = 0 ↔
      filter.counter j = 0 ∧ ∀ k ∈ keys, j ∉ filter.indexes hash k := by
  induction keys generalizing filter with
  | nil => simp
  | cons k keys ih =>
      have hsized : (mixCountingBloomFilterAdd hash filter k).Sized hash :=
        h.update 1 k
      have hindexes : ∀ k',
          (mixCountingBloomFilterAdd hash filter k).indexes hash k' =
            filter.indexes hash k' := fun _ => rfl
      rw [List.foldl_cons, ih hsized, h.counter_add]
      simp only [hindexes, List.forall_mem_cons]
      by_cases hmem : j ∈ filter.indexes hash k
      · simp [hmem]
      · simp [hmem]

/-- The counters of different functions lie apart. -/
theorem MixCountingBloomFilter.Sized.index_inj {hash : ℕ → ℕ → ℕ}
    (h : filter.Sized hash) {k k' i i' : ℕ} (hi : i < filter.nfuncs)
    (hi' : i' < filter.nfuncs)
    (heq : filter.index (hash k) i = filter.index (hash k') i') :
    i = i' ∧ hash k i = hash k' i' := by
  rw [h.index_eq k hi, h.index_eq k' hi'] at heq
  have hlt := h.hash_lt k i hi
  have hlt' := h.hash_lt k' i' hi'
  have hrounds : i = i' := by
    have hquot := congrArg (· / filter.countsPerFunc) heq
    simpa [Nat.add_mul_div_right _ _ (Nat.zero_lt_of_lt hlt),
      Nat.div_eq_of_lt hlt, Nat.div_eq_of_lt hlt'] using hquot
  subst hrounds
  exact ⟨rfl, Nat.add_right_cancel heq⟩

/-- However many adds there were, and whatever counters they drove to their
bound, a key tests positive exactly when each of its hash values is the value
of an added key for the same function. -/
theorem filterAdds_test_iff (hnfuncs : 0 < nfuncs) (hcounts : 0 < countsPerFunc)
    (hsize : nfuncs * countsPerFunc < 2 ^ 31) (keys : List ℕ) (key : ℕ) :
    mixCountingBloomFilterTest (hashFunc countsPerFunc)
        (keys.foldl (mixCountingBloomFilterAdd (hashFunc countsPerFunc))
          (mixCountingBloomFilterInit nfuncs countsPerFunc)) key = 1 ↔
      ∀ i < nfuncs, ∃ k ∈ keys,
        hashFunc countsPerFunc k i = hashFunc countsPerFunc key i := by
  have hinit := mixCountingBloomFilterInit_sized hnfuncs hcounts hsize
  let filter := mixCountingBloomFilterInit nfuncs countsPerFunc
  have hlayout : ∀ (keys : List ℕ) (filter : MixCountingBloomFilter),
      (keys.foldl (mixCountingBloomFilterAdd (hashFunc countsPerFunc))
        filter).indexes (hashFunc countsPerFunc) key =
      filter.indexes (hashFunc countsPerFunc) key := by
    intro keys
    induction keys with
    | nil => exact fun _ => rfl
    | cons k keys ih => exact fun filter => ih _
  have hempty : ∀ j, filter.counter j = 0 :=
    (filterStart_tallied hnfuncs hsize
      fun key i _ => hashFunc_lt hcounts key i).counter
  rw [test_eq, hlayout]
  simp only [hinit.counter_adds]
  constructor
  · intro htest i hi
    by_contra hnone
    rw [if_pos] at htest
    · exact absurd htest (by decide)
    · refine ⟨filter.index (hashFunc countsPerFunc key) i,
        mem_indexes.mpr ⟨i, hi, rfl⟩, hempty _, ?_⟩
      intro k hk hmem
      obtain ⟨i', hi', heq⟩ := mem_indexes.mp hmem
      obtain ⟨rfl, hhash⟩ := hinit.index_inj hi' hi heq
      exact hnone ⟨k, hk, hhash⟩
  · intro hall
    rw [if_neg]
    rintro ⟨j, hj, _, hmiss⟩
    obtain ⟨i, hi, rfl⟩ := mem_indexes.mp hj
    obtain ⟨k, hk, hhash⟩ := hall i hi
    refine hmiss k hk (mem_indexes.mpr ⟨i, hi, ?_⟩)
    rw [index, index, hhash]

/-- Three functions of five counters, after twenty adds of one key. -/
theorem filterAdds_test_iff_saturated :
    mixCountingBloomFilterTest (hashFunc 5)
        ((List.replicate 20 7).foldl (mixCountingBloomFilterAdd (hashFunc 5))
          (mixCountingBloomFilterInit 3 5)) 9 = 1 ↔
      ∀ i < 3, ∃ k ∈ List.replicate 20 7, hashFunc 5 k i = hashFunc 5 9 i :=
  filterAdds_test_iff (by decide) (by decide) (by decide) _ 9

end Filter

end Uhs
