import Uhs.Core.Bitmap
import Uhs.Support.Runs

/-!
# Next-fit allocation

`mix_bitmap_next_zero_bit` advances its cursor in two branches.  Where it
stands on a clear bit it takes `(b + 1) % N`; where it had to search it takes
`(b + 1) / N`, which is `0`, or `1` after the last bit.  Runs of allocations
and releases are next-fit as long as the clear bits at a call after a search
do not lie on both sides of the place where the cursor should stand.
-/

namespace Uhs

open Support

variable {bitmap : MixBitmap} {n : ℕ}

/-- A bit that was handed out, and the branch that found it. -/
structure Handout where
  bit : ℕ
  searched : Bool
  deriving DecidableEq

/-- A bitmap and what the last allocation returned. -/
structure AllocState where
  bitmap : MixBitmap
  last : Option Handout

/-- The calls of a run. -/
inductive AllocOp where
  | nextZeroBit
  | clearBit (nr : ℕ)

/-- One call; an allocation does not return where the search never ends. -/
def allocStep (s : AllocState) : AllocOp → Option AllocState
  | .nextZeroBit =>
      (mixBitmapNextZeroBit s.bitmap).map fun (slot, bitmap) =>
        { bitmap := bitmap
          last := some
            { bit := slot.toNat
              searched := mixBitmapTestBit s.bitmap s.bitmap.nextBit } }
  | .clearBit nr =>
      some { s with bitmap := (mixBitmapClearBit s.bitmap nr).2 }

/-- A bit is clear. -/
def MixBitmap.HasClear (bitmap : MixBitmap) : Prop :=
  ∃ b < bitmap.bits, mixBitmapTestBit bitmap b = false

/-- An allocation with a clear bit available, after one that returned `b`,
returns the clear bit that comes first from `b + 1` on. -/
def NextFit (s : AllocState) : AllocOp → Prop
  | .nextZeroBit =>
      ∀ h, s.last = some h → s.bitmap.HasClear →
        ∃ (b : ℕ) (bitmap' : MixBitmap),
          mixBitmapNextZeroBit s.bitmap = some ((b : ℤ), bitmap') ∧
            FirstFrom (mixBitmapTestBit s.bitmap) s.bitmap.bits
              ((h.bit + 1) % s.bitmap.bits) b
  | .clearBit _ => True

/-- Where the cursor is left by a search, and where it should be left, are the
two ends of the interval below this bit. -/
def Handout.cut (h : Handout) (n : ℕ) : ℕ :=
  if h.bit + 1 < n then h.bit + 1 else 1

/-- The clear bits lie on one side of the interval between the cursor that a
search has left and the bit behind the one it returned. -/
def OneSided (s : AllocState) : AllocOp → Prop
  | .nextZeroBit =>
      ∀ h, s.last = some h → h.searched = true →
        (∀ b < h.cut s.bitmap.bits, mixBitmapTestBit s.bitmap b = true) ∨
          ∀ b < s.bitmap.bits, h.cut s.bitmap.bits ≤ b →
            mixBitmapTestBit s.bitmap b = true
  | .clearBit _ => True

instance (s : AllocState) : ∀ op, Decidable (OneSided s op)
  | .nextZeroBit =>
      decidableForallSome
        (fun _ => inferInstanceAs (Decidable (_ → _ ∨ ∀ b < _, _ → _))) s.last
  | .clearBit _ => isTrue trivial

/-! ## The cursor after a call -/

/-- The cursor is in range, and it is the one that the branch of the last
allocation has left. -/
structure CursorInv (n : ℕ) (s : AllocState) : Prop where
  ready : s.bitmap.Ready n
  bit_lt : ∀ h, s.last = some h → h.bit < n
  direct : ∀ h, s.last = some h → h.searched = false →
    s.bitmap.nextBit = (h.bit + 1) % n
  searched : ∀ h, s.last = some h → h.searched = true →
    s.bitmap.nextBit = (h.bit + 1) / n

/-- The branch taken decides where the cursor goes. -/
theorem mixBitmapNextZeroBit_cursor (hready : bitmap.Ready n)
    {slot : ℤ} {bitmap' : MixBitmap}
    (h : mixBitmapNextZeroBit bitmap = some (slot, bitmap')) :
    bitmap'.nextBit =
      if mixBitmapTestBit bitmap bitmap.nextBit then (slot.toNat + 1) / n
      else (slot.toNat + 1) % n := by
  rw [mixBitmapTestBit]
  cases hbit : testBit bitmap.array bitmap.nextBit with
  | false =>
      rw [mixBitmapNextZeroBit_of_clear hready hbit] at h
      simp only [Option.some.injEq, Prod.mk.injEq] at h
      obtain ⟨rfl, rfl⟩ := h
      simp
  | true =>
      rw [mixBitmapNextZeroBit_of_set hready hbit,
        Option.map_eq_some_iff] at h
      obtain ⟨s, -, h⟩ := h
      simp only [Prod.mk.injEq] at h
      obtain ⟨rfl, rfl⟩ := h
      simp

/-- A run starts with the cursor anywhere in range. -/
theorem cursorInv_start (hbytes : 0 < bitmap.bytes)
    (hcursor : bitmap.nextBit < bitmap.bits) :
    CursorInv bitmap.bits { bitmap := bitmap, last := none } := by
  refine ⟨⟨rfl, ?_, hcursor⟩, ?_, ?_, ?_⟩
  · rw [MixBitmap.bits, bitsPerByte]
    omega
  all_goals simp

/-- Every call keeps the cursor where the last allocation has left it. -/
theorem allocStep_cursorInv {s s' : AllocState} {op : AllocOp}
    (hinv : CursorInv n s) (hstep : allocStep s op = some s') :
    CursorInv n s' := by
  cases op with
  | clearBit nr =>
      simp only [allocStep, Option.some.injEq] at hstep
      subst hstep
      exact ⟨⟨hinv.ready.bits_eq, hinv.ready.one_lt, hinv.ready.nextBit_lt⟩,
        hinv.bit_lt, hinv.direct, hinv.searched⟩
  | nextZeroBit =>
      rw [allocStep, Option.map_eq_some_iff] at hstep
      obtain ⟨⟨slot, bitmap'⟩, hnext, rfl⟩ := hstep
      obtain ⟨b, rfl, hfirst, -, hready', -⟩ :=
        mixBitmapNextZeroBit_spec hinv.ready hnext
      have hcursor := mixBitmapNextZeroBit_cursor hinv.ready hnext
      refine ⟨hready', ?_, ?_, ?_⟩
      · intro h hlast
        simp only [Option.some.injEq] at hlast
        subst hlast
        exact hfirst.lt
      · intro h hlast hdirect
        simp only [Option.some.injEq] at hlast
        subst hlast
        rw [if_neg (by simpa using hdirect)] at hcursor
        exact hcursor
      · intro h hlast hsearched
        simp only [Option.some.injEq] at hlast
        subst hlast
        rw [if_pos hsearched] at hcursor
        exact hcursor

/-! ## One call -/

/-- The next call is next-fit exactly when the first clear bits from the
cursor and from the place behind the last bit are the same. -/
theorem nextFit_iff_firstFrom {s : AllocState} (hinv : CursorInv n s)
    {h : Handout} (hlast : s.last = some h) {b : ℕ}
    (hfirst : FirstFrom (mixBitmapTestBit s.bitmap) n s.bitmap.nextBit b) :
    NextFit s .nextZeroBit ↔
      FirstFrom (mixBitmapTestBit s.bitmap) n ((h.bit + 1) % n) b := by
  have hbits := hinv.ready.bits_eq
  have hclear : s.bitmap.HasClear := by
    refine ⟨b, ?_, hfirst.1⟩
    rw [hbits]
    exact MixBitmap.IsNextClear.lt hfirst
  obtain ⟨slot, bitmap', hnext⟩ :=
    mixBitmapNextZeroBit_isSome hinv.ready (hbits ▸ hclear)
  obtain ⟨b', rfl, hb', -⟩ := mixBitmapNextZeroBit_spec hinv.ready hnext
  have hbb' : b' = b := MixBitmap.IsNextClear.unique hb' hfirst
  subst hbb'
  rw [NextFit, hbits]
  constructor
  · intro hfit
    obtain ⟨c, bitmap'', hcall, hc⟩ := hfit h hlast hclear
    rw [hnext] at hcall
    simp only [Option.some.injEq, Prod.mk.injEq, Nat.cast_inj] at hcall
    rw [hcall.1]
    exact hc
  · intro hfrom h' hlast' _
    have hh' : h = h' := Option.some.inj (hlast.symm.trans hlast')
    subst hh'
    exact ⟨b', bitmap', hnext, hfrom⟩

/-- The cursor left by a search and the place behind its bit are the two ends
of the interval below the cut. -/
theorem firstFrom_cut_iff {p : ℕ → Bool} {h : Handout} {b : ℕ}
    (hone : 1 < n) (hbit : h.bit < n)
    (hfirst : FirstFrom p n ((h.bit + 1) / n) b) :
    FirstFrom p n ((h.bit + 1) % n) b ↔
      (∀ b < h.cut n, p b = true) ∨
        ∀ b < n, h.cut n ≤ b → p b = true := by
  by_cases hlt : h.bit + 1 < n
  · rw [Nat.div_eq_of_lt hlt] at hfirst
    have hshift := hfirst.add_iff (k := h.bit + 1) hlt
    rw [Nat.mod_eq_of_lt hlt, Handout.cut, if_pos hlt]
    simp only [Nat.zero_add] at hshift
    rw [hshift]
    apply or_congr
    · refine forall₂_congr fun e he => ?_
      rw [Nat.mod_eq_of_lt (by omega)]
    · refine forall₂_congr fun e he => ?_
      rw [Nat.mod_eq_of_lt he]
  · have hlast : h.bit + 1 = n := by omega
    rw [hlast, Nat.div_self (by omega)] at hfirst
    have hshift := hfirst.add_iff (k := n - 1) (by omega)
    have hround : 1 + (n - 1) = n := by omega
    rw [hround, ← firstFrom_mod_iff] at hshift
    rw [hlast, hshift, Handout.cut, if_neg hlt, or_comm]
    apply or_congr
    · constructor
      · intro hset e he
        have h0 := hset (n - 1) (by omega) (by omega)
        rwa [hround, Nat.mod_self, show 0 = e by omega] at h0
      · intro hset e he hle
        have he' : e = n - 1 := by omega
        rw [he', hround, Nat.mod_self]
        exact hset 0 (by omega)
    · constructor
      · intro hset e he hle
        have h1 := hset (e - 1) (by omega)
        rwa [Nat.add_sub_of_le hle, Nat.mod_eq_of_lt he] at h1
      · intro hset e he
        rw [Nat.mod_eq_of_lt (by omega)]
        exact hset (1 + e) (by omega) (by omega)

/-- After the direct branch the next call is next-fit. -/
theorem nextFit_of_direct {s : AllocState} (hinv : CursorInv n s)
    {h : Handout} (hlast : s.last = some h) (hdirect : h.searched = false)
    (hclear : s.bitmap.HasClear) : NextFit s .nextZeroBit := by
  have hbits := hinv.ready.bits_eq
  obtain ⟨slot, bitmap', hnext⟩ :=
    mixBitmapNextZeroBit_isSome hinv.ready (hbits ▸ hclear)
  obtain ⟨b, rfl, hfirst, -⟩ := mixBitmapNextZeroBit_spec hinv.ready hnext
  rw [nextFit_iff_firstFrom hinv hlast hfirst,
    ← hinv.direct h hlast hdirect]
  exact hfirst

/-- One call is next-fit exactly when the clear bits lie on one side. -/
theorem nextFit_iff_oneSided {s : AllocState} (hinv : CursorInv n s)
    (op : AllocOp) : NextFit s op ↔ OneSided s op := by
  cases op with
  | clearBit nr => exact Iff.rfl
  | nextZeroBit =>
      have hbits := hinv.ready.bits_eq
      by_cases hclear : s.bitmap.HasClear
      · obtain ⟨slot, bitmap', hnext⟩ :=
          mixBitmapNextZeroBit_isSome hinv.ready (hbits ▸ hclear)
        obtain ⟨b, rfl, hfirst, -⟩ :=
          mixBitmapNextZeroBit_spec hinv.ready hnext
        cases hlast : s.last with
        | none => simp [NextFit, OneSided, hlast]
        | some h =>
            cases hsearched : h.searched with
            | false =>
                have hfit := nextFit_of_direct hinv hlast hsearched hclear
                simp [hfit, OneSided, hlast, hsearched]
            | true =>
                rw [nextFit_iff_firstFrom hinv hlast hfirst,
                  firstFrom_cut_iff hinv.ready.one_lt (hinv.bit_lt h hlast)
                    (hinv.searched h hlast hsearched ▸ hfirst)]
                simp [OneSided, hlast, hsearched, hbits]
      · constructor
        · intro _ h _ _
          right
          intro b hb _
          by_contra hset
          apply hclear
          exact ⟨b, hb, by simpa using hset⟩
        · intro _ h _ hclear'
          exact absurd hclear' hclear

/-! ## Runs of allocations and releases -/

/-- A next-fit run meets the clear bits on one side at every call. -/
theorem oneSided_of_nextFit {s : AllocState} {ops : List AllocOp}
    (hinv : CursorInv n s) (hfit : AllSteps allocStep NextFit s ops) :
    AllSteps allocStep OneSided s ops :=
  hfit.of_invariant (fun _ _ _ hs _ hstep => allocStep_cursorInv hs hstep)
    (fun _ op hs => (nextFit_iff_oneSided hs op).mp) hinv

/-- Allocation is next-fit along a run exactly when no call that follows a
search meets clear bits on both sides. -/
theorem allocRun_nextFit_iff (bitmap : MixBitmap) (hbytes : 0 < bitmap.bytes)
    (hcursor : bitmap.nextBit < bitmap.bits) (ops : List AllocOp) :
    AllSteps allocStep NextFit { bitmap := bitmap, last := none } ops ↔
      AllSteps allocStep OneSided { bitmap := bitmap, last := none } ops := by
  have hstart := cursorInv_start hbytes hcursor
  constructor
  · exact oneSided_of_nextFit hstart
  · intro hsides
    exact hsides.of_invariant
      (fun _ _ _ hs _ hstep => allocStep_cursorInv hs hstep)
      (fun _ op hs => (nextFit_iff_oneSided hs op).mpr) hstart

/-- Fill eight bits, free bits `3` and `5`, take both by a search each, free
bit `1`, and take it by a search. -/
def oneSidedBits : List AllocOp :=
  List.replicate 8 .nextZeroBit ++
    [.clearBit 3, .clearBit 5, .nextZeroBit, .nextZeroBit, .clearBit 1,
      .nextZeroBit]

theorem allocRun_nextFit_iff_recycled :
    AllSteps allocStep NextFit { bitmap := mixBitmapInit 8, last := none }
      oneSidedBits :=
  (allocRun_nextFit_iff (mixBitmapInit 8) (by decide) (by decide) _).mpr
    (by decide)

/-- Fill eight bits, free bits `1` and `3`, take `1` by a search, free bit
`0`, and allocate once more. -/
def recycledBits : List AllocOp :=
  [.nextZeroBit, .nextZeroBit, .nextZeroBit, .nextZeroBit, .nextZeroBit,
    .nextZeroBit, .nextZeroBit, .nextZeroBit, .clearBit 1, .clearBit 3,
    .nextZeroBit, .clearBit 0, .nextZeroBit]

/-- The last call returns bit `0` where bit `3` comes first after bit `1`. -/
theorem recycledBits_not_nextFit :
    0 < (mixBitmapInit 8).bytes ∧
      (mixBitmapInit 8).nextBit < (mixBitmapInit 8).bits ∧
      ¬ AllSteps allocStep NextFit
        { bitmap := mixBitmapInit 8, last := none } recycledBits := by
  refine ⟨by decide, by decide, fun hfit => ?_⟩
  have hstart : CursorInv (mixBitmapInit 8).bits
      { bitmap := mixBitmapInit 8, last := none } :=
    cursorInv_start (by decide) (by decide)
  exact absurd (oneSided_of_nextFit hstart hfit) (by decide)

end Uhs
