import Uhs.Queue.BoundedFifo
import Uhs.Support.Runs

/-!
# Accesses to the data area

`mix_queue_init` allocates `size` bytes and rounds the number of elements up
afterwards.  The slots behind the last whole element that was allocated lie
outside the area, unless the number of elements is a power of two.
-/

namespace Uhs

open Support

/-- The `n` bytes from `start` on lie in an area of `size` bytes. -/
def BytesWithin (start n size : ℕ) : Prop :=
  ∀ a, start ≤ a → a < start + n → a < size

theorem bytesWithin_iff {start n size : ℕ} :
    BytesWithin start n size ↔ n = 0 ∨ start + n ≤ size := by
  constructor
  · intro hwithin
    by_cases hn : n = 0
    · exact Or.inl hn
    · have hlast := hwithin (start + n - 1) (by omega) (by omega)
      right
      omega
  · rintro (hn | hle) a hstart ha
    · omega
    · omega

/-- Whole elements lie in an area with room for `c` of them. -/
theorem bytesWithin_mul_iff {r l c e size : ℕ} (he : 0 < e)
    (hle : c * e ≤ size) (hlt : size < (c + 1) * e) :
    BytesWithin (r * e) (l * e) size ↔ l = 0 ∨ r + l ≤ c := by
  rw [bytesWithin_iff, ← Nat.add_mul]
  apply or_congr
  · simp [he.ne']
  · constructor
    · intro hsize
      have hmul : (r + l) * e < (c + 1) * e := hsize.trans_lt hlt
      exact Nat.lt_succ_iff.mp (Nat.lt_of_mul_lt_mul_right hmul)
    · intro hrl
      exact (Nat.mul_le_mul_right e hrl).trans hle

namespace MixQueue

variable {β : Type*} {queue : MixQueue β} {k e c size : ℕ} {len off : UInt32}

/-- Bytes of a copy before the end of the ring. -/
def firstBytes (queue : MixQueue β) (len off : UInt32) : UInt32 :=
  let (off, size, len) := queue.bytes len off
  min len (size - off)

/-- The two byte ranges of a copy lie within the `size` bytes of the data area
and the products that give them do not wrap. -/
structure CopyWithin (queue : MixQueue β) (size : ℕ) (len off : UInt32) :
    Prop where
  first : BytesWithin (queue.bytes len off).1.toNat
    (queue.firstBytes len off).toNat size
  second : BytesWithin 0
    ((queue.bytes len off).2.2 - queue.firstBytes len off).toNat size
  off_lt : (off &&& queue.mask).toNat * queue.esize.toNat < 2 ^ 32
  size_lt : (queue.mask + 1).toNat * queue.esize.toNat < 2 ^ 32
  len_lt : len.toNat * queue.esize.toNat < 2 ^ 32

/-! ## One copy -/

/-- A copy of whole elements stays inside the area when nothing was rounded
up, or when it ends before the first element without room. -/
theorem Shape.copyWithin_iff (h : Shape queue k e) (hc : c ≤ 2 ^ k)
    (hle : c * e ≤ size) (hlt : size < (c + 1) * e)
    (hlen : len.toNat ≤ 2 ^ k) :
    queue.CopyWithin size len off ↔
      c = 2 ^ k ∨ len.toNat = 0 ∨ off.toNat % 2 ^ k + len.toNat ≤ c := by
  have hmod : off.toNat % 2 ^ k < 2 ^ k := Nat.mod_lt _ (Nat.two_pow_pos k)
  obtain ⟨hoff, -, -⟩ := h.toNat_bytes hlen off
  obtain ⟨hfirst, hrest⟩ := h.toNat_first hlen off
  have hranges : BytesWithin (queue.bytes len off).1.toNat
        (queue.firstBytes len off).toNat size ∧
      BytesWithin 0
        ((queue.bytes len off).2.2 - queue.firstBytes len off).toNat size ↔
      c = 2 ^ k ∨ len.toNat = 0 ∨ off.toNat % 2 ^ k + len.toNat ≤ c := by
    simp only [firstBytes]
    rw [hoff, hfirst, hrest, bytesWithin_mul_iff h.esize_pos hle hlt,
      ← Nat.zero_mul e, bytesWithin_mul_iff h.esize_pos hle hlt]
    omega
  constructor
  · intro hcopy
    exact hranges.mp ⟨hcopy.first, hcopy.second⟩
  · intro hcond
    obtain ⟨hin, hin'⟩ := hranges.mpr hcond
    have hmul : ∀ n ≤ 2 ^ k, n * queue.esize.toNat < 2 ^ 32 := by
      intro n hn
      rw [h.esize]
      exact (Nat.mul_le_mul_right e hn).trans_lt h.size
    refine ⟨hin, hin', ?_, ?_, hmul _ hlen⟩
    · rw [h.toNat_masked]
      exact hmul _ hmod.le
    · rw [h.toNat_capacity]
      exact hmul _ le_rfl

/-! ## Calls -/

/-- A call as a step of a run. -/
def step (queue : MixQueue β) (op : Op (ℕ → β)) : Option (MixQueue β) :=
  some (queue.call op).1

/-- The copy that a call makes stays within the `size` bytes; an empty queue
is not copied from. -/
def SafeStep (size : UInt32) (queue : MixQueue β) : Op (ℕ → β) → Prop
  | .enqueue _ len =>
      queue.CopyWithin size.toNat (clamp len queue.unused) queue.inCount
  | .dequeue _ len =>
      queue.inCount - queue.outCount ≠ 0 →
        queue.CopyWithin size.toNat
          (clamp len (queue.inCount - queue.outCount)) queue.outCount

/-- The number of elements was not rounded up, or the rounded area is still
counted in 32 bits and an enqueue ends at the last whole element at most. -/
def FitsStep (size esize : UInt32) (queue : MixQueue β) :
    Op (ℕ → β) → Prop
  | .enqueue _ len =>
      roundupPowOfTwo (size / esize) = size / esize ∨
        (roundupPowOfTwo (size / esize)).toNat * esize.toNat < 2 ^ 32 ∧
          queue.inCount.toNat + min len.toNat queue.unused.toNat ≤
            (size / esize).toNat
  | .dequeue _ _ => True

/-- A queue of `2 ^ k` slots with room for `c` elements of `e` bytes.  Where
`c` was rounded up, no element has been stored behind the room. -/
structure DataInv (queue : MixQueue β) (k e c : ℕ) : Prop where
  mask : queue.mask.toNat = 2 ^ k - 1
  esize : queue.esize.toNat = e
  esize_pos : 0 < e
  bits_le : k ≤ 31
  le : c ≤ 2 ^ k
  wide : c = 2 ^ k → 2 ^ k * e < 2 ^ 32
  count : (queue.inCount - queue.outCount).toNat ≤ 2 ^ k
  counters : c ≠ 2 ^ k →
    queue.outCount.toNat ≤ queue.inCount.toNat ∧ queue.inCount.toNat ≤ c
  used : queue.inCount - queue.outCount ≠ 0 → 2 ^ k * e < 2 ^ 32

namespace DataInv

theorem shape (h : DataInv queue k e c) (hsize : 2 ^ k * e < 2 ^ 32) :
    Shape queue k e :=
  ⟨h.mask, h.esize, h.esize_pos, hsize⟩

theorem capacity_le (h : DataInv queue k e c) : 2 ^ k ≤ 2 ^ 31 :=
  Nat.pow_le_pow_right (by decide) h.bits_le

theorem toNat_unused (h : DataInv queue k e c) :
    queue.unused.toNat =
      2 ^ k - (queue.inCount - queue.outCount).toNat := by
  have hcap := toNat_capacity h.mask h.bits_le
  rw [unused, mixQueueUnused, UInt32.toNat_sub_of_le, hcap]
  rw [UInt32.le_iff_toNat_le, hcap]
  exact h.count

theorem toNat_accepted (h : DataInv queue k e c) (len : UInt32) :
    (clamp len queue.unused).toNat =
      min len.toNat (2 ^ k - (queue.inCount - queue.outCount).toNat) := by
  rw [toNat_clamp, h.toNat_unused]

theorem toNat_count (h : DataInv queue k e c) (hc : c ≠ 2 ^ k) :
    (queue.inCount - queue.outCount).toNat =
      queue.inCount.toNat - queue.outCount.toNat := by
  rw [UInt32.toNat_sub_of_le]
  exact UInt32.le_iff_toNat_le.mpr (h.counters hc).1

variable {area esize : UInt32}

/-- A call stays within the data area exactly when it fits. -/
theorem safeStep_iff (h : DataInv queue k e c)
    (hround : (roundupPowOfTwo (area / esize)).toNat = 2 ^ k)
    (hc : (area / esize).toNat = c) (he : esize.toNat = e)
    (hle : c * e ≤ area.toNat) (hlt : area.toNat < (c + 1) * e)
    (op : Op (ℕ → β)) :
    SafeStep area queue op ↔ FitsStep area esize queue op := by
  have hexact : roundupPowOfTwo (area / esize) = area / esize ↔
      c = 2 ^ k := by
    rw [← UInt32.toNat_inj, hround, hc, eq_comm]
  cases op with
  | enqueue src len =>
      have haccepted := h.toNat_accepted len
      have hunused := h.toNat_unused
      rw [SafeStep, FitsStep, hexact, hround, hc, he]
      by_cases hsize : 2 ^ k * e < 2 ^ 32
      · rw [(h.shape hsize).copyWithin_iff h.le hle hlt (by omega)]
        by_cases hcap : c = 2 ^ k
        · simp [hcap]
        · obtain ⟨-, hin⟩ := h.counters hcap
          have hcle := h.le
          rw [Nat.mod_eq_of_lt (show queue.inCount.toNat < 2 ^ k by omega)]
          omega
      · constructor
        · intro hcopy
          have hproduct := hcopy.size_lt
          rw [toNat_capacity h.mask h.bits_le, h.esize] at hproduct
          exact absurd hproduct hsize
        · rintro (hcap | ⟨hproduct, -⟩)
          · exact absurd (h.wide hcap) hsize
          · exact absurd hproduct hsize
  | dequeue dst len =>
      rw [SafeStep, FitsStep, iff_true]
      intro hne
      have hclamp := toNat_clamp len (queue.inCount - queue.outCount)
      have hcount := h.count
      rw [(h.shape (h.used hne)).copyWithin_iff h.le hle hlt (by omega)]
      by_cases hcap : c = 2 ^ k
      · exact Or.inl hcap
      · obtain ⟨hout, hin⟩ := h.counters hcap
        have hcle := h.le
        have hdiff := h.toNat_count hcap
        rw [Nat.mod_eq_of_lt (show queue.outCount.toNat < 2 ^ k by omega)]
        omega

/-- Calls that fit keep the room behind the last element unused. -/
theorem call (h : DataInv queue k e c)
    (hround : (roundupPowOfTwo (area / esize)).toNat = 2 ^ k)
    (hc : (area / esize).toNat = c) (he : esize.toNat = e)
    {op : Op (ℕ → β)} (hfits : FitsStep area esize queue op) :
    DataInv (queue.call op).1 k e c := by
  have hcap := h.capacity_le
  have hcount := h.count
  have hin := queue.inCount.toNat_lt
  have hout := queue.outCount.toNat_lt
  rw [UInt32.toNat_sub] at hcount
  cases op with
  | enqueue src len =>
      have haccepted := h.toNat_accepted len
      rw [UInt32.toNat_sub] at haccepted
      rw [FitsStep, ← UInt32.toNat_inj, hround, hc, he, h.toNat_unused,
        UInt32.toNat_sub] at hfits
      refine ⟨h.mask, h.esize, h.esize_pos, h.bits_le, h.le, h.wide, ?_, ?_,
        ?_⟩
      · change (queue.inCount + clamp len queue.unused -
          queue.outCount).toNat ≤ 2 ^ k
        rw [UInt32.toNat_sub, UInt32.toNat_add]
        omega
      · intro hne
        obtain ⟨hle, hroom⟩ := h.counters hne
        have hcle := h.le
        change queue.outCount.toNat ≤
            (queue.inCount + clamp len queue.unused).toNat ∧
          (queue.inCount + clamp len queue.unused).toNat ≤ c
        rw [UInt32.toNat_add]
        omega
      · intro _
        rcases hfits with hexact | ⟨hsize, -⟩
        · exact h.wide hexact.symm
        · exact hsize
  | dequeue dst len =>
      rw [MixQueue.call, mixDequeue]
      by_cases hzero : queue.inCount - queue.outCount = 0
      · rw [if_pos hzero]
        exact h
      · rw [if_neg hzero]
        have hclamp := toNat_clamp len (queue.inCount - queue.outCount)
        rw [UInt32.toNat_sub] at hclamp
        refine ⟨h.mask, h.esize, h.esize_pos, h.bits_le, h.le, h.wide, ?_,
          ?_, fun _ => h.used hzero⟩
        · change (queue.inCount - (queue.outCount +
            clamp len (queue.inCount - queue.outCount))).toNat ≤ 2 ^ k
          rw [UInt32.toNat_sub, UInt32.toNat_add]
          omega
        · intro hne
          obtain ⟨hle, hroom⟩ := h.counters hne
          change (queue.outCount +
              clamp len (queue.inCount - queue.outCount)).toNat ≤
              queue.inCount.toNat ∧ queue.inCount.toNat ≤ c
          rw [UInt32.toNat_add]
          omega

end DataInv

/-! ## A new queue -/

theorem lt_two_pow_fls (x : UInt32) : x.toNat < 2 ^ fls x := by
  rw [fls]
  split_ifs with hzero
  · rw [hzero]
    decide
  · exact Nat.lt_log2_self

/-- Rounding up reaches a power of two of at least two elements only if it
does not wrap. -/
theorem roundupPowOfTwo_spec {x : UInt32} (hlarge : ¬ roundupPowOfTwo x < 2) :
    ∃ k ≤ 31, (roundupPowOfTwo x).toNat = 2 ^ k ∧ x.toNat ≤ 2 ^ k := by
  rw [UInt32.lt_iff_toNat_lt, roundupPowOfTwo, UInt32.toNat_ofNat'] at hlarge
  have hbits : fls (x - 1) ≤ 31 := by
    by_contra hnot
    rw [Nat.mod_eq_zero_of_dvd
      (Nat.pow_dvd_pow 2 (show 32 ≤ fls (x - 1) by omega))] at hlarge
    exact hlarge (by decide)
  have hpow : 2 ^ fls (x - 1) ≤ 2 ^ 31 :=
    Nat.pow_le_pow_right (by decide) hbits
  refine ⟨fls (x - 1), hbits, ?_, ?_⟩
  · rw [roundupPowOfTwo, UInt32.toNat_ofNat', Nat.mod_eq_of_lt (by omega)]
  · have hlt := lt_two_pow_fls (x - 1)
    rw [UInt32.toNat_sub, UInt32.toNat_one] at hlt
    have hx := x.toNat_lt
    omega

/-- The queue that `mix_queue_init` returns. -/
theorem mixQueueInit_dataInv {buffer : ℕ → β} {area esize : UInt32}
    (hinit : mixQueueInit buffer area esize = some queue) :
    ∃ k, (roundupPowOfTwo (area / esize)).toNat = 2 ^ k ∧
      DataInv queue k esize.toNat (area / esize).toNat ∧
      (area / esize).toNat * esize.toNat ≤ area.toNat ∧
      area.toNat < ((area / esize).toNat + 1) * esize.toNat := by
  rw [mixQueueInit] at hinit
  by_cases hpos : area > 0 ∧ esize > 0
  swap
  · simp [hpos] at hinit
  rw [if_pos hpos, initQueue] at hinit
  by_cases hsmall : roundupPowOfTwo (area / esize) < 2
  · simp [hsmall] at hinit
  simp only [if_neg hsmall, Option.some.injEq] at hinit
  subst hinit
  obtain ⟨k, hbits, hround, hle⟩ := roundupPowOfTwo_spec hsmall
  have hesize : 0 < esize.toNat := UInt32.lt_iff_toNat_lt.mp hpos.2
  have hroom : (area / esize).toNat * esize.toNat ≤ area.toNat := by
    rw [UInt32.toNat_div]
    exact Nat.div_mul_le_self _ _
  refine ⟨k, hround, ⟨?_, rfl, hesize, hbits, hle, ?_, ?_, ?_, ?_⟩, hroom, ?_⟩
  · rw [toNat_sub_one (hround ▸ Nat.two_pow_pos k), hround]
  · intro hexact
    rw [← hexact]
    exact hroom.trans_lt area.toNat_lt
  · simp
  · simp
  · simp
  · rw [UInt32.toNat_div, Nat.mul_comm]
    exact Nat.lt_mul_div_succ _ hesize

/-! ## Runs -/

/-- Along a run of calls every copy stays within the bytes that
`mix_queue_init` has allocated exactly when every call fits. -/
theorem safeRun_iff_fitsRun (buffer : ℕ → β) (size esize : UInt32)
    (queue : MixQueue β) (hinit : mixQueueInit buffer size esize = some queue)
    (ops : List (Op (ℕ → β))) :
    AllSteps step (SafeStep size) queue ops ↔
      AllSteps step (FitsStep size esize) queue ops := by
  obtain ⟨k, hround, hinv, hle, hlt⟩ := mixQueueInit_dataInv hinit
  have hiff := fun (q : MixQueue β) op
      (hq : DataInv q k esize.toNat (size / esize).toNat) =>
    hq.safeStep_iff hround rfl rfl hle hlt op
  have hstep : ∀ (q : MixQueue β) op q',
      DataInv q k esize.toNat (size / esize).toNat →
      FitsStep size esize q op → step q op = some q' →
      DataInv q' k esize.toNat (size / esize).toNat := by
    intro q op q' hq hfits hcall
    rw [step, Option.some.injEq] at hcall
    rw [← hcall]
    exact hq.call hround rfl rfl hfits
  constructor
  · intro hsafe
    exact hsafe.of_invariant
      (fun q op q' hq hs => hstep q op q' hq ((hiff q op hq).mp hs))
      (fun q op hq => (hiff q op hq).mp) hinv
  · intro hfits
    exact hfits.of_invariant hstep
      (fun q op hq => (hiff q op hq).mpr) hinv

/-- Three bytes for three elements, of which two are used. -/
theorem safeRun_iff_fitsRun_three :
    AllSteps step (SafeStep 3)
        { inCount := 0, outCount := 0, mask := 3, esize := 1
          data := fun a => a }
        [.enqueue (fun a => a) 2, .dequeue (fun a => a) 4] ↔
      AllSteps step (FitsStep 3 1)
        { inCount := 0, outCount := 0, mask := 3, esize := 1
          data := fun a => a }
        [.enqueue (fun a => a) 2, .dequeue (fun a => a) 4] :=
  safeRun_iff_fitsRun (fun a => a) 3 1 _ rfl _

/-- A queue of three bytes accepts four of them and writes the fourth behind
its data area. -/
theorem threeBytes_not_safe :
    ∃ queue : MixQueue ℕ, mixQueueInit (fun a => a) 3 1 = some queue ∧
      ¬ AllSteps step (SafeStep 3) queue [.enqueue (fun a => a) 4] := by
  refine ⟨_, rfl, fun hsafe => ?_⟩
  have hlast := hsafe.1.first 3 (by decide) (by decide)
  exact absurd hlast (by decide)

end MixQueue

end Uhs
