import Uhs.Queue.Counters
import Uhs.Support.Fifo
import Uhs.Support.Replies

/-!
# The queue is a bounded first-in first-out queue

The byte ranges that the two copies move are whole elements, in the slots
that follow the masked counter.  The queue then holds the elements from
`outCount` on, and both operations are those of a bounded list, however often
the counters have wrapped.
-/

namespace Uhs

open Support

namespace MixQueue

variable {β : Type*} {queue : MixQueue β} {k e : ℕ}

/-! ## Copies of elements -/

/-- A queue of `2 ^ k` elements of `e` bytes. -/
structure Shape (queue : MixQueue β) (k e : ℕ) : Prop where
  mask : queue.mask.toNat = 2 ^ k - 1
  esize : queue.esize.toNat = e
  esize_pos : 0 < e
  size : 2 ^ k * e < 2 ^ 32

namespace Shape

theorem capacity_lt (h : Shape queue k e) : 2 ^ k < 2 ^ 32 :=
  (Nat.le_mul_of_pos_right _ h.esize_pos).trans_lt h.size

theorem bits_le (h : Shape queue k e) : k ≤ 31 :=
  Nat.lt_succ_iff.mp ((Nat.pow_lt_pow_iff_right Nat.one_lt_two).mp
    h.capacity_lt)

theorem capacity_dvd (h : Shape queue k e) : 2 ^ k ∣ 2 ^ 32 :=
  Nat.pow_dvd_pow 2 (h.bits_le.trans (by decide))

theorem toNat_capacity (h : Shape queue k e) :
    (queue.mask + 1).toNat = 2 ^ k := Uhs.toNat_capacity h.mask h.bits_le

theorem toNat_masked (h : Shape queue k e) (off : UInt32) :
    (off &&& queue.mask).toNat = off.toNat % 2 ^ k := by
  rw [UInt32.toNat_and, h.mask, Nat.and_two_pow_sub_one_eq_mod]

/-- A number of elements within the capacity, in bytes. -/
theorem toNat_mul_esize (h : Shape queue k e) {n : UInt32}
    (hn : n.toNat ≤ 2 ^ k) : (n * queue.esize).toNat = n.toNat * e := by
  rw [UInt32.toNat_mul, h.esize, Nat.mod_eq_of_lt]
  exact (Nat.mul_le_mul_right e hn).trans_lt h.size

/-- Offset, size and length of a copy are whole elements. -/
theorem toNat_bytes (h : Shape queue k e) {len : UInt32}
    (hlen : len.toNat ≤ 2 ^ k) (off : UInt32) :
    (queue.bytes len off).1.toNat = off.toNat % 2 ^ k * e ∧
      (queue.bytes len off).2.1.toNat = 2 ^ k * e ∧
      (queue.bytes len off).2.2.toNat = len.toNat * e := by
  have hoff := h.toNat_masked off
  have hle : (off &&& queue.mask).toNat ≤ 2 ^ k := by
    rw [hoff]
    exact (Nat.mod_lt _ (Nat.two_pow_pos k)).le
  have hcap := h.toNat_capacity
  by_cases hone : queue.esize = 1
  · have he : e = 1 := by
      rw [← h.esize, hone, UInt32.toNat_one]
    rw [bytes, if_neg (not_not.mpr hone), he, Nat.mul_one, Nat.mul_one,
      Nat.mul_one]
    exact ⟨hoff, hcap, rfl⟩
  · rw [bytes, if_pos hone]
    refine ⟨?_, ?_, h.toNat_mul_esize hlen⟩
    · rw [h.toNat_mul_esize hle, hoff]
    · rw [h.toNat_mul_esize hcap.le, hcap]

/-- The part of a copy before the end of the ring. -/
theorem toNat_first (h : Shape queue k e) {len : UInt32}
    (hlen : len.toNat ≤ 2 ^ k) (off : UInt32) :
    let copy := queue.bytes len off
    (min copy.2.2 (copy.2.1 - copy.1)).toNat =
      min len.toNat (2 ^ k - off.toNat % 2 ^ k) * e ∧
    (copy.2.2 - min copy.2.2 (copy.2.1 - copy.1)).toNat =
      (len.toNat - min len.toNat (2 ^ k - off.toNat % 2 ^ k)) * e := by
  intro copy
  obtain ⟨hoff, hsize, hbytes⟩ := h.toNat_bytes hlen off
  have hmod : off.toNat % 2 ^ k < 2 ^ k := Nat.mod_lt _ (Nat.two_pow_pos k)
  have hrest : (copy.2.1 - copy.1).toNat =
      (2 ^ k - off.toNat % 2 ^ k) * e := by
    rw [UInt32.toNat_sub_of_le, hoff, hsize, Nat.sub_mul]
    rw [UInt32.le_iff_toNat_le, hoff, hsize]
    exact Nat.mul_le_mul_right e hmod.le
  have hmin : (min copy.2.2 (copy.2.1 - copy.1)).toNat =
      min len.toNat (2 ^ k - off.toNat % 2 ^ k) * e := by
    rw [UInt32.toNat_min, hbytes, hrest, ← Nat.mul_min_mul_right]
  refine ⟨hmin, ?_⟩
  rw [UInt32.toNat_sub_of_le, hmin, hbytes, Nat.sub_mul]
  rw [UInt32.le_iff_toNat_le, hmin, hbytes]
  exact Nat.mul_le_mul_right e (Nat.min_le_left _ _)

/-- The two ranges that `__mix_enqueue` writes. -/
theorem element_copyEnqueue_ranges (h : Shape queue k e) (src : ℕ → β)
    {len off : UInt32} (hlen : len.toNat ≤ 2 ^ k) (s : ℕ) :
    let r := off.toNat % 2 ^ k
    let l := min len.toNat (2 ^ k - r)
    element e (queue.copyEnqueue src len off).1 s =
      if s < len.toNat - l then element e src (l + s)
      else if r ≤ s ∧ s < r + l then element e src (s - r)
      else element e queue.data s := by
  intro r l
  obtain ⟨hoff, -, -⟩ := h.toNat_bytes hlen off
  obtain ⟨hfirst, hrest⟩ := h.toNat_first hlen off
  simp only [copyEnqueue]
  rw [element_memcpy (Nat.zero_mul e).symm hfirst hrest,
    element_memcpy hoff (Nat.zero_mul e).symm hfirst]
  simp only [Nat.zero_le, true_and, Nat.zero_add, Nat.sub_zero, r, l]

/-- `__mix_enqueue` writes the elements one after another. -/
theorem element_copyEnqueue (h : Shape queue k e) (src : ℕ → β)
    {len off : UInt32} (hlen : len.toNat ≤ 2 ^ k) {s : ℕ} (hs : s < 2 ^ k) :
    element e (queue.copyEnqueue src len off).1 s =
      fill (2 ^ k) (element e queue.data) off.toNat (element e src)
        len.toNat s := by
  have hmod : off.toNat % 2 ^ k < 2 ^ k := Nat.mod_lt _ (Nat.two_pow_pos k)
  rw [h.element_copyEnqueue_ranges src hlen, fill_eq hlen hs]
  by_cases hwrap : s < len.toNat - min len.toNat (2 ^ k - off.toNat % 2 ^ k)
  · rw [if_pos hwrap, if_neg (by omega), if_pos (by omega)]
    congr 1
    omega
  · rw [if_neg hwrap]
    split_ifs <;> first | rfl | omega

/-- `__mix_enqueue` writes nothing behind the data area. -/
theorem element_copyEnqueue_of_le (h : Shape queue k e) (src : ℕ → β)
    {len off : UInt32} (hlen : len.toNat ≤ 2 ^ k) {s : ℕ} (hs : 2 ^ k ≤ s) :
    element e (queue.copyEnqueue src len off).1 s =
      element e queue.data s := by
  have hmod : off.toNat % 2 ^ k < 2 ^ k := Nat.mod_lt _ (Nat.two_pow_pos k)
  rw [h.element_copyEnqueue_ranges src hlen, if_neg (by omega),
    if_neg (by omega)]

/-- `__mix_dequeue` reads the elements one after another. -/
theorem element_copyDequeue (h : Shape queue k e) (dst : ℕ → β)
    {len off : UInt32} (hlen : len.toNat ≤ 2 ^ k) (i : ℕ) :
    element e (queue.copyDequeue dst len off) i =
      if i < len.toNat then
        element e queue.data ((off.toNat + i) % 2 ^ k)
      else element e dst i := by
  obtain ⟨hoff, -, -⟩ := h.toNat_bytes hlen off
  obtain ⟨hfirst, hrest⟩ := h.toNat_first hlen off
  have hmod : off.toNat % 2 ^ k < 2 ^ k := Nat.mod_lt _ (Nat.two_pow_pos k)
  simp only [copyDequeue]
  rw [element_memcpy hfirst (Nat.zero_mul e).symm hrest,
    element_memcpy (Nat.zero_mul e).symm hoff hfirst]
  by_cases hi : i < len.toNat
  · rw [if_pos hi, ← slot_offset (by omega)]
    by_cases hwrap : off.toNat % 2 ^ k + i < 2 ^ k
    · rw [if_pos hwrap, if_neg (by omega), if_pos (by omega)]
      congr 1
    · rw [if_neg hwrap, if_pos (by omega)]
      congr 1
      omega
  · rw [if_neg hi, if_neg (by omega), if_neg (by omega)]

end Shape

/-! ## The elements of the queue -/

/-- The queue holds `items`: they stand in the slots from `outCount` on. -/
structure Holds (queue : MixQueue β) (k e : ℕ) (items : List (List β)) :
    Prop extends Shape queue k e where
  count : (queue.inCount - queue.outCount).toNat = items.length
  bounded : items.length ≤ 2 ^ k
  slots : ∀ i (hi : i < items.length),
    element e queue.data ((queue.outCount.toNat + i) % 2 ^ k) = items[i]

namespace Holds

variable {items : List (List β)}

/-- The slots from `inCount` on follow the elements of the queue. -/
theorem slot_inCount (h : Holds queue k e items) (i : ℕ) :
    (queue.inCount.toNat + i) % 2 ^ k =
      (queue.outCount.toNat + (items.length + i)) % 2 ^ k := by
  have hin : queue.inCount.toNat =
      (queue.outCount.toNat + items.length) % 2 ^ 32 := by
    have hcount := h.count
    have hin := queue.inCount.toNat_lt
    have hout := queue.outCount.toNat_lt
    rw [UInt32.toNat_sub] at hcount
    omega
  rw [hin, slot_wrap h.capacity_dvd, Nat.add_assoc]

theorem toNat_unused (h : Holds queue k e items) :
    queue.unused.toNat = 2 ^ k - items.length := by
  have hle : queue.inCount - queue.outCount ≤ queue.mask + 1 := by
    rw [UInt32.le_iff_toNat_le, h.toNat_capacity, h.count]
    exact h.bounded
  rw [unused, mixQueueUnused, UInt32.toNat_sub_of_le _ _ hle,
    h.toNat_capacity, h.count]

/-- `mix_enqueue` appends what fits. -/
theorem mixEnqueue (h : Holds queue k e items) (src : ℕ → β)
    (len : UInt32) :
    let n := min len.toNat (2 ^ k - items.length)
    (queue.mixEnqueue src len).2.toNat = n ∧
      Holds (queue.mixEnqueue src len).1 k e
        (items ++ (List.range n).map (element e src)) := by
  intro n
  have hclamp := toNat_clamp len queue.unused
  rw [h.toNat_unused] at hclamp
  have hbounded := h.bounded
  have hcap := h.capacity_lt
  refine ⟨hclamp, ⟨⟨h.mask, h.esize, h.esize_pos, h.size⟩, ?_, ?_, ?_⟩⟩
  · have hcount := h.count
    have hin := queue.inCount.toNat_lt
    have hout := queue.outCount.toNat_lt
    rw [UInt32.toNat_sub] at hcount
    simp only [MixQueue.mixEnqueue, List.length_append, List.length_map,
      List.length_range]
    rw [UInt32.toNat_sub, UInt32.toNat_add, hclamp]
    omega
  · simp only [List.length_append, List.length_map, List.length_range]
    omega
  · intro i hi
    simp only [List.length_append, List.length_map, List.length_range] at hi
    have hlen : (clamp len queue.unused).toNat ≤ 2 ^ k := by omega
    simp only [MixQueue.mixEnqueue]
    rw [h.element_copyEnqueue src hlen (Nat.mod_lt _ (Nat.two_pow_pos k)),
      hclamp]
    by_cases hold : i < items.length
    · rw [List.getElem_append_left hold, fill_of_ne, h.slots i hold]
      intro j hj heq
      rw [h.slot_inCount] at heq
      have hpos := slot_inj (w := queue.outCount.toNat) (by omega)
        (by omega) heq
      omega
    · rw [List.getElem_append_right (by omega), List.getElem_map,
        List.getElem_range]
      have hat := fill_slot (element e queue.data) (element e src)
        queue.inCount.toNat (i := i - items.length) (n := n) (C := 2 ^ k)
        (by omega) (by omega)
      rwa [h.slot_inCount, Nat.add_sub_cancel' (by omega)] at hat

/-- `mix_dequeue` removes the first elements and copies them. -/
theorem mixDequeue (h : Holds queue k e items) (dst : ℕ → β)
    (len : UInt32) :
    let n := min len.toNat items.length
    (queue.mixDequeue dst len).2.2.toNat = n ∧
      (∀ i, element e (queue.mixDequeue dst len).2.1 i =
        (items.take n).getD i (element e dst i)) ∧
      Holds (queue.mixDequeue dst len).1 k e (items.drop n) := by
  intro n
  have hcount := h.count
  have hbounded := h.bounded
  have hcap := h.capacity_lt
  by_cases hzero : queue.inCount - queue.outCount = 0
  · have hnil : items = [] := by
      rw [hzero] at hcount
      exact List.length_eq_zero_iff.mp hcount.symm
    subst hnil
    simp only [MixQueue.mixDequeue, if_pos hzero]
    refine ⟨?_, fun i => ?_, ?_⟩
    · rw [hzero]
      exact (Nat.min_zero _).symm
    · rw [List.take_nil, List.getD_nil]
    · rw [List.drop_nil]
      exact h
  · have hclamp := toNat_clamp len (queue.inCount - queue.outCount)
    rw [hcount] at hclamp
    have hlen : (clamp len (queue.inCount - queue.outCount)).toNat ≤ 2 ^ k := by
      omega
    simp only [MixQueue.mixDequeue, if_neg hzero]
    refine ⟨hclamp, fun i => ?_,
      ⟨⟨h.mask, h.esize, h.esize_pos, h.size⟩, ?_, ?_, ?_⟩⟩
    · rw [h.element_copyDequeue dst hlen, hclamp]
      by_cases hi : i < n
      · rw [if_pos hi, h.slots i (by omega), List.getD_eq_getElem?_getD,
          List.getElem?_take_of_lt hi, List.getElem?_eq_getElem,
          Option.getD_some]
      · rw [if_neg hi, List.getD_eq_getElem?_getD, List.getElem?_take,
          if_neg hi, Option.getD_none]
    · have hin := queue.inCount.toNat_lt
      have hout := queue.outCount.toNat_lt
      have hn : n = min len.toNat items.length := rfl
      rw [UInt32.toNat_sub] at hcount
      rw [List.length_drop]
      show (queue.inCount - (queue.outCount + _)).toNat = _
      rw [UInt32.toNat_sub, UInt32.toNat_add, hclamp]
      omega
    · rw [List.length_drop]
      omega
    · intro i hi
      rw [List.length_drop] at hi
      have hat := h.slots (n + i) (by omega)
      rw [UInt32.toNat_add, hclamp, slot_wrap h.capacity_dvd,
        List.getElem_drop, ← hat, Nat.add_assoc]

end Holds

/-! ## Runs -/

/-- An operation of a queue with the memory it is given. -/
inductive Op (μ : Type*)
  | enqueue (src : μ) (len : UInt32)
  | dequeue (dst : μ) (len : UInt32)

/-- The destination of a dequeue and the number returned. -/
abbrev Reply (μ : Type*) := Option μ × ℕ

def Op.map {μ ν : Type*} (f : μ → ν) : Op μ → Op ν
  | .enqueue src len => .enqueue (f src) len
  | .dequeue dst len => .dequeue (f dst) len

/-- One call of `mix_enqueue` or `mix_dequeue`. -/
def call (queue : MixQueue β) :
    Op (ℕ → β) → MixQueue β × Reply (ℕ → β)
  | .enqueue src len =>
      let (queue, n) := queue.mixEnqueue src len
      (queue, none, n.toNat)
  | .dequeue dst len =>
      let (queue, dst, n) := queue.mixDequeue dst len
      (queue, some dst, n.toNat)

/-- The same calls of a bounded list. -/
def fifoCall {α : Type*} {C : ℕ} (f : Fifo α C) :
    Op (ℕ → α) → Fifo α C × Reply (ℕ → α)
  | .enqueue src len =>
      let (f, n) := f.enqueue src len.toNat
      (f, none, n)
  | .dequeue dst len =>
      let (f, dst, n) := f.dequeue dst len.toNat
      (f, some dst, n)

/-- A queue that holds elements simulates the list of them. -/
theorem simulates_fifo (buffer : ℕ → β) :
    Simulates (call (β := β)) (fifoCall (C := 2 ^ k))
      (Op.map (element e)) (Prod.map (Option.map (element e)) id)
      fun queue f => Holds queue k e f.items ∧
        ∀ s, 2 ^ k ≤ s → element e queue.data s = element e buffer s where
  state := by
    rintro queue f op ⟨hholds, hbeyond⟩
    cases op with
    | enqueue src len =>
        refine ⟨(hholds.mixEnqueue src len).2, fun s hs => ?_⟩
        have hclamp := toNat_clamp len queue.unused
        have hpos := Nat.two_pow_pos k
        rw [hholds.toNat_unused] at hclamp
        exact (hholds.element_copyEnqueue_of_le src (by omega) hs).trans
          (hbeyond s hs)
    | dequeue dst len =>
        refine ⟨(hholds.mixDequeue dst len).2.2, fun s hs => ?_⟩
        have hdata : (queue.mixDequeue dst len).1.data = queue.data := by
          rw [MixQueue.mixDequeue]
          split_ifs <;> rfl
        exact (congrArg (element e · s) hdata).trans (hbeyond s hs)
  reply := by
    rintro queue f op ⟨hholds, -⟩
    cases op with
    | enqueue src len =>
        exact Prod.ext rfl (hholds.mixEnqueue src len).1
    | dequeue dst len =>
        obtain ⟨hnum, hdst, -⟩ := hholds.mixDequeue dst len
        exact Prod.ext (congrArg some (funext hdst)) hnum

/-! ## A new queue -/

theorem fls_two_pow_sub_one {x : UInt32} (hk : 0 < k)
    (hx : x.toNat = 2 ^ k - 1) : fls x = k := by
  have hpow : 2 ^ k = 2 * 2 ^ (k - 1) := by
    rw [← Nat.pow_succ', Nat.succ_eq_add_one, Nat.sub_add_cancel hk]
  have hpos := Nat.two_pow_pos (k - 1)
  have hne : x ≠ 0 := by
    rintro rfl
    rw [UInt32.toNat_zero] at hx
    omega
  have hlog : Nat.log2 x.toNat = k - 1 := by
    rw [Nat.log2_eq_iff (by omega), Nat.sub_add_cancel hk]
    omega
  rw [fls, if_neg hne, hlog, Nat.sub_add_cancel hk]

theorem toNat_sub_one {x : UInt32} (hx : 0 < x.toNat) :
    (x - 1).toNat = x.toNat - 1 := by
  rw [UInt32.toNat_sub_of_le, UInt32.toNat_one]
  rw [UInt32.le_iff_toNat_le, UInt32.toNat_one]
  exact hx

/-- Rounding up the number of elements of an area of `2 ^ k` of them. -/
theorem roundup_size (hk : 1 ≤ k) (he : 1 ≤ e) (hsize : 2 ^ k * e < 2 ^ 32) :
    roundupPowOfTwo (UInt32.ofNat (2 ^ k * e) / UInt32.ofNat e) =
      UInt32.ofNat (2 ^ k) := by
  have hcap : 2 ^ k < 2 ^ 32 :=
    (Nat.le_mul_of_pos_right _ he).trans_lt hsize
  have hesize : e < 2 ^ 32 :=
    (Nat.le_mul_of_pos_left _ (Nat.two_pow_pos k)).trans_lt hsize
  have hnat := UInt32.toNat_ofNat_of_lt' hcap
  have hdiv : UInt32.ofNat (2 ^ k * e) / UInt32.ofNat e =
      UInt32.ofNat (2 ^ k) := by
    rw [← UInt32.toNat_inj, UInt32.toNat_div,
      UInt32.toNat_ofNat_of_lt' hsize, UInt32.toNat_ofNat_of_lt' hesize,
      hnat, Nat.mul_div_cancel _ he]
  rw [hdiv, roundupPowOfTwo, fls_two_pow_sub_one hk]
  rw [toNat_sub_one (by rw [hnat]; exact Nat.two_pow_pos k), hnat]

/-- `mix_queue_init` of `2 ^ k` elements. -/
theorem mixQueueInit_eq (hk : 1 ≤ k) (he : 1 ≤ e)
    (hsize : 2 ^ k * e < 2 ^ 32) (buffer : ℕ → β) :
    mixQueueInit buffer (UInt32.ofNat (2 ^ k * e)) (UInt32.ofNat e) =
      some { inCount := 0, outCount := 0, mask := UInt32.ofNat (2 ^ k) - 1
             esize := UInt32.ofNat e, data := buffer } := by
  have hpow : 2 ≤ 2 ^ k := Nat.le_self_pow (by omega) 2
  have hcap : 2 ^ k < 2 ^ 32 :=
    (Nat.le_mul_of_pos_right _ he).trans_lt hsize
  have hesize : e < 2 ^ 32 :=
    (Nat.le_mul_of_pos_left _ (by omega)).trans_lt hsize
  have hlarge : ¬ UInt32.ofNat (2 ^ k) < 2 := by
    rw [UInt32.lt_iff_toNat_lt, UInt32.toNat_ofNat_of_lt' hcap]
    exact Nat.not_lt.mpr hpow
  have hpos : UInt32.ofNat (2 ^ k * e) > 0 ∧ UInt32.ofNat e > 0 := by
    rw [gt_iff_lt, gt_iff_lt, UInt32.lt_iff_toNat_lt, UInt32.lt_iff_toNat_lt,
      UInt32.toNat_ofNat_of_lt' hsize, UInt32.toNat_ofNat_of_lt' hesize]
    exact ⟨Nat.mul_pos (by omega) he, he⟩
  rw [mixQueueInit, if_pos hpos, initQueue]
  simp only [roundup_size hk he hsize, if_neg hlarge]

/-- A queue without elements. -/
theorem holds_empty (he : 1 ≤ e) (hsize : 2 ^ k * e < 2 ^ 32)
    (buffer : ℕ → β) :
    Holds { inCount := 0, outCount := 0, mask := UInt32.ofNat (2 ^ k) - 1
            esize := UInt32.ofNat e, data := buffer } k e [] := by
  have hcap : 2 ^ k < 2 ^ 32 :=
    (Nat.le_mul_of_pos_right _ he).trans_lt hsize
  have hesize : e < 2 ^ 32 :=
    (Nat.le_mul_of_pos_left _ (Nat.two_pow_pos k)).trans_lt hsize
  have hnat := UInt32.toNat_ofNat_of_lt' hcap
  refine ⟨⟨?_, UInt32.toNat_ofNat_of_lt' hesize, he, hsize⟩, ?_,
    Nat.zero_le _, fun i hi => absurd hi (Nat.not_lt_zero i)⟩
  · rw [toNat_sub_one (by rw [hnat]; exact Nat.two_pow_pos k), hnat]
  · exact congrArg UInt32.toNat (UInt32.sub_self 0)

/-! ## The queue is a bounded list -/

/-- A queue of `2 ^ k` elements of `e` bytes replies to every sequence of
calls as a list of at most `2 ^ k` elements does, element by element of the
memories, and writes nothing behind its data area. -/
theorem replies_eq_fifo (hk : 1 ≤ k) (he : 1 ≤ e)
    (hsize : 2 ^ k * e < 2 ^ 32) (buffer : ℕ → β) :
    ∃ queue, mixQueueInit buffer (UInt32.ofNat (2 ^ k * e))
        (UInt32.ofNat e) = some queue ∧
      ∀ ops : List (Op (ℕ → β)),
        (replies call queue ops).map
            (Prod.map (Option.map (element e)) id) =
          replies fifoCall (Fifo.empty (C := 2 ^ k))
            (ops.map (Op.map (element e))) ∧
        ∀ s, 2 ^ k ≤ s →
          element e (final call queue ops).data s = element e buffer s := by
  refine ⟨_, mixQueueInit_eq hk he hsize buffer, fun ops => ?_⟩
  have hholds := holds_empty he hsize buffer
  have hsim := simulates_fifo (k := k) (e := e) buffer
  have hstart : Holds _ k e (Fifo.empty (C := 2 ^ k)).items ∧ ∀ s, 2 ^ k ≤ s →
      element e buffer s = element e buffer s := ⟨hholds, fun _ _ => rfl⟩
  exact ⟨hsim.replies hstart ops, (hsim.final hstart ops).2⟩

/-- Eight elements of three bytes. -/
theorem replies_eq_fifo_example :
    ∃ queue, mixQueueInit (fun a => a) (UInt32.ofNat (2 ^ 3 * 3))
        (UInt32.ofNat 3) = some queue ∧
      ∀ ops : List (Op (ℕ → ℕ)),
        (replies call queue ops).map
            (Prod.map (Option.map (element 3)) id) =
          replies fifoCall (Fifo.empty (C := 2 ^ 3))
            (ops.map (Op.map (element 3))) ∧
        ∀ s, 2 ^ 3 ≤ s →
          element 3 (final call queue ops).data s =
            element 3 (fun a => a) s :=
  replies_eq_fifo (by decide) (by decide) (by decide) _

end MixQueue

end Uhs
