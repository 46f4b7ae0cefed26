import Uhs.Queue.BoundedFifo

/-!
# The ring of `io_ring.h`

`IoRing` copies as the queue of `mix_queue.c` does, but advances its counters
by what the copy returns, which is a number of bytes, while it masks them and
compares them as numbers of elements.  With elements of one byte it is that
queue; with larger elements it is not.
-/

namespace Uhs

open Support

/-- The members of `IoRing`. -/
structure IoRing (β : Type*) where
  inCount : UInt32
  outCount : UInt32
  mask : UInt32
  esize : UInt32
  data : ℕ → β

namespace IoRing

variable {β : Type*}

/-- The members under the names of `mix_queue_t`. -/
def queue (ring : IoRing β) : MixQueue β where
  inCount := ring.inCount
  outCount := ring.outCount
  mask := ring.mask
  esize := ring.esize
  data := ring.data

/-- The constructor, with `esize_` set to its argument and a data area with
the contents `buffer`. -/
def ioRing (buffer : ℕ → β) (size esize : UInt32) : Option (IoRing β) :=
  if size > 2 then
    let size := roundupPowOfTwo (size / esize)
    some
      { inCount := 0, outCount := 0, mask := size - 1, esize := esize
        data := buffer }
  else none

/-- `unused`. -/
def unused (ring : IoRing β) : UInt32 :=
  mixQueueUnused ring.mask ring.inCount ring.outCount

/-- `used`. -/
def used (ring : IoRing β) : UInt32 := ring.inCount - ring.outCount

/-- `ringInBurstReally`: the data area and the bytes before the end. -/
def ringInBurstReally (ring : IoRing β) (src : ℕ → β) (len : UInt32) :
    (ℕ → β) × UInt32 := ring.queue.copyEnqueue src len ring.inCount

/-- `ringOutBurstReally`: the destination and the bytes before the end. -/
def ringOutBurstReally (ring : IoRing β) (dst : ℕ → β) (len : UInt32) :
    (ℕ → β) × UInt32 :=
  let (off, size, bytes) := ring.queue.bytes len ring.outCount
  (ring.queue.copyDequeue dst len ring.outCount, min bytes (size - off))

/-- `ringIn`. -/
def ringIn (ring : IoRing β) (src : ℕ → β) : IoRing β × UInt32 :=
  let len := clamp 1 ring.unused
  let (data, l) := ring.ringInBurstReally src len
  ({ ring with data := data, inCount := ring.inCount + l }, l)

/-- `ringOut`: the ring, the destination and the result. -/
def ringOut (ring : IoRing β) (dst : ℕ → β) :
    IoRing β × (ℕ → β) × UInt32 :=
  let len := 1
  let l := ring.used
  if l = 0 then (ring, dst, l)
  else if len > l then (ring, dst, len)
  else
    let (dst, l) := ring.ringOutBurstReally dst len
    ({ ring with outCount := ring.outCount + l }, dst, l)

/-- An operation on one element. -/
inductive Op (β : Type*)
  | ringIn (src : ℕ → β)
  | ringOut (dst : ℕ → β)

/-- Whether the result is non-zero, and the destination. -/
abbrev Reply (β : Type*) := Bool × Option (ℕ → β)

/-- The operation on the ring. -/
def call (ring : IoRing β) : Op β → IoRing β × Reply β
  | .ringIn src =>
      let (ring, l) := ring.ringIn src
      (ring, l != 0, none)
  | .ringOut dst =>
      let (ring, dst, l) := ring.ringOut dst
      (ring, l != 0, some dst)

/-- The operation on the queue, of one element. -/
def queueCall (queue : MixQueue β) : Op β → MixQueue β × Reply β
  | .ringIn src =>
      let (queue, n) := queue.mixEnqueue src 1
      (queue, n != 0, none)
  | .ringOut dst =>
      let (queue, dst, n) := queue.mixDequeue dst 1
      (queue, n != 0, some dst)

variable {ring : IoRing β} {k e : ℕ}

/-- The constructor makes a ring of the shape of the queue. -/
theorem ioRing_eq (hk : 1 ≤ k) (he : 1 ≤ e) (hlarge : 2 < 2 ^ k * e)
    (hsize : 2 ^ k * e < 2 ^ 32) (buffer : ℕ → β) :
    ioRing buffer (UInt32.ofNat (2 ^ k * e)) (UInt32.ofNat e) =
      some { inCount := 0, outCount := 0, mask := UInt32.ofNat (2 ^ k) - 1
             esize := UInt32.ofNat e, data := buffer } := by
  have hpos : UInt32.ofNat (2 ^ k * e) > 2 := by
    rw [gt_iff_lt, UInt32.lt_iff_toNat_lt, UInt32.toNat_ofNat_of_lt' hsize]
    exact hlarge
  rw [ioRing, if_pos hpos]
  simp only [MixQueue.roundup_size hk he hsize]

/-! ## Elements of one byte -/

section Bytes

variable (hshape : ring.queue.Shape k 1)

include hshape

theorem toNat_burst {len : UInt32} (hlen : len.toNat ≤ 1) (off : UInt32) :
    let copy := ring.queue.bytes len off
    min copy.2.2 (copy.2.1 - copy.1) = len := by
  intro copy
  have hcap := Nat.two_pow_pos k
  have hmod : off.toNat % 2 ^ k < 2 ^ k := Nat.mod_lt _ hcap
  obtain ⟨hfirst, -⟩ := hshape.toNat_first (show len.toNat ≤ 2 ^ k by omega)
    off
  rw [← UInt32.toNat_inj, hfirst]
  omega

/-- `ringIn` of a byte is `mix_enqueue` of it. -/
theorem ringIn_queue (src : ℕ → β) :
    (ring.ringIn src).1.queue = (ring.queue.mixEnqueue src 1).1 ∧
      (ring.ringIn src).2 = (ring.queue.mixEnqueue src 1).2 := by
  have hclamp := toNat_clamp 1 ring.unused
  have hlen : (clamp 1 ring.unused).toNat ≤ 1 := by
    rw [hclamp, UInt32.toNat_one]
    omega
  have hl : (ring.queue.copyEnqueue src (clamp 1 ring.unused)
      ring.inCount).2 = clamp 1 ring.unused := toNat_burst hshape hlen _
  simp only [ringIn, ringInBurstReally, hl]
  exact ⟨rfl, rfl⟩

/-- `ringOut` of a byte is `mix_dequeue` of it. -/
theorem ringOut_queue (dst : ℕ → β) :
    (ring.ringOut dst).1.queue = (ring.queue.mixDequeue dst 1).1 ∧
      (ring.ringOut dst).2 = (ring.queue.mixDequeue dst 1).2 := by
  by_cases hzero : ring.used = 0
  · have hqueue : ring.queue.inCount - ring.queue.outCount = 0 := hzero
    simp only [ringOut, if_pos hzero, MixQueue.mixDequeue, if_pos hqueue]
    exact ⟨trivial, rfl⟩
  · have hqueue : ring.queue.inCount - ring.queue.outCount ≠ 0 := hzero
    have hle : ¬ (1 : UInt32) > ring.used := by
      intro hlt
      have hnat := UInt32.lt_iff_toNat_lt.mp hlt
      apply hzero
      rw [← UInt32.toNat_inj, UInt32.toNat_zero]
      rw [UInt32.toNat_one] at hnat
      omega
    have hclamp : clamp 1 (ring.queue.inCount - ring.queue.outCount) = 1 :=
      if_neg hle
    have hl := toNat_burst hshape (Nat.le_refl (UInt32.toNat 1))
      ring.outCount
    simp only [ringOut, if_neg hzero, if_neg hle, ringOutBurstReally, hl,
      MixQueue.mixDequeue, if_neg hqueue, hclamp]
    exact ⟨rfl, rfl⟩

end Bytes

/-- Two queues that hold the same bytes give the same replies. -/
theorem queueCall_simulates :
    Simulates (call (β := β)) queueCall id id fun ring queue =>
      ∃ items, ring.queue.Holds k 1 items ∧ queue.Holds k 1 items where
  state := by
    rintro ring queue op ⟨items, hring, hqueue⟩
    cases op with
    | ringIn src =>
        refine ⟨_, ?_, (hqueue.mixEnqueue src 1).2⟩
        have hstate := (ringIn_queue hring.toShape src).1
        exact hstate ▸ (hring.mixEnqueue src 1).2
    | ringOut dst =>
        refine ⟨_, ?_, (hqueue.mixDequeue dst 1).2.2⟩
        have hstate := (ringOut_queue hring.toShape dst).1
        exact hstate ▸ (hring.mixDequeue dst 1).2.2
  reply := by
    rintro ring queue op ⟨items, hring, hqueue⟩
    cases op with
    | ringIn src =>
        have hnum : (ring.ringIn src).2 = (queue.mixEnqueue src 1).2 := by
          rw [(ringIn_queue hring.toShape src).2, ← UInt32.toNat_inj,
            (hring.mixEnqueue src 1).1, (hqueue.mixEnqueue src 1).1]
        simp only [call, queueCall, id, hnum]
    | ringOut dst =>
        obtain ⟨hnum, hdst, -⟩ := hring.mixDequeue dst 1
        obtain ⟨hnum', hdst', -⟩ := hqueue.mixDequeue dst 1
        have hout := (ringOut_queue hring.toShape dst).2
        have hcount : (ring.ringOut dst).2.2 =
            (queue.mixDequeue dst 1).2.2 := by
          rw [hout, ← UInt32.toNat_inj, hnum, hnum']
        have hbytes : (ring.ringOut dst).2.1 =
            (queue.mixDequeue dst 1).2.1 := by
          rw [hout]
          exact eq_of_element_eq Nat.one_pos fun i =>
            (hdst i).trans (hdst' i).symm
        simp only [call, queueCall, id, hcount, hbytes]

/-- With elements of one byte all replies agree. -/
theorem replies_eq {queue : MixQueue β} {items : List (List β)}
    (hring : ring.queue.Holds k 1 items) (hqueue : queue.Holds k 1 items)
    (ops : List (Op β)) :
    replies call ring ops = replies queueCall queue ops := by
  have hsim := queueCall_simulates.replies ⟨items, hring, hqueue⟩ ops
  rwa [List.map_id, List.map_id] at hsim

/-! ## Larger elements -/

/-- The ring after `j` elements have been put in. -/
structure Filled (ring : IoRing β) (k e j : ℕ) : Prop where
  shape : ring.queue.Shape k e
  inCount : ring.inCount = UInt32.ofNat (j * e)
  outCount : ring.outCount = 0

namespace Filled

variable {j : ℕ}

/-- The ring takes its bytes for elements: it is full when `j * e` of them
are its capacity. -/
theorem unused_eq_zero (h : Filled ring k e j) (hj : j ≤ 2 ^ k) :
    ring.unused = 0 ↔ j * e = 2 ^ k := by
  have hcap := h.shape.toNat_capacity
  have hle : j * e < 2 ^ 32 :=
    (Nat.mul_le_mul_right e hj).trans_lt h.shape.size
  have hlt := h.shape.capacity_lt
  have hmask : ring.mask + 1 = UInt32.ofNat (2 ^ k) := by
    rw [← UInt32.toNat_inj, UInt32.toNat_ofNat_of_lt' hlt]
    exact hcap
  rw [unused, mixQueueUnused, h.inCount, h.outCount, UInt32.sub_zero, hmask,
    UInt32.sub_eq_iff_eq_add, UInt32.zero_add, ← UInt32.toNat_inj,
    UInt32.toNat_ofNat_of_lt' hlt, UInt32.toNat_ofNat_of_lt' hle]
  exact eq_comm

/-- `ringIn` returns the bytes of one element and advances by them. -/
theorem ringIn (h : Filled ring k e j) (hj : j ≤ 2 ^ k)
    (hfree : j * e ≠ 2 ^ k) (src : ℕ → β) :
    Filled (ring.ringIn src).1 k e (j + 1) ∧
      (ring.ringIn src).2 = UInt32.ofNat e := by
  have hunused : ring.unused ≠ 0 := mt (h.unused_eq_zero hj).mp hfree
  have hle : ¬ (1 : UInt32) > ring.unused := by
    intro hlt
    have hnat := UInt32.lt_iff_toNat_lt.mp hlt
    apply hunused
    rw [← UInt32.toNat_inj, UInt32.toNat_zero]
    rw [UInt32.toNat_one] at hnat
    omega
  have hclamp : clamp 1 ring.unused = 1 := if_neg hle
  have hpos := Nat.two_pow_pos k
  have hmod : ring.inCount.toNat % 2 ^ k < 2 ^ k := Nat.mod_lt _ hpos
  obtain ⟨hfirst, -⟩ := h.shape.toNat_first
    (show UInt32.toNat 1 ≤ 2 ^ k from hpos) ring.inCount
  have hone : min (UInt32.toNat 1) (2 ^ k - ring.inCount.toNat % 2 ^ k) =
      1 := by
    rw [UInt32.toNat_one]
    omega
  rw [hone, Nat.one_mul] at hfirst
  have hl : (ring.queue.copyEnqueue src 1 ring.inCount).2 =
      UInt32.ofNat e := by
    rw [← UInt32.ofNat_toNat (x := (ring.queue.copyEnqueue src 1
      ring.inCount).2)]
    exact congrArg UInt32.ofNat hfirst
  simp only [IoRing.ringIn, ringInBurstReally, hclamp, hl]
  refine ⟨⟨⟨h.shape.mask, h.shape.esize, h.shape.esize_pos, h.shape.size⟩,
    ?_, h.outCount⟩, trivial⟩
  rw [h.inCount, ofNat_add_ofNat, Nat.add_mul, Nat.one_mul]

/-- A ring that takes itself for full returns 0. -/
theorem ringIn_full (h : Filled ring k e j) (hj : j ≤ 2 ^ k)
    (hfull : j * e = 2 ^ k) (src : ℕ → β) : (ring.ringIn src).2 = 0 := by
  have hunused : ring.unused = 0 := (h.unused_eq_zero hj).mpr hfull
  have hclamp : clamp 1 ring.unused = 0 := by
    rw [hunused]
    rfl
  obtain ⟨hfirst, -⟩ := h.shape.toNat_first
    (show UInt32.toNat 0 ≤ 2 ^ k from Nat.zero_le _) ring.inCount
  rw [UInt32.toNat_zero, Nat.zero_min, Nat.zero_mul] at hfirst
  simp only [IoRing.ringIn, ringInBurstReally, hclamp]
  exact UInt32.toNat_inj.mp hfirst

/-- Without a dequeue the ring accepts until it takes itself for full. -/
theorem final (h : Filled ring k e 0) (src : ℕ → β) :
    ∀ j, j ≤ 2 ^ k → (∀ i < j, i * e ≠ 2 ^ k) →
      Filled (Support.final call ring (List.replicate j (.ringIn src))) k e j
  | 0, _, _ => h
  | j + 1, hj, hfree => by
      have hprev := h.final src j (by omega) fun i hi => hfree i (by omega)
      rw [List.replicate_succ', final_concat]
      exact (hprev.ringIn (by omega) (hfree j (by omega)) src).1

end Filled

/-- Without a dequeue the queue accepts until it is full. -/
theorem length_final {queue : MixQueue β} (h : queue.Holds k e [])
    (src : ℕ → β) : ∀ j, j ≤ 2 ^ k →
      ∃ items, (Support.final queueCall queue
        (List.replicate j (.ringIn src))).Holds k e items ∧
          items.length = j
  | 0, _ => ⟨[], h, rfl⟩
  | j + 1, hj => by
      obtain ⟨items, hitems, hlength⟩ := length_final h src j (by omega)
      rw [List.replicate_succ', final_concat]
      refine ⟨_, (hitems.mixEnqueue src 1).2, ?_⟩
      rw [List.length_append, List.length_map, List.length_range,
        UInt32.toNat_one]
      omega

/-- With larger elements the ring takes itself for full too early, or not
when it is full. -/
theorem exists_first_difference (k : ℕ) (he : 1 < e) :
    ∃ m ≤ 2 ^ k, (∀ i < m, i * e ≠ 2 ^ k) ∧ (m * e = 2 ^ k ↔ m < 2 ^ k) := by
  have hpos := Nat.two_pow_pos k
  by_cases hdvd : e ∣ 2 ^ k
  · have hmul : 2 ^ k / e * e = 2 ^ k := Nat.div_mul_cancel hdvd
    have hlt : 2 ^ k / e < 2 ^ k := Nat.div_lt_self hpos he
    refine ⟨2 ^ k / e, hlt.le, fun i hi heq => ?_, iff_of_true hmul hlt⟩
    have hless : i * e < 2 ^ k / e * e :=
      Nat.mul_lt_mul_of_pos_right hi (by omega)
    omega
  · refine ⟨2 ^ k, Nat.le_refl _, fun i _ heq => hdvd ⟨i, ?_⟩, ?_⟩
    · rw [← heq, Nat.mul_comm]
    · refine iff_of_false (fun heq => ?_) (Nat.lt_irrefl _)
      exact Nat.ne_of_gt ((Nat.lt_mul_iff_one_lt_right hpos).mpr he) heq

/-- With larger elements some replies differ. -/
theorem exists_replies_ne {queue : MixQueue β} (hring : Filled ring k e 0)
    (hqueue : queue.Holds k e []) (he : 1 < e) (src : ℕ → β) :
    ∃ ops, replies call ring ops ≠ replies queueCall queue ops := by
  obtain ⟨m, hm, hfree, hiff⟩ := exists_first_difference k he
  refine ⟨List.replicate m (.ringIn src) ++ [.ringIn src], fun heq => ?_⟩
  rw [replies_concat, replies_concat] at heq
  have hlast := List.singleton_inj.mp (List.append_inj_right' heq rfl)
  have hfilled := hring.final src m hm hfree
  obtain ⟨items, hitems, hlength⟩ := length_final hqueue src m hm
  have hnum := (hitems.mixEnqueue src 1).1
  have hsame := congrArg Prod.fst hlast
  simp only [call, queueCall] at hsame
  rw [hlength, UInt32.toNat_one] at hnum
  have hsize := hring.shape.size
  have hesize : e < 2 ^ 32 :=
    (Nat.le_mul_of_pos_left _ (Nat.two_pow_pos k)).trans_lt hsize
  by_cases hfull : m * e = 2 ^ k
  · -- the ring refuses what the queue accepts
    have hlt := hiff.mp hfull
    rw [hfilled.ringIn_full hm hfull src] at hsame
    have hzero := bne_eq_false_iff_eq.mp hsame.symm
    rw [hzero, UInt32.toNat_zero] at hnum
    omega
  · -- the ring accepts what the queue refuses
    have hge := mt hiff.mpr hfull
    rw [(hfilled.ringIn hm hfull src).2] at hsame
    have hzero : (MixQueue.mixEnqueue (Support.final queueCall queue
        (List.replicate m (.ringIn src))) src 1).2 = 0 := by
      rw [← UInt32.toNat_inj, hnum, UInt32.toNat_zero]
      omega
    rw [hzero] at hsame
    have hone := congrArg UInt32.toNat (bne_eq_false_iff_eq.mp hsame)
    rw [UInt32.toNat_ofNat_of_lt' hesize, UInt32.toNat_zero] at hone
    omega

/-- The ring and the queue, both made for `2 ^ k` elements of `e` bytes, give
the same replies to every sequence of operations on one element if and only
if an element is one byte. -/
theorem replies_eq_iff (hk : 1 ≤ k) (he : 1 ≤ e) (hlarge : 2 < 2 ^ k * e)
    (hsize : 2 ^ k * e < 2 ^ 32) (area buffer : ℕ → UInt8) :
    ∃ ring queue,
      ioRing area (UInt32.ofNat (2 ^ k * e)) (UInt32.ofNat e) = some ring ∧
      MixQueue.mixQueueInit buffer (UInt32.ofNat (2 ^ k * e))
        (UInt32.ofNat e) = some queue ∧
      ((∀ ops, replies call ring ops = replies queueCall queue ops) ↔
        e = 1) := by
  have hring := MixQueue.holds_empty he hsize area
  have hqueue := MixQueue.holds_empty he hsize buffer
  refine ⟨_, _, ioRing_eq hk he hlarge hsize area,
    MixQueue.mixQueueInit_eq hk he hsize buffer, ?_, ?_⟩
  · intro hall
    by_contra hne
    have hfilled : Filled
        { inCount := 0, outCount := 0, mask := UInt32.ofNat (2 ^ k) - 1
          esize := UInt32.ofNat e, data := area } k e 0 :=
      ⟨hring.toShape, congrArg UInt32.ofNat (Nat.zero_mul e).symm, rfl⟩
    obtain ⟨ops, hops⟩ := exists_replies_ne hfilled hqueue (by omega)
      fun _ => 0
    exact hops (hall ops)
  · rintro rfl ops
    exact replies_eq hring hqueue ops

/-- Four bytes. -/
theorem replies_eq_iff_example :
    ∃ ring queue,
      ioRing (fun _ => (0 : UInt8)) (UInt32.ofNat (2 ^ 2 * 1))
        (UInt32.ofNat 1) = some ring ∧
      MixQueue.mixQueueInit (fun _ => (0 : UInt8)) (UInt32.ofNat (2 ^ 2 * 1))
        (UInt32.ofNat 1) = some queue ∧
      ((∀ ops, replies call ring ops = replies queueCall queue ops) ↔
        1 = 1) :=
  replies_eq_iff (by decide) (by decide) (by decide) (by decide) _ _

/-- A ring for two elements of two bytes refuses the second one. -/
theorem replies_eq_fails :
    ∃ ring queue,
      ioRing (fun _ => (0 : UInt8)) (UInt32.ofNat (2 ^ 1 * 2))
        (UInt32.ofNat 2) = some ring ∧
      MixQueue.mixQueueInit (fun _ => (0 : UInt8)) (UInt32.ofNat (2 ^ 1 * 2))
        (UInt32.ofNat 2) = some queue ∧
      ¬ ∀ ops, replies call ring ops = replies queueCall queue ops := by
  refine ⟨_, _, ioRing_eq (by decide) (by decide) (by decide) (by decide) _,
    MixQueue.mixQueueInit_eq (by decide) (by decide) (by decide) _,
    fun hall => ?_⟩
  have hops := congrArg (List.map Prod.fst)
    (hall [.ringIn fun _ => 7, .ringIn fun _ => 8])
  exact absurd hops (by decide +kernel)

end IoRing

end Uhs
