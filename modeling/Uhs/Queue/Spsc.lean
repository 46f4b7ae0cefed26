import Uhs.Queue.BoundedFifo
import Uhs.Support.RingCells
import Uhs.Support.Runs

/-!
# One producer and one consumer

`mix_enqueue` and `mix_dequeue` run by two parties, cut into their accesses
to shared memory.  Each party reads the counter of the other one once, copies
element by element and publishes its own counter.  The other party may have
moved on since the counter was read, but only in the direction that leaves
more slots to copy.
-/

namespace Uhs

open Support

/-- Where the producer stands in `mix_enqueue`. -/
inductive ProducerPc (α : Type*)
  | idle
  | copy (src : ℕ → α) (len i : ℕ)

/-- Where the consumer stands in `mix_dequeue`. -/
inductive ConsumerPc
  | idle
  | copy (len i : ℕ)

/-- A queue between two parties.  The flags of the cells and the last two
fields are a history that no step reads: the elements of the calls of
`mix_enqueue` that have published and the elements copied out. -/
structure Spsc (α : Type*) where
  inCount : UInt32
  outCount : UInt32
  mask : UInt32
  ring : RingCells α
  producer : ProducerPc α
  consumer : ConsumerPc
  enqueued : List α
  dequeued : List α

/-- The steps of the producer and of the consumer. -/
inductive SpscStep (α : Type*)
  | readOut (src : ℕ → α) (len : UInt32)
  | copyIn
  | publishIn
  | readIn (len : UInt32)
  | copyOut
  | publishOut

namespace Spsc

variable {α : Type*}

/-- One step; `none` where the party stands elsewhere. -/
def step (s : Spsc α) : SpscStep α → Option (Spsc α)
  | .readOut src len =>
      match s.producer with
      | .idle =>
          let l := mixQueueUnused s.mask s.inCount s.outCount
          some { s with producer := .copy src (clamp len l).toNat 0 }
      | .copy .. => none
  | .copyIn =>
      match s.producer with
      | .copy src len i =>
          if i < len then
            some { s with
              ring := s.ring.put (slotOf s.mask s.inCount i) (src i)
              producer := .copy src len (i + 1) }
          else none
      | .idle => none
  | .publishIn =>
      match s.producer with
      | .copy src len i =>
          if i < len then none
          else some { s with
            inCount := s.inCount + UInt32.ofNat len
            producer := .idle
            enqueued := s.enqueued ++ (List.range len).map src }
      | .idle => none
  | .readIn len =>
      match s.consumer with
      | .idle =>
          let l := s.inCount - s.outCount
          if l = 0 then some s
          else some { s with consumer := .copy (clamp len l).toNat 0 }
      | .copy .. => none
  | .copyOut =>
      match s.consumer with
      | .copy len i =>
          if i < len then
            let slot := slotOf s.mask s.outCount i
            some { s with
              ring := s.ring.take slot
              consumer := .copy len (i + 1)
              dequeued := s.dequeued ++ [s.ring.cell slot] }
          else none
      | .idle => none
  | .publishOut =>
      match s.consumer with
      | .copy len i =>
          if i < len then none
          else some { s with
            outCount := s.outCount + UInt32.ofNat len
            consumer := .idle }
      | .idle => none

/-- A queue after `mix_queue_init`. -/
def new (mask : UInt32) (cell : ℕ → α) : Spsc α where
  inCount := 0
  outCount := 0
  mask := mask
  ring := ⟨cell, fun _ => false⟩
  producer := .idle
  consumer := .idle
  enqueued := []
  dequeued := []

/-- No copy meets a copy of the other party, and what comes out is what went
in, in order. -/
structure Safe (s : Spsc α) : Prop where
  capacity : (s.inCount - s.outCount).toNat ≤ (s.mask + 1).toNat
  copyIn : ∀ src len i, s.producer = .copy src len i → i < len →
    s.ring.occupied (slotOf s.mask s.inCount i) = false
  copyOut : ∀ len i, s.consumer = .copy len i → i < len →
    s.ring.occupied (slotOf s.mask s.outCount i) = true
  order : s.dequeued <+: s.enqueued

end Spsc

/-! ## The invariant -/

namespace ProducerPc

variable {α : Type*}

/-- The elements copied in and not published. -/
def written : ProducerPc α → List α
  | .idle => []
  | .copy src _ i => (List.range i).map src

/-- The length of the copy. -/
def len : ProducerPc α → ℕ
  | .idle => 0
  | .copy _ len _ => len

end ProducerPc

namespace ConsumerPc

/-- The number of elements copied out and not published. -/
def copied : ConsumerPc → ℕ
  | .idle => 0
  | .copy _ i => i

def len : ConsumerPc → ℕ
  | .idle => 0
  | .copy len _ => len

end ConsumerPc

namespace Spsc

variable {α : Type*} {s s' : Spsc α} {k : ℕ}

/-- The position of `outCount`. -/
def released (s : Spsc α) : ℕ :=
  s.dequeued.length - s.consumer.copied

/-- All the elements copied in. -/
def stored (s : Spsc α) : List α :=
  s.enqueued ++ s.producer.written

/-- The counters are positions of the two histories, each party stays within
the slots it has found, and the cells hold the elements between the two
copies. -/
structure Inv (k : ℕ) (s : Spsc α) : Prop where
  mask : s.mask.toNat = 2 ^ k - 1
  inCount : s.inCount = UInt32.ofNat s.enqueued.length
  outCount : s.outCount = UInt32.ofNat s.released
  copied : s.consumer.copied ≤ s.dequeued.length
  copied_le : s.consumer.copied ≤ s.consumer.len
  written_le : s.producer.written.length ≤ s.producer.len
  consumer : s.released + s.consumer.len ≤ s.enqueued.length
  producer : s.enqueued.length + s.producer.len ≤ s.released + 2 ^ k
  order : s.dequeued <+: s.enqueued
  ring : s.ring.Holds (2 ^ k) s.stored
    (Set.Ico s.dequeued.length s.stored.length) s.stored.length

theorem new_inv {mask : UInt32} (hmask : mask.toNat = 2 ^ k - 1)
    (cell : ℕ → α) : Inv k (new mask cell) where
  mask := hmask
  inCount := rfl
  outCount := rfl
  copied := Nat.le_refl 0
  copied_le := Nat.le_refl 0
  written_le := Nat.le_refl 0
  consumer := Nat.le_refl 0
  producer := Nat.zero_le _
  order := List.prefix_rfl
  ring :=
    { window := fun _ hp => absurd hp.2 (Nat.not_lt_zero _)
      occupied := by
        intro p _
        refine ⟨fun h => absurd h Bool.false_ne_true, ?_⟩
        rintro ⟨q, hq, -⟩
        exact absurd hq.2 (Nat.not_lt_zero q)
      cell := fun _ hp => absurd hp.2 (Nat.not_lt_zero _) }

namespace Inv

theorem released_add (h : Inv k s) :
    s.released + s.consumer.copied = s.dequeued.length :=
  Nat.sub_add_cancel h.copied

/-- The next slot of the producer. -/
theorem slot_in (h : Inv k s) (hk : k ≤ 31) (i : ℕ) :
    slotOf s.mask s.inCount i = (s.enqueued.length + i) % 2 ^ k := by
  rw [h.inCount, slotOf_ofNat h.mask hk]

/-- The next slot of the consumer. -/
theorem slot_out (h : Inv k s) (hk : k ≤ 31) :
    slotOf s.mask s.outCount s.consumer.copied =
      s.dequeued.length % 2 ^ k := by
  rw [h.outCount, slotOf_ofNat h.mask hk, h.released_add]

theorem toNat_used (h : Inv k s) (hk : k ≤ 31) :
    (s.inCount - s.outCount).toNat = s.enqueued.length - s.released := by
  have hconsumer := h.consumer
  have hproducer := h.producer
  have hpow : 2 ^ k ≤ 2 ^ 31 := Nat.pow_le_pow_right (by decide) hk
  rw [h.inCount, h.outCount, toNat_ofNat_sub_ofNat (by omega) (by omega)]

/-- While the producer copies, its next slot is that of the next element. -/
theorem ring_next (h : Inv k s)
    (hlen : s.producer.written.length < s.producer.len) (x : α) :
    s.ring.Holds (2 ^ k) (s.stored ++ [x])
      (Set.Ico s.dequeued.length s.stored.length) (s.stored.length + 1) := by
  apply h.ring.extend (List.prefix_append _ _) ?_ (Nat.le_succ _)
  intro p hp
  have hproducer := h.producer
  have hreleased := h.released_add
  have hle : s.dequeued.length ≤ p := hp.1
  rw [stored, List.length_append]
  omega

/-- The slot of the next element has been copied out. -/
theorem next_free (h : Inv k s)
    (hlen : s.producer.written.length < s.producer.len) (x : α) :
    s.ring.occupied (s.stored.length % 2 ^ k) = false := by
  apply (h.ring_next hlen x).free_of_not_mem (Nat.lt_succ_self _)
  · have hpos := Nat.two_pow_pos k
    omega
  · exact fun hmem => Nat.lt_irrefl _ hmem.2

/-- The element that the consumer copies next has been copied in. -/
theorem next_stored (h : Inv k s) (hlen : s.consumer.copied < s.consumer.len) :
    s.dequeued.length ∈ Set.Ico s.dequeued.length s.stored.length := by
  have hconsumer := h.consumer
  have hreleased := h.released_add
  rw [stored, List.length_append]
  exact ⟨Nat.le_refl _, by omega⟩

/-- What the invariant says of a state. -/
theorem safe (h : Inv k s) (hk : k ≤ 31) : Safe s where
  capacity := by
    have hproducer := h.producer
    have hpos := Nat.two_pow_pos k
    rw [h.toNat_used hk, toNat_capacity h.mask hk]
    omega
  copyIn := by
    intro src len i hpc hi
    have hfree := h.next_free
      (by simpa [hpc, ProducerPc.written, ProducerPc.len] using hi) (src i)
    rw [h.slot_in hk]
    simpa [stored, hpc, ProducerPc.written] using hfree
  copyOut := by
    intro len i hpc hi
    have hcopied : s.consumer.copied = i := by rw [hpc, ConsumerPc.copied]
    rw [← hcopied, h.slot_out hk]
    apply h.ring.occupied_of_mem
    apply h.next_stored
    rwa [hpc]
  order := h.order

end Inv

/-! ## Steps -/

/-- What a step of either party does. -/
inductive Moves (s : Spsc α) : SpscStep α → Spsc α → Prop
  | readOut (src : ℕ → α) (len : UInt32) (hpc : s.producer = .idle) :
      Moves s (.readOut src len)
        { s with
          producer := .copy src (clamp len
            (mixQueueUnused s.mask s.inCount s.outCount)).toNat 0 }
  | copyIn (src : ℕ → α) (len i : ℕ) (hpc : s.producer = .copy src len i)
      (hi : i < len) :
      Moves s .copyIn
        { s with
          ring := s.ring.put (slotOf s.mask s.inCount i) (src i)
          producer := .copy src len (i + 1) }
  | publishIn (src : ℕ → α) (len i : ℕ) (hpc : s.producer = .copy src len i)
      (hi : len ≤ i) :
      Moves s .publishIn
        { s with
          inCount := s.inCount + UInt32.ofNat len
          producer := .idle
          enqueued := s.enqueued ++ (List.range len).map src }
  | empty (len : UInt32) (hpc : s.consumer = .idle)
      (hl : s.inCount - s.outCount = 0) : Moves s (.readIn len) s
  | readIn (len : UInt32) (hpc : s.consumer = .idle) :
      Moves s (.readIn len)
        { s with
          consumer := .copy (clamp len (s.inCount - s.outCount)).toNat 0 }
  | copyOut (len i : ℕ) (hpc : s.consumer = .copy len i) (hi : i < len) :
      Moves s .copyOut
        { s with
          ring := s.ring.take (slotOf s.mask s.outCount i)
          consumer := .copy len (i + 1)
          dequeued := s.dequeued ++
            [s.ring.cell (slotOf s.mask s.outCount i)] }
  | publishOut (len i : ℕ) (hpc : s.consumer = .copy len i) (hi : len ≤ i) :
      Moves s .publishOut
        { s with
          outCount := s.outCount + UInt32.ofNat len
          consumer := .idle }

theorem step_moves {a : SpscStep α} (h : s.step a = some s') :
    Moves s a s' := by
  cases a with
  | readOut src len =>
      cases hpc : s.producer with
      | idle =>
          simp only [step, hpc, Option.some.injEq] at h
          exact h ▸ .readOut src len hpc
      | copy => simp only [step, hpc, reduceCtorEq] at h
  | copyIn =>
      cases hpc : s.producer with
      | idle => simp only [step, hpc, reduceCtorEq] at h
      | copy src len i =>
          simp only [step, hpc] at h
          split_ifs at h with hi
          exact Option.some.inj h ▸ .copyIn src len i hpc hi
  | publishIn =>
      cases hpc : s.producer with
      | idle => simp only [step, hpc, reduceCtorEq] at h
      | copy src len i =>
          simp only [step, hpc] at h
          split_ifs at h with hi
          exact Option.some.inj h ▸
            .publishIn src len i hpc (Nat.not_lt.mp hi)
  | readIn len =>
      cases hpc : s.consumer with
      | idle =>
          simp only [step, hpc] at h
          split_ifs at h with hl
          · exact Option.some.inj h ▸ .empty len hpc hl
          · exact Option.some.inj h ▸ .readIn len hpc
      | copy => simp only [step, hpc, reduceCtorEq] at h
  | copyOut =>
      cases hpc : s.consumer with
      | idle => simp only [step, hpc, reduceCtorEq] at h
      | copy len i =>
          simp only [step, hpc] at h
          split_ifs at h with hi
          exact Option.some.inj h ▸ .copyOut len i hpc hi
  | publishOut =>
      cases hpc : s.consumer with
      | idle => simp only [step, hpc, reduceCtorEq] at h
      | copy len i =>
          simp only [step, hpc] at h
          split_ifs at h with hi
          exact Option.some.inj h ▸ .publishOut len i hpc (Nat.not_lt.mp hi)

/-- A list in order grows by the next element of the longer one. -/
theorem prefix_snoc {l m : List α} {x : α} (h : l <+: m)
    (hx : m[l.length]? = some x) : l ++ [x] <+: m := by
  obtain ⟨t, rfl⟩ := h
  rw [List.getElem?_append_right (Nat.le_refl _), Nat.sub_self] at hx
  cases t with
  | nil => exact absurd hx (by simp)
  | cons y t =>
      obtain rfl : y = x := Option.some.inj hx
      exact ⟨t, by simp⟩

namespace Inv

/-- The producer reads `outCount`: no more than the free slots are copied. -/
theorem readOut (h : Inv k s) (hk : k ≤ 31) (hpc : s.producer = .idle)
    (src : ℕ → α) (len : UInt32) :
    Inv k { s with
      producer := .copy src (clamp len
        (mixQueueUnused s.mask s.inCount s.outCount)).toNat 0 } := by
  have hpos := Nat.two_pow_pos k
  have hconsumer := h.consumer
  have hproducer := h.producer
  have hfree := toNat_mixQueueUnused (p := s.enqueued.length)
    (q := s.released) h.mask hk (by omega) (by omega)
  rw [← h.inCount, ← h.outCount] at hfree
  have hlen := toNat_clamp len (mixQueueUnused s.mask s.inCount s.outCount)
  have hring := h.ring
  simp only [stored, hpc, ProducerPc.written] at hring
  exact
    { h with
      written_le := Nat.zero_le _
      producer := by
        rw [released] at hfree hconsumer hproducer
        simp only [ProducerPc.len, released]
        omega
      ring := hring }

/-- The producer copies one element. -/
theorem copyIn (h : Inv k s) (hk : k ≤ 31) {src : ℕ → α} {len i : ℕ}
    (hpc : s.producer = .copy src len i) (hi : i < len) :
    Inv k { s with
      ring := s.ring.put (slotOf s.mask s.inCount i) (src i)
      producer := .copy src len (i + 1) } := by
  have hwritten : s.producer.written = (List.range i).map src := by
    rw [hpc, ProducerPc.written]
  have hlen : s.stored.length = s.enqueued.length + i := by
    simp [stored, hwritten]
  have hnext : s.enqueued ++ (List.range (i + 1)).map src =
      s.stored ++ [src i] := by
    rw [stored, hwritten, List.range_succ, List.map_append,
      List.append_assoc, List.map_singleton]
  have hcopying : s.producer.written.length < s.producer.len := by
    simpa [hpc, ProducerPc.written, ProducerPc.len] using hi
  have hpos := Nat.two_pow_pos k
  have hring := (h.ring_next hcopying (src i)).put (p := s.stored.length)
    (x := src i) (Nat.lt_succ_self _) (by omega)
    (fun hmem => Nat.lt_irrefl _ hmem.2) (by simp)
  rw [hlen, ← h.slot_in hk i, ← hlen] at hring
  have hset : insert s.stored.length
      (Set.Ico s.dequeued.length s.stored.length) =
      Set.Ico s.dequeued.length (s.stored.length + 1) := by
    have horder := h.order.length_le
    ext p
    simp only [Set.mem_insert_iff, Set.mem_Ico]
    omega
  rw [hset, ← hnext] at hring
  exact
    { h with
      written_le := by
        simpa [ProducerPc.written, ProducerPc.len] using
          Nat.succ_le_of_lt hi
      producer := by
        have hproducer := h.producer
        rwa [hpc] at hproducer
      ring := by
        have hlength : (s.enqueued ++ (List.range (i + 1)).map src).length =
            s.stored.length + 1 := by rw [hnext, List.length_append]; rfl
        simp only [stored, ProducerPc.written]
        rwa [hlength] }

/-- The producer publishes what it has copied. -/
theorem publishIn (h : Inv k s) {src : ℕ → α} {len i : ℕ}
    (hpc : s.producer = .copy src len i) (hi : len ≤ i) :
    Inv k { s with
      inCount := s.inCount + UInt32.ofNat len
      producer := .idle
      enqueued := s.enqueued ++ (List.range len).map src } := by
  have hconsumer := h.consumer
  have hproducer := h.producer
  have hwritten := h.written_le
  have hring := h.ring
  simp only [hpc, ProducerPc.written, ProducerPc.len, List.length_map,
    List.length_range] at hproducer hwritten
  obtain rfl : i = len := Nat.le_antisymm hwritten hi
  simp only [stored, hpc, ProducerPc.written] at hring
  exact
    { h with
      inCount := by
        rw [h.inCount, ofNat_add_ofNat, List.length_append, List.length_map,
          List.length_range]
      written_le := Nat.le_refl 0
      consumer := by
        simp only [released, List.length_append, List.length_map,
          List.length_range]
        rw [released] at hconsumer
        omega
      producer := by
        simp only [released, ProducerPc.len, List.length_append,
          List.length_map, List.length_range]
        rw [released] at hproducer
        omega
      order := h.order.trans (List.prefix_append _ _)
      ring := by
        simpa only [stored, ProducerPc.written, List.append_nil] using hring }

/-- The consumer reads `inCount`: no more than what is there is copied. -/
theorem readIn (h : Inv k s) (hk : k ≤ 31) (hpc : s.consumer = .idle)
    (len : UInt32) :
    Inv k { s with
      consumer := .copy (clamp len (s.inCount - s.outCount)).toNat 0 } := by
  have hconsumer := h.consumer
  have hused := h.toNat_used hk
  have hlen := toNat_clamp len (s.inCount - s.outCount)
  have hreleased : s.released = s.dequeued.length := by
    rw [released, hpc, ConsumerPc.copied, Nat.sub_zero]
  exact
    { h with
      outCount := by
        rw [h.outCount, hreleased]
        rfl
      copied := Nat.zero_le _
      copied_le := Nat.zero_le _
      consumer := by
        simp only [released, ConsumerPc.copied, ConsumerPc.len]
        rw [hreleased] at hused hconsumer
        omega
      producer := by
        have hproducer := h.producer
        rwa [hreleased] at hproducer }

/-- The consumer copies one element. -/
theorem copyOut (h : Inv k s) (hk : k ≤ 31) {len i : ℕ}
    (hpc : s.consumer = .copy len i) (hi : i < len) :
    Inv k { s with
      ring := s.ring.take (slotOf s.mask s.outCount i)
      consumer := .copy len (i + 1)
      dequeued := s.dequeued ++
        [s.ring.cell (slotOf s.mask s.outCount i)] } := by
  have hconsumer := h.consumer
  have hreleased := h.released_add
  have hcopied : s.consumer.copied = i := by rw [hpc, ConsumerPc.copied]
  have hlen : s.consumer.len = len := by rw [hpc, ConsumerPc.len]
  have hmem := h.next_stored (by rwa [hcopied, hlen])
  have hslot := h.slot_out hk
  rw [hcopied] at hslot
  have hcell := h.ring.cell _ hmem
  rw [stored, List.getElem?_append_left (by omega), ← hslot] at hcell
  have hring := h.ring.take hmem
  have hset : Set.Ico s.dequeued.length s.stored.length \
      {s.dequeued.length} =
      Set.Ico (s.dequeued.length + 1) s.stored.length := by
    ext p
    simp only [Set.mem_sdiff, Set.mem_Ico, Set.mem_singleton_iff]
    omega
  rw [hset, ← hslot] at hring
  have hsame : (s.dequeued ++ [s.ring.cell (slotOf s.mask s.outCount i)]).length
      - (i + 1) = s.released := by
    rw [List.length_append, List.length_singleton, released, hcopied]
    omega
  exact
    { h with
      outCount := h.outCount.trans (congrArg UInt32.ofNat hsame.symm)
      copied := by
        have hle := h.copied
        simp only [ConsumerPc.copied, List.length_append,
          List.length_singleton]
        omega
      copied_le := hi
      consumer := by
        rw [← hsame, hlen] at hconsumer
        exact hconsumer
      producer := by
        have hproducer := h.producer
        rw [← hsame] at hproducer
        exact hproducer
      order := prefix_snoc h.order hcell
      ring := by
        simpa only [stored, List.length_append, List.length_singleton]
          using hring }

/-- The consumer publishes what it has copied. -/
theorem publishOut (h : Inv k s) {len i : ℕ}
    (hpc : s.consumer = .copy len i) (hi : len ≤ i) :
    Inv k { s with
      outCount := s.outCount + UInt32.ofNat len
      consumer := .idle } := by
  have hconsumer := h.consumer
  have hproducer := h.producer
  have hreleased := h.released_add
  have hcopied := h.copied_le
  simp only [hpc, ConsumerPc.copied, ConsumerPc.len]
    at hcopied hconsumer hreleased
  obtain rfl : i = len := Nat.le_antisymm hcopied hi
  exact
    { h with
      outCount := by
        rw [h.outCount, ofNat_add_ofNat, hreleased]
        rfl
      copied := Nat.zero_le _
      copied_le := Nat.le_refl 0
      consumer := by
        simp only [released, ConsumerPc.copied, ConsumerPc.len]
        omega
      producer := by
        simp only [released, ConsumerPc.copied]
        omega }

/-- Every step keeps the invariant. -/
theorem step (h : Inv k s) (hk : k ≤ 31) {a : SpscStep α}
    (hstep : s.step a = some s') : Inv k s' := by
  cases step_moves hstep with
  | readOut src len hpc => exact h.readOut hk hpc src len
  | copyIn src len i hpc hi => exact h.copyIn hk hpc hi
  | publishIn src len i hpc hi => exact h.publishIn hpc hi
  | empty len hpc hl => exact h
  | readIn len hpc => exact h.readIn hk hpc len
  | copyOut len i hpc hi => exact h.copyOut hk hpc hi
  | publishOut len i hpc hi => exact h.publishOut hpc hi

end Inv

/-! ## Runs -/

/-- In every interleaving of a producer and a consumer no slot is written
before it has been copied out or copied before it has been written, and the
elements come out in the order in which they went in. -/
theorem safe_allStates (hk : k ≤ 31) {mask : UInt32}
    (hmask : mask.toNat = 2 ^ k - 1) (cell : ℕ → α)
    (steps : List (SpscStep α)) :
    AllStates step Safe (new mask cell) steps :=
  (allStates_of_invariant (fun _ _ _ hinv => hinv.step hk)
    (new_inv hmask cell)).mono fun _ hinv => hinv.safe hk

/-- A queue of eight elements, of which one passes through it. -/
theorem safe_allStates_example :
    AllStates step Safe (new 7 fun i => i : Spsc ℕ)
      [.readOut (fun i => i + 5) 2, .copyIn, .readIn 1, .copyIn, .publishIn,
        .readIn 1, .copyOut, .publishOut] :=
  safe_allStates (k := 3) (by decide) (by decide) _ _

/-! ## Calls that nobody disturbs -/

/-- The copy of the producer fills the slots that follow `inCount`. -/
theorem runOps_copyIn (hmask : s.mask.toNat = 2 ^ k - 1) (hk : k ≤ 31)
    {src : ℕ → α} {len : ℕ} (hpc : s.producer = .copy src len 0) {n : ℕ}
    (hn : n ≤ len) :
    ∃ occupied, runOps step s (List.replicate n .copyIn) =
      some { s with
        ring := ⟨fill (2 ^ k) s.ring.cell s.inCount.toNat src n, occupied⟩
        producer := .copy src len n } := by
  induction n with
  | zero => exact ⟨s.ring.occupied, by rw [← hpc]; rfl⟩
  | succ n ih =>
      obtain ⟨occupied, hrun⟩ := ih (by omega)
      refine ⟨Function.update occupied (slotOf s.mask s.inCount n) true, ?_⟩
      have hlt : n < len := by omega
      rw [List.replicate_succ', runOps_append, hrun]
      simp only [Option.bind_some, runOps, step, if_pos hlt,
        RingCells.put, slotOf_eq hmask hk, fill]

/-- The whole call of the producer. -/
theorem runOps_enqueue (hmask : s.mask.toNat = 2 ^ k - 1) (hk : k ≤ 31)
    (hpc : s.producer = .idle) (src : ℕ → α) (len : UInt32) :
    let n := clamp len (mixQueueUnused s.mask s.inCount s.outCount)
    ∃ occupied, runOps step s (.readOut src len ::
        (List.replicate n.toNat .copyIn ++ [.publishIn])) =
      some { s with
        inCount := s.inCount + n
        ring := ⟨fill (2 ^ k) s.ring.cell s.inCount.toNat src n.toNat,
          occupied⟩
        enqueued := s.enqueued ++ (List.range n.toNat).map src } := by
  intro n
  have hread : step s (.readOut src len) =
      some { s with producer := .copy src n.toNat 0 } := by
    simp only [step, hpc, n]
  obtain ⟨occupied, hrun⟩ := runOps_copyIn
    (s := { s with producer := .copy src n.toNat 0 }) hmask hk rfl
    (Nat.le_refl _)
  refine ⟨occupied, ?_⟩
  rw [runOps, hread, Option.bind_some, runOps_append, hrun]
  simp only [Option.bind_some, runOps, step, Nat.lt_irrefl, if_false,
    UInt32.ofNat_toNat, hpc]

/-- The copy of the consumer reads the slots that follow `outCount`. -/
theorem runOps_copyOut (hmask : s.mask.toNat = 2 ^ k - 1) (hk : k ≤ 31)
    {len : ℕ} (hpc : s.consumer = .copy len 0) {n : ℕ} (hn : n ≤ len) :
    ∃ occupied, runOps step s (List.replicate n .copyOut) =
      some { s with
        ring := ⟨s.ring.cell, occupied⟩
        consumer := .copy len n
        dequeued := s.dequeued ++ (List.range n).map fun i =>
          s.ring.cell ((s.outCount.toNat + i) % 2 ^ k) } := by
  induction n with
  | zero =>
      refine ⟨s.ring.occupied, ?_⟩
      rw [List.range_zero, List.map_nil, List.append_nil, ← hpc]
      rfl
  | succ n ih =>
      obtain ⟨occupied, hrun⟩ := ih (by omega)
      refine ⟨Function.update occupied (slotOf s.mask s.outCount n) false,
        ?_⟩
      have hlt : n < len := by omega
      rw [List.replicate_succ', runOps_append, hrun]
      simp only [Option.bind_some, runOps, step, if_pos hlt,
        RingCells.take, slotOf_eq hmask hk, List.range_succ, List.map_append,
        List.map_singleton, List.append_assoc]

/-- The whole call of the consumer on a queue that is not empty. -/
theorem runOps_dequeue (hmask : s.mask.toNat = 2 ^ k - 1) (hk : k ≤ 31)
    (hpc : s.consumer = .idle) (hl : s.inCount - s.outCount ≠ 0)
    (len : UInt32) :
    let n := clamp len (s.inCount - s.outCount)
    ∃ occupied, runOps step s (.readIn len ::
        (List.replicate n.toNat .copyOut ++ [.publishOut])) =
      some { s with
        outCount := s.outCount + n
        ring := ⟨s.ring.cell, occupied⟩
        dequeued := s.dequeued ++ (List.range n.toNat).map fun i =>
          s.ring.cell ((s.outCount.toNat + i) % 2 ^ k) } := by
  intro n
  have hread : step s (.readIn len) =
      some { s with consumer := .copy n.toNat 0 } := by
    simp only [step, hpc, if_neg hl, n]
  obtain ⟨occupied, hrun⟩ := runOps_copyOut
    (s := { s with consumer := .copy n.toNat 0 }) hmask hk rfl
    (Nat.le_refl _)
  refine ⟨occupied, ?_⟩
  rw [runOps, hread, Option.bind_some, runOps_append, hrun]
  simp only [Option.bind_some, runOps, step, Nat.lt_irrefl, if_false,
    UInt32.ofNat_toNat, hpc]

variable {β : Type*} {queue : MixQueue β} {e : ℕ} {items : List (List β)}

/-- The state of the two parties shows the queue. -/
structure Shows (s : Spsc (List β)) (queue : MixQueue β) (k e : ℕ) :
    Prop where
  mask : s.mask = queue.mask
  inCount : s.inCount = queue.inCount
  outCount : s.outCount = queue.outCount
  cell : ∀ p < 2 ^ k, s.ring.cell p = element e queue.data p

/-- Undisturbed, the steps of the producer are `mix_enqueue`. -/
theorem Shows.mixEnqueue {s : Spsc (List β)} (h : Shows s queue k e)
    (hholds : queue.Holds k e items) (hpc : s.producer = .idle)
    (src : ℕ → β) (len : UInt32) :
    ∃ s', runOps step s (.readOut (element e src) len ::
        (List.replicate (queue.mixEnqueue src len).2.toNat .copyIn ++
          [.publishIn])) = some s' ∧
      Shows s' (queue.mixEnqueue src len).1 k e := by
  have hclamp := toNat_clamp len queue.unused
  have hunused := hholds.toNat_unused
  have hpos := Nat.two_pow_pos k
  obtain ⟨occupied, hrun⟩ := runOps_enqueue (h.mask ▸ hholds.mask)
    hholds.bits_le hpc (element e src) len
  rw [h.mask, h.inCount, h.outCount] at hrun
  refine ⟨_, hrun, rfl, rfl, rfl, fun p hp => ?_⟩
  simp only [MixQueue.mixEnqueue]
  rw [hholds.element_copyEnqueue src (by omega) hp]
  exact fill_congr h.cell hp

/-- Undisturbed, the steps of the consumer are `mix_dequeue`. -/
theorem Shows.mixDequeue {s : Spsc (List β)} (h : Shows s queue k e)
    (hholds : queue.Holds k e items) (hpc : s.consumer = .idle)
    (hitems : items ≠ []) (dst : ℕ → β) (len : UInt32) :
    ∃ s', runOps step s (.readIn len ::
        (List.replicate (queue.mixDequeue dst len).2.2.toNat .copyOut ++
          [.publishOut])) = some s' ∧
      Shows s' (queue.mixDequeue dst len).1 k e ∧
      s'.dequeued = s.dequeued ++
        (List.range (queue.mixDequeue dst len).2.2.toNat).map
          (element e (queue.mixDequeue dst len).2.1) := by
  have hclamp := toNat_clamp len (queue.inCount - queue.outCount)
  have hbounded := hholds.bounded
  have hl : queue.inCount - queue.outCount ≠ 0 := by
    intro hzero
    have hcount := hholds.count
    rw [hzero] at hcount
    exact hitems (List.length_eq_zero_iff.mp hcount.symm)
  have hn : (clamp len (queue.inCount - queue.outCount)).toNat ≤ 2 ^ k := by
    rw [hclamp, hholds.count]
    omega
  obtain ⟨occupied, hrun⟩ := runOps_dequeue (h.mask ▸ hholds.mask)
    hholds.bits_le hpc (by rwa [h.inCount, h.outCount]) len
  rw [h.mask, h.inCount, h.outCount] at hrun
  simp only [MixQueue.mixDequeue, if_neg hl]
  refine ⟨_, hrun, ⟨rfl, rfl, rfl, h.cell⟩, ?_⟩
  refine congrArg (s.dequeued ++ ·) (List.map_congr_left ?_)
  intro i hi
  rw [hholds.element_copyDequeue dst hn, if_pos (List.mem_range.mp hi),
    h.cell _ (Nat.mod_lt _ (Nat.two_pow_pos k))]

end Spsc

end Uhs
