import Mathlib.Data.Fintype.Basic
import Uhs.Queue.Counters
import Uhs.Support.RingCells
import Uhs.Support.Runs

/-!
# The lock-free operations under several parties

`mix_enqueue_lockfree` and `mix_dequeue_lockfree` compute their length from
the counters before the loop that advances the own counter, and copy after it.
What another party does in these two windows decides whether the copies stay
apart.
-/

namespace Uhs

open Support

/-- Where a producer stands in `mix_enqueue_lockfree`.  The number `start` of
the first element of a copy is a history that no step reads. -/
inductive EnqueuePc (α : Type*)
  | idle
  | load (src : ℕ → α) (len : UInt32)
  | cas (src : ℕ → α) (len seen : UInt32)
  | copy (src : ℕ → α) (len first : UInt32) (start i : ℕ)

/-- Where a consumer stands in `mix_dequeue_lockfree`. -/
inductive DequeuePc
  | idle
  | load (len : UInt32)
  | cas (len seen : UInt32)
  | copy (len first : UInt32) (start i : ℕ)

/-- A queue between producers `ι` and consumers `κ`.  The last three fields
are a history: the elements of the calls that have advanced `in`, in that
order, the number of elements of the calls that have advanced `out`, and the
elements copied out with their numbers. -/
structure LockFree (α ι κ : Type*) where
  inCount : UInt32
  outCount : UInt32
  mask : UInt32
  ring : RingCells α
  producers : ι → EnqueuePc α
  consumers : κ → DequeuePc
  enqueued : List α
  taken : ℕ
  delivered : List (ℕ × α)

/-- The steps of the parties.  A weak compare-and-swap may fail without a
reason. -/
inductive LockFreeStep (α ι κ : Type*)
  | enqueue (p : ι) (src : ℕ → α) (len : UInt32)
  | loadIn (p : ι)
  | casIn (p : ι)
  | casInFails (p : ι)
  | copyIn (p : ι)
  | returnIn (p : ι)
  | dequeue (c : κ) (len : UInt32)
  | loadOut (c : κ)
  | casOut (c : κ)
  | casOutFails (c : κ)
  | copyOut (c : κ)
  | returnOut (c : κ)

namespace LockFree

variable {α ι κ : Type*}

section Producers

variable [DecidableEq ι]

def setProducer (s : LockFree α ι κ) (p : ι) (pc : EnqueuePc α) :
    LockFree α ι κ :=
  { s with producers := Function.update s.producers p pc }

@[simp] theorem setProducer_self (s : LockFree α ι κ) (p : ι)
    (pc : EnqueuePc α) : (s.setProducer p pc).producers p = pc :=
  Function.update_self _ _ _

theorem setProducer_of_ne (s : LockFree α ι κ) {p p' : ι} (hp : p' ≠ p)
    (pc : EnqueuePc α) : (s.setProducer p pc).producers p' = s.producers p' :=
  Function.update_of_ne hp _ _

/-- One step of a producer; `none` where it stands elsewhere. -/
def producerStep (s : LockFree α ι κ) (p : ι) :
    LockFreeStep α ι κ → Option (LockFree α ι κ)
  | .enqueue _ src len =>
      match s.producers p with
      | .idle =>
          let l := mixQueueUnused s.mask s.inCount s.outCount
          some (s.setProducer p (.load src (clamp len l)))
      | _ => none
  | .loadIn _ =>
      match s.producers p with
      | .load src len => some (s.setProducer p (.cas src len s.inCount))
      | _ => none
  | .casIn _ =>
      match s.producers p with
      | .cas src len seen =>
          if s.inCount = seen then
            some { s.setProducer p (.copy src len seen s.enqueued.length 0) with
              inCount := seen + len
              enqueued := s.enqueued ++ (List.range len.toNat).map src }
          else some (s.setProducer p (.load src len))
      | _ => none
  | .casInFails _ =>
      match s.producers p with
      | .cas src len _ => some (s.setProducer p (.load src len))
      | _ => none
  | .copyIn _ =>
      match s.producers p with
      | .copy src len first start i =>
          if i < len.toNat then
            some { s.setProducer p (.copy src len first start (i + 1)) with
              ring := s.ring.put (slotOf s.mask first i) (src i) }
          else none
      | _ => none
  | .returnIn _ =>
      match s.producers p with
      | .copy _ len _ _ i =>
          if i < len.toNat then none else some (s.setProducer p .idle)
      | _ => none
  | _ => none

end Producers

section Consumers

variable [DecidableEq κ]

def setConsumer (s : LockFree α ι κ) (c : κ) (pc : DequeuePc) :
    LockFree α ι κ :=
  { s with consumers := Function.update s.consumers c pc }

@[simp] theorem setConsumer_self (s : LockFree α ι κ) (c : κ)
    (pc : DequeuePc) : (s.setConsumer c pc).consumers c = pc :=
  Function.update_self _ _ _

theorem setConsumer_of_ne (s : LockFree α ι κ) {c c' : κ} (hc : c' ≠ c)
    (pc : DequeuePc) : (s.setConsumer c pc).consumers c' = s.consumers c' :=
  Function.update_of_ne hc _ _

/-- One step of a consumer; `none` where it stands elsewhere. -/
def consumerStep (s : LockFree α ι κ) (c : κ) :
    LockFreeStep α ι κ → Option (LockFree α ι κ)
  | .dequeue _ len =>
      match s.consumers c with
      | .idle =>
          let l := s.inCount - s.outCount
          if l = 0 then some s
          else some (s.setConsumer c (.load (clamp len l)))
      | _ => none
  | .loadOut _ =>
      match s.consumers c with
      | .load len => some (s.setConsumer c (.cas len s.outCount))
      | _ => none
  | .casOut _ =>
      match s.consumers c with
      | .cas len seen =>
          if s.outCount = seen then
            some { s.setConsumer c (.copy len seen s.taken 0) with
              outCount := seen + len
              taken := s.taken + len.toNat }
          else some (s.setConsumer c (.load len))
      | _ => none
  | .casOutFails _ =>
      match s.consumers c with
      | .cas len _ => some (s.setConsumer c (.load len))
      | _ => none
  | .copyOut _ =>
      match s.consumers c with
      | .copy len first start i =>
          if i < len.toNat then
            let slot := slotOf s.mask first i
            some { s.setConsumer c (.copy len first start (i + 1)) with
              ring := s.ring.take slot
              delivered := s.delivered ++ [(start + i, s.ring.cell slot)] }
          else none
      | _ => none
  | .returnOut _ =>
      match s.consumers c with
      | .copy len _ _ i =>
          if i < len.toNat then none else some (s.setConsumer c .idle)
      | _ => none
  | _ => none

end Consumers

/-- One step of the queue. -/
def step [DecidableEq ι] [DecidableEq κ] (s : LockFree α ι κ)
    (a : LockFreeStep α ι κ) : Option (LockFree α ι κ) :=
  match a with
  | .enqueue p .. | .loadIn p | .casIn p | .casInFails p | .copyIn p
  | .returnIn p => s.producerStep p a
  | .dequeue c .. | .loadOut c | .casOut c | .casOutFails c | .copyOut c
  | .returnOut c => s.consumerStep c a

/-- A queue after `mix_queue_init`. -/
def new (mask : UInt32) (cell : ℕ → α) : LockFree α ι κ where
  inCount := 0
  outCount := 0
  mask := mask
  ring := ⟨cell, fun _ => false⟩
  producers := fun _ => .idle
  consumers := fun _ => .idle
  enqueued := []
  taken := 0
  delivered := []

end LockFree

namespace EnqueuePc

variable {α : Type*}

/-- The numbers of the elements that are announced and not copied in. -/
def pending : EnqueuePc α → Set ℕ
  | .copy _ len _ start i => Set.Ico (start + i) (start + len.toNat)
  | _ => ∅

/-- The slots that are announced and not written. -/
def Writes (mask : UInt32) (slot : ℕ) : EnqueuePc α → Prop
  | .copy _ len first _ i =>
      ∃ t < len.toNat, i ≤ t ∧ slotOf mask first t = slot
  | _ => False

instance (mask : UInt32) (slot : ℕ) :
    ∀ pc : EnqueuePc α, Decidable (pc.Writes mask slot)
  | .copy _ len first _ i => inferInstanceAs
      (Decidable (∃ t < len.toNat, i ≤ t ∧ slotOf mask first t = slot))
  | .idle | .load .. | .cas .. => instDecidableFalse

/-- The length of a compare-and-swap that finds the counter it has read. -/
def wins (count : UInt32) : EnqueuePc α → Option UInt32
  | .cas _ len seen => if count = seen then some len else none
  | _ => none

end EnqueuePc

namespace DequeuePc

/-- The numbers of the elements that are taken and not copied out. -/
def pending : DequeuePc → Set ℕ
  | .copy len _ start i => Set.Ico (start + i) (start + len.toNat)
  | _ => ∅

/-- The slots that are taken and not read. -/
def Reads (mask : UInt32) (slot : ℕ) : DequeuePc → Prop
  | .copy len first _ i =>
      ∃ t < len.toNat, i ≤ t ∧ slotOf mask first t = slot
  | _ => False

instance (mask : UInt32) (slot : ℕ) :
    ∀ pc : DequeuePc, Decidable (pc.Reads mask slot)
  | .copy len first _ i => inferInstanceAs
      (Decidable (∃ t < len.toNat, i ≤ t ∧ slotOf mask first t = slot))
  | .idle | .load _ | .cas .. => instDecidableFalse

/-- The length of a compare-and-swap that finds the counter it has read. -/
def wins (count : UInt32) : DequeuePc → Option UInt32
  | .cas len seen => if count = seen then some len else none
  | _ => none

end DequeuePc

namespace LockFree

variable {α ι κ : Type*}

/-- The counters stay in range, no element that has not been copied out is
overwritten, no slot is read before it has been written, every element
delivered is the one announced under its number, none is delivered twice, and
every element taken is delivered or on its way to its consumer. -/
structure Safe (s : LockFree α ι κ) : Prop where
  count : s.taken + (s.inCount - s.outCount).toNat = s.enqueued.length
  capacity : (s.inCount - s.outCount).toNat ≤ (s.mask + 1).toNat
  copyIn : ∀ p src len first start i,
    s.producers p = .copy src len first start i → i < len.toNat →
      s.ring.occupied (slotOf s.mask first i) = false
  copyOut : ∀ c len first start i,
    s.consumers c = .copy len first start i → i < len.toNat →
      s.ring.occupied (slotOf s.mask first i) = true
  delivered : ∀ d ∈ s.delivered, s.enqueued[d.1]? = some d.2
  once : (s.delivered.map Prod.fst).Nodup
  notLost : ∀ q < s.taken,
    q ∈ s.delivered.map Prod.fst ∨ ∃ c, q ∈ (s.consumers c).pending

/-- When a counter is advanced, the length computed before still fits and no
party of the other side is copying one of the slots. -/
def Fits (s : LockFree α ι κ) : LockFreeStep α ι κ → Prop
  | .casIn p => ∀ len ∈ (s.producers p).wins s.inCount,
      len.toNat ≤ (mixQueueUnused s.mask s.inCount s.outCount).toNat ∧
        ∀ i < len.toNat, ∀ c,
          ¬ (s.consumers c).Reads s.mask (slotOf s.mask s.inCount i)
  | .casOut c => ∀ len ∈ (s.consumers c).wins s.outCount,
      len.toNat ≤ (s.inCount - s.outCount).toNat ∧
        ∀ i < len.toNat, ∀ p,
          ¬ (s.producers p).Writes s.mask (slotOf s.mask s.outCount i)
  | _ => True

instance [Fintype ι] [Fintype κ] (s : LockFree α ι κ) :
    ∀ a : LockFreeStep α ι κ, Decidable (s.Fits a)
  | .casIn p => decidableForallSome
      (fun _ => inferInstanceAs (Decidable (_ ∧ _)))
      ((s.producers p).wins s.inCount)
  | .casOut c => decidableForallSome
      (fun _ => inferInstanceAs (Decidable (_ ∧ _)))
      ((s.consumers c).wins s.outCount)
  | .enqueue .. | .loadIn _ | .casInFails _ | .copyIn _ | .returnIn _
  | .dequeue .. | .loadOut _ | .casOutFails _ | .copyOut _
  | .returnOut _ => instDecidableTrue

end LockFree

/-! ## The invariant -/

namespace EnqueuePc

variable {α : Type*}

/-- A copy goes to the slots of the elements it has announced, which nobody
has taken. -/
def Ok (enqueued : List α) (taken : ℕ) : EnqueuePc α → Prop
  | .copy src len first start i =>
      first = UInt32.ofNat start ∧ i ≤ len.toNat ∧
        ∀ q, start + i ≤ q → q < start + len.toNat →
          taken ≤ q ∧ enqueued[q]? = some (src (q - start))
  | _ => True

theorem Ok.pending {enqueued : List α} {taken : ℕ} {pc : EnqueuePc α}
    (h : pc.Ok enqueued taken) {q : ℕ} (hq : q ∈ pc.pending) :
    taken ≤ q ∧ q < enqueued.length := by
  cases pc with
  | copy src len first start i =>
      obtain ⟨hle, hsome⟩ := h.2.2 q hq.1 hq.2
      exact ⟨hle, (List.getElem?_eq_some_iff.mp hsome).1⟩
  | _ => exact absurd hq (Set.notMem_empty q)

/-- More elements may be announced, and other elements be taken. -/
theorem Ok.mono {enqueued enqueued' : List α} {taken taken' : ℕ}
    {pc : EnqueuePc α} (h : pc.Ok enqueued taken)
    (henqueued : enqueued <+: enqueued')
    (htaken : ∀ q ∈ pc.pending, taken' ≤ q) : pc.Ok enqueued' taken' := by
  cases pc with
  | copy src len first start i =>
      refine ⟨h.1, h.2.1, fun q hq hlt => ⟨htaken q ⟨hq, hlt⟩, ?_⟩⟩
      obtain ⟨suffix, rfl⟩ := henqueued
      obtain ⟨hlength, hget⟩ :=
        List.getElem?_eq_some_iff.mp (h.2.2 q hq hlt).2
      rw [List.getElem?_append_left hlength]
      exact (h.2.2 q hq hlt).2
  | _ => trivial

end EnqueuePc

namespace DequeuePc

/-- A copy reads the slots of the elements it has taken, which nobody has
announced anew. -/
def Ok (k count taken : ℕ) : DequeuePc → Prop
  | .copy len first start i =>
      first = UInt32.ofNat start ∧ i ≤ len.toNat ∧
        ∀ q, start + i ≤ q → q < start + len.toNat →
          q < taken ∧ count ≤ q + 2 ^ k
  | _ => True

theorem Ok.pending {k count taken : ℕ} {pc : DequeuePc}
    (h : pc.Ok k count taken) {q : ℕ} (hq : q ∈ pc.pending) :
    q < taken ∧ count ≤ q + 2 ^ k := by
  cases pc with
  | copy len first start i => exact h.2.2 q hq.1 hq.2
  | _ => exact absurd hq (Set.notMem_empty q)

theorem Ok.mono {k count count' taken taken' : ℕ} {pc : DequeuePc}
    (h : pc.Ok k count taken) (htaken : taken ≤ taken')
    (hcount : ∀ q ∈ pc.pending, count' ≤ q + 2 ^ k) :
    pc.Ok k count' taken' := by
  cases pc with
  | copy len first start i =>
      exact ⟨h.1, h.2.1, fun q hq hlt =>
        ⟨(h.2.2 q hq hlt).1.trans_le htaken, hcount q ⟨hq, hlt⟩⟩⟩
  | _ => trivial

end DequeuePc

namespace LockFree

variable {α ι κ : Type*} {s : LockFree α ι κ} {k : ℕ}

/-- The numbers of the elements in the slots: those that nobody has taken and
that are not still being copied in, and those being copied out. -/
def held (s : LockFree α ι κ) : Set ℕ :=
  {q | (s.taken ≤ q ∧ q < s.enqueued.length ∧
      ∀ p, q ∉ (s.producers p).pending) ∨ ∃ c, q ∈ (s.consumers c).pending}

/-- The counters are positions of the history, the copies have elements of
their own, and the slots hold the elements between them. -/
structure Inv (k : ℕ) (s : LockFree α ι κ) : Prop where
  mask : s.mask.toNat = 2 ^ k - 1
  inCount : s.inCount = UInt32.ofNat s.enqueued.length
  outCount : s.outCount = UInt32.ofNat s.taken
  taken_le : s.taken ≤ s.enqueued.length
  full : s.enqueued.length ≤ s.taken + 2 ^ k
  producers : ∀ p, (s.producers p).Ok s.enqueued s.taken
  consumers : ∀ c, (s.consumers c).Ok k s.enqueued.length s.taken
  announced : ∀ p p' q, q ∈ (s.producers p).pending →
    q ∈ (s.producers p').pending → p = p'
  reserved : ∀ c c' q, q ∈ (s.consumers c).pending →
    q ∈ (s.consumers c').pending → c = c'
  ring : s.ring.Holds (2 ^ k) s.enqueued s.held s.enqueued.length
  delivered : ∀ d ∈ s.delivered, d.1 < s.taken ∧
    s.enqueued[d.1]? = some d.2 ∧ ∀ c, d.1 ∉ (s.consumers c).pending
  once : (s.delivered.map Prod.fst).Nodup
  notLost : ∀ q < s.taken,
    q ∈ s.delivered.map Prod.fst ∨ ∃ c, q ∈ (s.consumers c).pending

theorem new_inv {mask : UInt32} (hmask : mask.toNat = 2 ^ k - 1)
    (cell : ℕ → α) : Inv k (new mask cell : LockFree α ι κ) where
  mask := hmask
  inCount := rfl
  outCount := rfl
  taken_le := Nat.le_refl 0
  full := Nat.zero_le _
  producers := fun _ => trivial
  consumers := fun _ => trivial
  announced := fun _ _ q hq => absurd hq (Set.notMem_empty q)
  reserved := fun _ _ q hq => absurd hq (Set.notMem_empty q)
  ring := by
    have hnone : ∀ q, q ∉ (new mask cell : LockFree α ι κ).held := by
      rintro q (⟨-, hlt, -⟩ | ⟨c, hq⟩)
      · exact absurd hlt (Nat.not_lt_zero q)
      · exact absurd hq (Set.notMem_empty q)
    refine ⟨fun q hq => absurd hq (hnone q), fun p _ => ?_,
      fun q hq => absurd hq (hnone q)⟩
    refine ⟨fun h => absurd h Bool.false_ne_true, ?_⟩
    rintro ⟨q, hq, -⟩
    exact absurd hq (hnone q)
  delivered := fun d hd => absurd hd List.not_mem_nil
  once := List.nodup_nil
  notLost := fun q hq => absurd hq (Nat.not_lt_zero q)

namespace Inv

theorem toNat_used (h : Inv k s) (hk : k ≤ 31) :
    (s.inCount - s.outCount).toNat = s.enqueued.length - s.taken := by
  have hle := h.taken_le
  have hfull := h.full
  have hpow : 2 ^ k ≤ 2 ^ 31 := Nat.pow_le_pow_right (by decide) hk
  rw [h.inCount, h.outCount, toNat_ofNat_sub_ofNat hle (by omega)]

/-- An element that is being copied in is in no slot. -/
theorem not_held (h : Inv k s) {p : ι} {q : ℕ}
    (hq : q ∈ (s.producers p).pending) : q ∉ s.held := by
  rintro (⟨-, -, hnot⟩ | ⟨c, hc⟩)
  · exact hnot p hq
  · have htaken := ((h.producers p).pending hq).1
    have hlt := ((h.consumers c).pending hc).1
    omega

/-- What the invariant says of a state. -/
theorem safe (h : Inv k s) (hk : k ≤ 31) : Safe s where
  count := by
    have hle := h.taken_le
    rw [h.toNat_used hk]
    omega
  capacity := by
    have hfull := h.full
    have hpos := Nat.two_pow_pos k
    rw [h.toNat_used hk, toNat_capacity h.mask hk]
    omega
  copyIn := by
    intro p src len first start i hpc hi
    have hok := h.producers p
    rw [hpc] at hok
    have hmem : start + i ∈ (s.producers p).pending := by
      rw [hpc]
      exact ⟨Nat.le_refl _, by omega⟩
    obtain ⟨htaken, hlt⟩ := (h.producers p).pending hmem
    have hfull := h.full
    rw [hok.1, slotOf_ofNat h.mask hk]
    exact h.ring.free_of_not_mem hlt (by omega) (h.not_held hmem)
  copyOut := by
    intro c len first start i hpc hi
    have hok := h.consumers c
    rw [hpc] at hok
    have hmem : start + i ∈ (s.consumers c).pending := by
      rw [hpc]
      exact ⟨Nat.le_refl _, by omega⟩
    rw [hok.1, slotOf_ofNat h.mask hk]
    exact h.ring.occupied_of_mem (Or.inr ⟨c, hmem⟩)
  delivered := fun d hd => (h.delivered d hd).2.1
  once := h.once
  notLost := h.notLost

/-- The slots of taken elements are being read. -/
theorem reads_of_pending (h : Inv k s) (hk : k ≤ 31) {c : κ} {q : ℕ}
    (hq : q ∈ (s.consumers c).pending) :
    (s.consumers c).Reads s.mask (q % 2 ^ k) := by
  have hok := h.consumers c
  cases hpc : s.consumers c with
  | copy len first start i =>
      rw [hpc] at hq hok
      have hle : start + i ≤ q := hq.1
      have hlt : q < start + len.toNat := hq.2
      refine ⟨q - start, by omega, by omega, ?_⟩
      rw [hok.1, slotOf_ofNat h.mask hk]
      congr 1
      omega
  | _ =>
      rw [hpc] at hq
      exact absurd hq (Set.notMem_empty q)

/-- The slots of announced elements are being written. -/
theorem writes_of_pending (h : Inv k s) (hk : k ≤ 31) {p : ι} {q : ℕ}
    (hq : q ∈ (s.producers p).pending) :
    (s.producers p).Writes s.mask (q % 2 ^ k) := by
  have hok := h.producers p
  cases hpc : s.producers p with
  | copy src len first start i =>
      rw [hpc] at hq hok
      have hle : start + i ≤ q := hq.1
      have hlt : q < start + len.toNat := hq.2
      refine ⟨q - start, by omega, by omega, ?_⟩
      rw [hok.1, slotOf_ofNat h.mask hk]
      congr 1
      omega
  | _ =>
      rw [hpc] at hq
      exact absurd hq (Set.notMem_empty q)

end Inv

end LockFree

end Uhs
