import Mathlib.Data.UInt
import Uhs.Support.Memory

/-!
# The queue of `mix_queue.c`

The indices are free-running 32-bit counters of elements.  They are masked
where they address the data area, and only there are they turned into bytes.
-/

namespace Uhs

open Support

/-- `mix_queue_t`; the data area is a memory of bytes. -/
structure MixQueue (β : Type*) where
  inCount : UInt32
  outCount : UInt32
  mask : UInt32
  esize : UInt32
  data : ℕ → β

/-- `fls`: the number of bits of `x`. -/
def fls (x : UInt32) : ℕ :=
  if x = 0 then 0 else Nat.log2 x.toNat + 1

/-- `roundup_pow_of_two`: the shift is made in 64 bits. -/
def roundupPowOfTwo (x : UInt32) : UInt32 :=
  UInt32.ofNat (2 ^ fls (x - 1))

/-- `__mix_queue_unused` of the two counters. -/
def mixQueueUnused (mask inCount outCount : UInt32) : UInt32 :=
  (mask + 1) - (inCount - outCount)

/-- A length cut down to `l`. -/
def clamp (len l : UInt32) : UInt32 :=
  if len > l then l else len

namespace MixQueue

variable {β : Type*}

/-- `__mix_queue_unused`. -/
def unused (queue : MixQueue β) : UInt32 :=
  mixQueueUnused queue.mask queue.inCount queue.outCount

/-- The offset, the size of the data area and the length of a copy in bytes,
as `__mix_enqueue` and `__mix_dequeue` compute them. -/
def bytes (queue : MixQueue β) (len off : UInt32) :
    UInt32 × UInt32 × UInt32 :=
  let size := queue.mask + 1
  let esize := queue.esize
  let off := off &&& queue.mask
  if esize ≠ 1 then (off * esize, size * esize, len * esize)
  else (off, size, len)

/-- `__mix_enqueue`: the data area after the copy and the bytes before the
end of the ring. -/
def copyEnqueue (queue : MixQueue β) (src : ℕ → β) (len off : UInt32) :
    (ℕ → β) × UInt32 :=
  let (off, size, len) := queue.bytes len off
  let l := min len (size - off)
  let data := memcpy queue.data off.toNat src 0 l.toNat
  (memcpy data 0 src l.toNat (len - l).toNat, l)

/-- `__mix_dequeue`: the destination after the copy. -/
def copyDequeue (queue : MixQueue β) (dst : ℕ → β) (len off : UInt32) :
    ℕ → β :=
  let (off, size, len) := queue.bytes len off
  let l := min len (size - off)
  let dst := memcpy dst 0 queue.data off.toNat l.toNat
  memcpy dst l.toNat queue.data 0 (len - l).toNat

/-- `__mix_queue_init`; `none` stands for `EINVAL`. -/
def initQueue (buffer : ℕ → β) (size esize : UInt32) : Option (MixQueue β) :=
  let size := roundupPowOfTwo (size / esize)
  if size < 2 then none
  else some
    { inCount := 0, outCount := 0, mask := size - 1, esize := esize
      data := buffer }

/-- `mix_queue_init` of a data area with the contents `buffer`. -/
def mixQueueInit (buffer : ℕ → β) (size esize : UInt32) :
    Option (MixQueue β) :=
  if size > 0 ∧ esize > 0 then initQueue buffer size esize else none

/-- `mix_enqueue`. -/
def mixEnqueue (queue : MixQueue β) (src : ℕ → β) (len : UInt32) :
    MixQueue β × UInt32 :=
  let l := queue.unused
  let len := clamp len l
  ({ queue with
      data := (queue.copyEnqueue src len queue.inCount).1
      inCount := queue.inCount + len }, len)

/-- `mix_dequeue`: the queue, the destination and the number dequeued. -/
def mixDequeue (queue : MixQueue β) (dst : ℕ → β) (len : UInt32) :
    MixQueue β × (ℕ → β) × UInt32 :=
  let l := queue.inCount - queue.outCount
  if l = 0 then (queue, dst, l)
  else
    let len := clamp len l
    ({ queue with outCount := queue.outCount + len },
      queue.copyDequeue dst len queue.outCount, len)

end MixQueue

end Uhs
