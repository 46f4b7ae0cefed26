import Uhs.Support.Fifo

/-!
# The channel of `io_channel.cpp`

A channel has two rings, here bounded first-in first-out queues.  Submitting
calls `ringOut`, as obtaining does, so nothing ever enters a ring: no submit
is accepted, and every obtain returns the request that the constructor made.
-/

namespace Uhs

open Support

/-- The two rings of a channel. -/
inductive Lane
  | nvm
  | buffer
  deriving DecidableEq

/-- `IoChannel`; the last two fields are what `nvm_req_` and `buffer_req_`
point to. -/
structure IoChannel (α : Type*) (C : ℕ) where
  nvmRing : Fifo α C
  bufferRing : Fifo α C
  nvmReq : α
  bufferReq : α

namespace IoChannel

variable {α : Type*} {C : ℕ}

/-- The constructor, with the contents of the two requests it makes. -/
def ioChannel (C : ℕ) (nvmReq bufferReq : α) : IoChannel α C where
  nvmRing := .empty
  bufferRing := .empty
  nvmReq := nvmReq
  bufferReq := bufferReq

/-- The body of a submit on its ring: the ring, the request of the caller and
the result. -/
def submitIo (ring : Fifo α C) (req : α) : Fifo α C × α × Bool :=
  let (ring, req, ret) := ring.pop req
  (ring, req, ret > 0)

/-- `submitNvmIo`. -/
def submitNvmIo (channel : IoChannel α C) (req : α) :
    IoChannel α C × α × Bool :=
  let (ring, req, ret) := submitIo channel.nvmRing req
  ({ channel with nvmRing := ring }, req, ret)

/-- `submitBufferIo`. -/
def submitBufferIo (channel : IoChannel α C) (req : α) :
    IoChannel α C × α × Bool :=
  let (ring, req, ret) := submitIo channel.bufferRing req
  ({ channel with bufferRing := ring }, req, ret)

/-- `obtainNvmIo`: the request that the pointer points to, `none` for the
null pointer. -/
def obtainNvmIo (channel : IoChannel α C) : IoChannel α C × Option α :=
  let (ring, req, _) := channel.nvmRing.pop channel.nvmReq
  ({ channel with nvmRing := ring, nvmReq := req }, some req)

/-- `obtainBufferIo`. -/
def obtainBufferIo (channel : IoChannel α C) : IoChannel α C × Option α :=
  let (ring, req, _) := channel.bufferRing.pop channel.bufferReq
  ({ channel with bufferRing := ring, bufferReq := req }, some req)

/-- An operation on a channel. -/
inductive Op (α : Type*)
  | submit (lane : Lane) (req : α)
  | obtain (lane : Lane)

/-- A submit on either ring. -/
def submit (channel : IoChannel α C) (lane : Lane) (req : α) :
    IoChannel α C × α × Bool :=
  match lane with
  | .nvm => channel.submitNvmIo req
  | .buffer => channel.submitBufferIo req

/-- An obtain from either ring. -/
def obtainIo (channel : IoChannel α C) (lane : Lane) :
    IoChannel α C × Option α :=
  match lane with
  | .nvm => channel.obtainNvmIo
  | .buffer => channel.obtainBufferIo

/-- The ring of a lane. -/
def ring (channel : IoChannel α C) : Lane → Fifo α C
  | .nvm => channel.nvmRing
  | .buffer => channel.bufferRing

/-- The channel delivers what it accepts: an accepted request enters its ring
and stays as it was, and an obtain returns the oldest request of its ring
that has been accepted and not obtained, and the null pointer when there is
none.  `accepted` are these requests. -/
def Delivers (accepted : Lane → List α) (channel : IoChannel α C) :
    List (Op α) → Prop
  | [] => True
  | .submit lane req :: ops =>
      let (next, after, ok) := channel.submit lane req
      (ok = true → after = req ∧
        (next.ring lane).items = (channel.ring lane).items ++ [req]) ∧
      Delivers (if ok then Function.update accepted lane
        (accepted lane ++ [req]) else accepted) next ops
  | .obtain lane :: ops =>
      let (next, req) := channel.obtainIo lane
      req = (accepted lane).head? ∧
      Delivers (Function.update accepted lane (accepted lane).tail) next ops

/-- An obtain never returns the null pointer. -/
theorem obtainIo_ne_none (channel : IoChannel α C) (lane : Lane) :
    (channel.obtainIo lane).2 ≠ none := by
  cases lane with
  | nvm => exact Option.some_ne_none _
  | buffer => exact Option.some_ne_none _

/-! ## Empty rings stay empty -/

/-- Neither ring holds a request. -/
def Empty (channel : IoChannel α C) : Prop :=
  ∀ lane, (channel.ring lane).items = []

theorem ioChannel_empty (nvmReq bufferReq : α) :
    (ioChannel C nvmReq bufferReq).Empty := by
  intro lane
  cases lane with
  | nvm => rfl
  | buffer => rfl

namespace Empty

variable {channel : IoChannel α C}

/-- A submit is refused and changes nothing. -/
theorem submit (h : channel.Empty) (lane : Lane) (req : α) :
    channel.submit lane req = (channel, req, false) := by
  cases lane with
  | nvm =>
      have hpop := Fifo.pop_of_items_nil (h .nvm) req
      simp only [ring] at hpop
      simp only [IoChannel.submit, submitNvmIo, submitIo, hpop]
      rfl
  | buffer =>
      have hpop := Fifo.pop_of_items_nil (h .buffer) req
      simp only [ring] at hpop
      simp only [IoChannel.submit, submitBufferIo, submitIo, hpop]
      rfl

/-- Without obtains the channel delivers what it accepts, which is nothing. -/
theorem delivers_iff (h : channel.Empty) (ops : List (Op α)) :
    channel.Delivers (fun _ => []) ops ↔ ∀ lane, .obtain lane ∉ ops := by
  induction ops with
  | nil => exact iff_of_true trivial fun _ => List.not_mem_nil
  | cons op ops ih =>
      cases op with
      | submit lane req =>
          rw [Delivers, h.submit]
          simp only [Bool.false_eq_true, if_false, false_implies, true_and,
            List.mem_cons, reduceCtorEq, false_or]
          exact ih
      | obtain lane =>
          refine iff_of_false ?_ fun hnone => hnone lane List.mem_cons_self
          rintro ⟨hhead, -⟩
          exact channel.obtainIo_ne_none lane hhead

end Empty

/-- A channel delivers what it accepts in exactly the sequences of operations
without an obtain. -/
theorem delivers_iff_forall_submit (nvmReq bufferReq : α)
    (ops : List (Op α)) :
    (ioChannel C nvmReq bufferReq).Delivers (fun _ => []) ops ↔
      ∀ lane, .obtain lane ∉ ops :=
  (ioChannel_empty nvmReq bufferReq).delivers_iff ops

/-- A request is submitted, and an obtain returns another one. -/
theorem delivers_fails :
    ¬ (ioChannel 8 0 0 : IoChannel ℕ 8).Delivers (fun _ => [])
      [.submit .nvm 7, .obtain .nvm] := by
  rintro ⟨-, hhead, -⟩
  exact absurd hhead (by decide)

end IoChannel

end Uhs
