import Mathlib.Logic.Function.Basic

/-!
# Atomic objects

Parties call the operations of one object and get replies.  The object is
atomic if every operation takes effect at one instant between its call and its
return, on the state that the operations before it have left.  A history of
calls and returns that an atomic object can show is linearizable.
-/

namespace Uhs.Support

variable {P S O R : Type*}

/-- What the parties see of an object. -/
inductive HistoryEvent (P O R : Type*)
  | call (p : P) (op : O)
  | ret (p : P) (reply : R)

/-- Where a party stands: its operation has been called and may have taken
effect. -/
inductive Phase (O R : Type*)
  | idle
  | called (op : O)
  | done (reply : R)

/-- The histories of an atomic object, each with the state of the object and
of the parties after it.  The effect of an operation is not seen. -/
inductive Atomic [DecidableEq P] (step : S → O → S × R) (init : S) :
    List (HistoryEvent P O R) → S → (P → Phase O R) → Prop
  | nil : Atomic step init [] init fun _ => .idle
  | call {h : List (HistoryEvent P O R)} {s : S} {phase : P → Phase O R}
      (hatomic : Atomic step init h s phase) {p : P}
      (hidle : phase p = .idle) (op : O) :
      Atomic step init (h ++ [.call p op]) s
        (Function.update phase p (.called op))
  | effect {h : List (HistoryEvent P O R)} {s : S} {phase : P → Phase O R}
      (hatomic : Atomic step init h s phase) {p : P} {op : O}
      (hcalled : phase p = .called op) :
      Atomic step init h (step s op).1
        (Function.update phase p (.done (step s op).2))
  | ret {h : List (HistoryEvent P O R)} {s : S} {phase : P → Phase O R}
      (hatomic : Atomic step init h s phase) {p : P} {reply : R}
      (hdone : phase p = .done reply) :
      Atomic step init (h ++ [.ret p reply]) s
        (Function.update phase p .idle)

/-- The history is one of an atomic object. -/
def Linearizable [DecidableEq P] (step : S → O → S × R) (init : S)
    (h : List (HistoryEvent P O R)) : Prop :=
  ∃ s phase, Atomic step init h s phase

namespace Atomic

variable [DecidableEq P] {step : S → O → S × R} {init s s' : S}
  {h : List (HistoryEvent P O R)} {phase phase' : P → Phase O R} {p : P}
  {op : O} {reply : R}

theorem linearizable (hatomic : Atomic step init h s phase) :
    Linearizable step init h := ⟨s, phase, hatomic⟩

theorem congr (hatomic : Atomic step init h s phase) (hs : s' = s)
    (hphase : ∀ p, phase' p = phase p) : Atomic step init h s' phase' := by
  rw [hs, funext hphase]
  exact hatomic

/-- An operation is called and has no effect yet. -/
theorem call_of_eq (hatomic : Atomic step init h s phase)
    (hidle : phase p = .idle) (hcalled : phase' p = .called op)
    (hne : ∀ q, q ≠ p → phase' q = phase q) :
    Atomic step init (h ++ [.call p op]) s phase' := by
  rw [Function.eq_update_iff.mpr ⟨hcalled, hne⟩]
  exact hatomic.call hidle op

/-- An operation takes effect. -/
theorem effect_of_eq (hatomic : Atomic step init h s phase)
    (hcalled : phase p = .called op) (hstep : step s op = (s', reply))
    (hdone : phase' p = .done reply)
    (hne : ∀ q, q ≠ p → phase' q = phase q) :
    Atomic step init h s' phase' := by
  have heffect := hatomic.effect hcalled
  rw [hstep] at heffect
  rw [Function.eq_update_iff.mpr ⟨hdone, hne⟩]
  exact heffect

/-- An operation that has taken effect returns. -/
theorem ret_of_eq (hatomic : Atomic step init h s phase)
    (hdone : phase p = .done reply) (hidle : phase' p = .idle)
    (hne : ∀ q, q ≠ p → phase' q = phase q) :
    Atomic step init (h ++ [.ret p reply]) s phase' := by
  rw [Function.eq_update_iff.mpr ⟨hidle, hne⟩]
  exact hatomic.ret hdone

/-- An operation takes effect and returns. -/
theorem effect_ret (hatomic : Atomic step init h s phase)
    (hcalled : phase p = .called op) (hstep : step s op = (s', reply))
    (hidle : phase' p = .idle) (hne : ∀ q, q ≠ p → phase' q = phase q) :
    Atomic step init (h ++ [.ret p reply]) s' phase' := by
  have heffect : Atomic step init h s'
      (Function.update phase p (.done reply)) :=
    hatomic.effect_of_eq hcalled hstep (Function.update_self _ _ _)
      fun q hq => Function.update_of_ne hq _ _
  refine heffect.ret_of_eq (Function.update_self _ _ _) hidle fun q hq => ?_
  rw [Function.update_of_ne hq, hne q hq]

end Atomic

end Uhs.Support
