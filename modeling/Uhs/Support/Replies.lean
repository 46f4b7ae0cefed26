import Mathlib.Data.List.Basic

/-!
# Replies of a run

An operation of a total component returns a new state and a reply.  Two
components in a relation that every operation keeps, and that makes their
replies correspond, give corresponding replies along every run.
-/

namespace Uhs.Support

variable {S S' A A' R R' : Type*}

/-- The replies of the operations, in order. -/
def replies (step : S → A → S × R) : S → List A → List R
  | _, [] => []
  | s, a :: as => (step s a).2 :: replies step (step s a).1 as

/-- The state after the operations. -/
def final (step : S → A → S × R) (s : S) (as : List A) : S :=
  as.foldl (fun s a => (step s a).1) s

/-- One more operation gives one more reply. -/
theorem replies_concat (step : S → A → S × R) (s : S) (as : List A) (a : A) :
    replies step s (as ++ [a]) =
      replies step s as ++ [(step (final step s as) a).2] := by
  induction as generalizing s with
  | nil => rfl
  | cons b as ih =>
      rw [List.cons_append, replies, ih, replies]
      rfl

theorem final_concat (step : S → A → S × R) (s : S) (as : List A) (a : A) :
    final step s (as ++ [a]) = (step (final step s as) a).1 := by
  rw [final, final, List.foldl_append, List.foldl_cons, List.foldl_nil]

/-- A simulation of one component by another. -/
structure Simulates (step : S → A → S × R) (step' : S' → A' → S' × R')
    (op : A → A') (reply : R → R') (I : S → S' → Prop) : Prop where
  state : ∀ s s' a, I s s' → I (step s a).1 (step' s' (op a)).1
  reply : ∀ s s' a, I s s' → reply (step s a).2 = (step' s' (op a)).2

namespace Simulates

variable {step : S → A → S × R} {step' : S' → A' → S' × R'} {op : A → A'}
  {reply : R → R'} {I : S → S' → Prop}

/-- The replies of a simulated run. -/
theorem replies (h : Simulates step step' op reply I) {s : S} {s' : S'}
    (hs : I s s') (as : List A) :
    (replies step s as).map reply = Support.replies step' s' (as.map op) := by
  induction as generalizing s s' with
  | nil => rfl
  | cons a as ih =>
      rw [Support.replies, List.map_cons, List.map_cons, Support.replies,
        h.reply s s' a hs, ih (h.state s s' a hs)]

/-- The states after a simulated run. -/
theorem final (h : Simulates step step' op reply I) {s : S} {s' : S'}
    (hs : I s s') (as : List A) :
    I (final step s as) (Support.final step' s' (as.map op)) := by
  induction as generalizing s s' with
  | nil => exact hs
  | cons a as ih => exact ih (h.state s s' a hs)

end Simulates

end Uhs.Support
