import Mathlib.Data.List.Basic

/-!
# Runs of a partial step function

An operation either returns a new state or does not return.  A run applies a
list of operations in order; `AllSteps P` constrains every step by a predicate
on the state before it, `AllStates Q` asserts a predicate after every step.
-/

namespace Uhs.Support

variable {S A : Type*} (step : S → A → Option S)

/-- Apply the operations in order. -/
def runOps : S → List A → Option S
  | s, [] => some s
  | s, a :: as => (step s a).bind fun s' => runOps s' as

/-- `P` holds of every step of the run, taken in the state before the step. -/
def AllSteps (P : S → A → Prop) : S → List A → Prop
  | _, [] => True
  | s, a :: as => P s a ∧ ∀ s', step s a = some s' → AllSteps P s' as

/-- `Q` holds after every operation of the run that returns. -/
def AllStates (Q : S → Prop) : S → List A → Prop
  | _, [] => True
  | s, a :: as => ∀ s', step s a = some s' → Q s' ∧ AllStates Q s' as

/-- Deciding a property of the state an operation returns. -/
def decidableForallSome {Q : S → Prop} (hQ : ∀ s, Decidable (Q s)) :
    ∀ o : Option S, Decidable (∀ s', o = some s' → Q s')
  | none => isTrue fun _ h => nomatch h
  | some s =>
      haveI := hQ s
      decidable_of_iff (Q s)
        ⟨fun hq _ h => Option.some.inj h ▸ hq, fun h => h s rfl⟩

instance decidableAllSteps {P : S → A → Prop} [hP : ∀ s a, Decidable (P s a)] :
    ∀ s as, Decidable (AllSteps step P s as)
  | _, [] => isTrue trivial
  | s, a :: as =>
      @instDecidableAnd _ _ (hP s a)
        (decidableForallSome (fun s' => decidableAllSteps s' as) (step s a))

instance decidableAllStates {Q : S → Prop} [hQ : DecidablePred Q] :
    ∀ s as, Decidable (AllStates step Q s as)
  | _, [] => isTrue trivial
  | s, a :: as =>
      decidableForallSome (fun s' =>
        @instDecidableAnd _ _ (hQ s') (decidableAllStates s' as)) (step s a)

variable {step} {P : S → A → Prop} {Q I : S → Prop}

/-- A run of two lists of operations is a run of the second after the first. -/
theorem runOps_append (s : S) (as bs : List A) :
    runOps step s (as ++ bs) =
      (runOps step s as).bind fun s' => runOps step s' bs := by
  induction as generalizing s with
  | nil => rfl
  | cons a as ih =>
      rw [List.cons_append, runOps, runOps, Option.bind_assoc]
      exact congrArg _ (funext fun s' => ih s')

/-- An invariant kept by every constrained step holds along the run. -/
theorem allStates_of_allSteps
    (hstep : ∀ s a s', I s → P s a → step s a = some s' → I s')
    {s : S} {as : List A} (hs : I s) (hsteps : AllSteps step P s as) :
    AllStates step I s as := by
  induction as generalizing s with
  | nil => trivial
  | cons a as ih =>
      intro s' hs'
      have hinv := hstep s a s' hs hsteps.1 hs'
      exact ⟨hinv, ih hinv (hsteps.2 s' hs')⟩

/-- An invariant kept by every step holds along every run. -/
theorem allStates_of_invariant
    (hstep : ∀ s a s', I s → step s a = some s' → I s') {s : S}
    {as : List A} (hs : I s) : AllStates step I s as := by
  induction as generalizing s with
  | nil => trivial
  | cons a as ih =>
      intro s' hs'
      exact ⟨hstep s a s' hs hs', ih (hstep s a s' hs hs')⟩

/-- What an invariant gives of a constrained step holds of every step. -/
theorem AllSteps.of_invariant {R : S → A → Prop}
    (hstep : ∀ s a s', I s → P s a → step s a = some s' → I s')
    (hP : ∀ s a, I s → P s a → R s a) {s : S} {as : List A} (hs : I s)
    (hsteps : AllSteps step P s as) : AllSteps step R s as := by
  induction as generalizing s with
  | nil => trivial
  | cons a as ih =>
      exact ⟨hP s a hs hsteps.1, fun s' hs' =>
        ih (hstep s a s' hs hsteps.1 hs') (hsteps.2 s' hs')⟩

theorem AllSteps.mono {R : S → A → Prop} (h : ∀ s a, P s a → R s a)
    {s : S} {as : List A} (hsteps : AllSteps step P s as) :
    AllSteps step R s as :=
  AllSteps.of_invariant (I := fun _ => True) (fun _ _ _ _ _ _ => trivial)
    (fun s a _ hP => h s a hP) trivial hsteps

theorem allSteps_true (s : S) (as : List A) :
    AllSteps step (fun _ _ => True) s as := by
  induction as generalizing s with
  | nil => trivial
  | cons a as ih => exact ⟨trivial, fun s' _ => ih s'⟩

theorem AllSteps.and {R : S → A → Prop} {s : S} {as : List A}
    (hP : AllSteps step P s as) (hR : AllSteps step R s as) :
    AllSteps step (fun s a => P s a ∧ R s a) s as := by
  induction as generalizing s with
  | nil => trivial
  | cons a as ih =>
      exact ⟨⟨hP.1, hR.1⟩, fun s' hs' => ih (hP.2 s' hs') (hR.2 s' hs')⟩

/-- A constraint on the operations alone can be added to one on the steps. -/
theorem AllSteps.and_of_forall_mem {R : A → Prop} {s : S} {as : List A}
    (hmem : ∀ a ∈ as, R a) (hsteps : AllSteps step P s as) :
    AllSteps step (fun s a => R a ∧ P s a) s as := by
  induction as generalizing s with
  | nil => trivial
  | cons a as ih =>
      exact ⟨⟨hmem a List.mem_cons_self, hsteps.1⟩, fun s' hs' =>
        ih (fun b hb => hmem b (List.mem_cons_of_mem a hb))
          (hsteps.2 s' hs')⟩

/-- The operation after a run is constrained in the state that is reached. -/
theorem AllSteps.of_runOps {s s' : S} {as : List A} {a : A}
    (hsteps : AllSteps step P s (as ++ [a]))
    (hrun : runOps step s as = some s') : P s' a := by
  induction as generalizing s with
  | nil =>
      simp only [runOps, Option.some.injEq] at hrun
      exact hrun ▸ hsteps.1
  | cons b as ih =>
      rw [runOps, Option.bind_eq_some_iff] at hrun
      obtain ⟨s₁, hfirst, hrest⟩ := hrun
      exact ih (hsteps.2 s₁ hfirst) hrest

/-- An invariant kept by the operations of a run holds at its end. -/
theorem inv_of_runOps {R : A → Prop}
    (hstep : ∀ s a s', I s → R a → step s a = some s' → I s')
    {s s' : S} {as : List A} (hs : I s) (hR : ∀ a ∈ as, R a)
    (hrun : runOps step s as = some s') : I s' := by
  induction as generalizing s with
  | nil =>
      simp only [runOps, Option.some.injEq] at hrun
      exact hrun ▸ hs
  | cons a as ih =>
      rw [runOps, Option.bind_eq_some_iff] at hrun
      obtain ⟨s₁, hfirst, hrest⟩ := hrun
      exact ih (hstep s a s₁ hs (hR a List.mem_cons_self) hfirst)
        (fun b hb => hR b (List.mem_cons_of_mem a hb)) hrest

theorem AllStates.mono {R : S → Prop} (h : ∀ s, Q s → R s) {s : S}
    {as : List A} (hall : AllStates step Q s as) : AllStates step R s as := by
  induction as generalizing s with
  | nil => trivial
  | cons a as ih =>
      intro s' hs'
      exact ⟨h s' (hall s' hs').1, ih (hall s' hs').2⟩

theorem AllStates.of_runOps {s s' : S} {as : List A}
    (hall : AllStates step Q s as) (hs : Q s)
    (hrun : runOps step s as = some s') : Q s' := by
  induction as generalizing s with
  | nil =>
      simp only [runOps, Option.some.injEq] at hrun
      exact hrun ▸ hs
  | cons a as ih =>
      rw [runOps, Option.bind_eq_some_iff] at hrun
      obtain ⟨s₁, hstep, hrest⟩ := hrun
      exact ih (hall s₁ hstep).2 (hall s₁ hstep).1 hrest

/-- A property that every constrained step establishes and every other step
breaks holds along a run exactly when all steps are constrained. -/
theorem allStates_iff_allSteps
    (hgood : ∀ s a s', I s → P s a → step s a = some s' → I s')
    (hbad : ∀ s a, I s → ¬ P s a → ∃ s', step s a = some s' ∧ ¬ Q s')
    (hinv : ∀ s, I s → Q s) {s : S} {as : List A} (hs : I s) :
    AllStates step Q s as ↔ AllSteps step P s as := by
  constructor
  · intro hall
    induction as generalizing s with
    | nil => trivial
    | cons a as ih =>
        have hP : P s a := by
          by_contra hnot
          obtain ⟨s', hs', hQ⟩ := hbad s a hs hnot
          exact hQ (hall s' hs').1
        exact ⟨hP, fun s' hs' =>
          ih (hgood s a s' hs hP hs') (hall s' hs').2⟩
  · intro hsteps
    exact (allStates_of_allSteps hgood hs hsteps).mono hinv

end Uhs.Support
