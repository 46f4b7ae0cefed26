import Uhs.Migration.Machine
import Uhs.Segment.Operations
import Uhs.Support.Runs

/-!
# Lost signals

A migrate thread increments the counter and then takes its own flag down.  The
coordinator may have raised that flag for the next migration in between, and
the signal is lost.  Where no flag is raised between these two statements of
its thread, no signal is ever lost.
-/

namespace Uhs

open Support

variable {T : ℕ} {σ β : Type*}

/-- No waiting coordinator misses a thread that has not counted and stands at
its flag test with the flag down. -/
def NoLostSignal (s : Machine T σ β) : Prop :=
  ∀ idx, s.coord = .wait idx → s.completed idx < T →
    ∀ t, s.counted t = false → s.threads t = .test → s.migration t = true

/-- The coordinator is not about to raise the flag of a thread that stands
between its increment of the counter and taking its flag down. -/
def SignalsClear (s : Machine T σ β) : MigrationEvent T σ β → Prop
  | .coord => ∀ idx, ∀ t : Fin T, s.coord = .signal idx t.val →
      s.threads t ≠ .reset
  | _ => True

/-- A signalled thread that has not counted has its flag up and is not about
to take it down. -/
def SignalInv (s : Machine T σ β) : Prop :=
  ∀ t idx, s.coord.Signalled t idx → s.counted t = false →
    s.migration t = true ∧ s.threads t ≠ .reset

theorem SignalInv.noLostSignal {s : Machine T σ β} (h : SignalInv s) :
    NoLostSignal s := by
  intro idx hcoord _ t hcounted _
  exact (h t idx (by rw [hcoord]; rfl) hcounted).1

theorem callMigration_signalInv (idx : Fin 4) (s : Machine T σ β) :
    SignalInv (callMigration idx s) := by
  intro t idx' hsignalled
  exact hsignalled.elim

/-- Raising the next flag. -/
theorem SignalInv.signal {s : Machine T σ β} (h : SignalInv s) {idx : Fin 4}
    {t : Fin T} (hcoord : s.coord = .signal idx t.val)
    (hclear : s.threads t ≠ .reset) :
    SignalInv { s with
      migration := Function.update s.migration t true
      coord := .signal idx (t.val + 1) } := by
  rintro u idx' ⟨rfl, hu⟩ hcounted
  by_cases hut : u = t
  · subst hut
    exact ⟨Function.update_self u true s.migration, hclear⟩
  · have hlt : u.val < t.val := by
      have hne : u.val ≠ t.val := fun heq => hut (Fin.ext heq)
      omega
    have hsignalled : s.coord.Signalled u idx := by
      rw [hcoord]
      exact ⟨rfl, hlt⟩
    obtain ⟨hflag, hpc⟩ := h u idx hsignalled hcounted
    exact ⟨(Function.update_of_ne hut true s.migration).trans hflag, hpc⟩

theorem coordStep_signalInv {s s' : Machine T σ β} (h : SignalInv s)
    (hclear : SignalsClear s .coord) (hstep : coordStep s = some s') :
    SignalInv s' := by
  unfold coordStep at hstep
  cases hcoord : s.coord with
  | idle => simp [hcoord] at hstep
  | signal idx i =>
      simp only [hcoord] at hstep
      split at hstep
      · rename_i hi
        rw [Option.some.injEq] at hstep
        subst hstep
        exact h.signal (t := ⟨i, hi⟩) hcoord (hclear idx ⟨i, hi⟩ hcoord)
      · rename_i hi
        rw [Option.some.injEq] at hstep
        subst hstep
        rintro t idx' rfl hcounted
        refine h t idx ?_ hcounted
        rw [hcoord]
        exact ⟨rfl, by omega⟩
  | wait idx =>
      simp only [hcoord] at hstep
      split at hstep
      · simp at hstep
      · rw [Option.some.injEq] at hstep
        subst hstep
        exact fun _ _ hsignalled => hsignalled.elim
  | zero idx =>
      simp only [hcoord, Option.some.injEq] at hstep
      subst hstep
      rintro t idx' ⟨-, ht⟩
      exact absurd ht (Nat.not_lt_zero _)
  | storeIdx idx | rezero idx | clearBitmap idx | returned idx =>
      simp only [hcoord, Option.some.injEq] at hstep
      subst hstep
      exact fun _ _ hsignalled => hsignalled.elim

/-- A step of a thread that neither counts nor takes its flag down. -/
theorem SignalInv.move {s s' : Machine T σ β} (h : SignalInv s) {t : Fin T}
    {pc : ThreadPc} (hcoord : s'.coord = s.coord)
    (hmigration : s'.migration = s.migration)
    (hcounted : s'.counted = s.counted)
    (hthreads : s'.threads = Function.update s.threads t pc)
    (hpc : pc ≠ .reset) : SignalInv s' := by
  intro u idx hsignalled hu
  rw [hcoord] at hsignalled
  rw [hcounted] at hu
  obtain ⟨hflag, hne⟩ := h u idx hsignalled hu
  rw [hmigration, hthreads]
  refine ⟨hflag, ?_⟩
  by_cases hut : u = t
  · subst hut
    rw [Function.update_self]
    exact hpc
  · rw [Function.update_of_ne hut]
    exact hne

variable [BlockDevice σ β]

theorem threadStep_signalInv {s s' : Machine T σ β} {t : Fin T}
    (h : SignalInv s) (hstep : threadStep t s = some s') : SignalInv s' := by
  cases threadStep_cases hstep with
  | test | fetch | scan | scanEnd | pop | popEnd | read | ssdWrite | clear
  | dec => exact h.move rfl rfl rfl rfl (by simp)
  | count hpc =>
      intro u idx' hsignalled hcounted
      by_cases hut : u = t
      · subst hut
        simp at hcounted
      · simp only [Function.update_of_ne hut] at hcounted
        obtain ⟨hflag, hne⟩ := h u idx' hsignalled hcounted
        refine ⟨hflag, ?_⟩
        simp only [Machine.goto, Machine.setCompleted,
          Function.update_of_ne hut]
        exact hne
  | reset hpc =>
      intro u idx' hsignalled hcounted
      obtain ⟨hflag, hne⟩ := h u idx' hsignalled hcounted
      have hut : u ≠ t := fun hut => hne (hut ▸ hpc)
      simp only [Machine.goto, Function.update_of_ne hut]
      exact ⟨hflag, hne⟩

theorem migrationStep_signalInv {s s' : Machine T σ β}
    {event : MigrationEvent T σ β} (h : SignalInv s)
    (hclear : SignalsClear s event)
    (hstep : migrationStep s event = some s') : SignalInv s' := by
  cases event with
  | call idx =>
      simp only [migrationStep] at hstep
      split at hstep
      · rw [Option.some.injEq] at hstep
        subst hstep
        exact callMigration_signalInv idx s
      · simp at hstep
  | coord => exact coordStep_signalInv h hclear hstep
  | thread t => exact threadStep_signalInv h hstep
  | refill store =>
      simp only [migrationStep] at hstep
      split at hstep
      · rw [Option.some.injEq] at hstep
        subst hstep
        exact h
      · simp at hstep

/-- In every run in which no flag is raised while its thread is between its
count and its reset, no signal is lost, over any series of migrations. -/
theorem noLostSignal_allStates (store : Store σ β) (segmentIdx : Fin 4)
    (migrateBuf : Fin T → β) (events : List (MigrationEvent T σ β))
    (hclear : AllSteps migrationStep SignalsClear
      (Machine.initial T store segmentIdx migrateBuf) events) :
    AllStates migrationStep NoLostSignal
      (Machine.initial T store segmentIdx migrateBuf) events := by
  have hinit : SignalInv
      (Machine.initial T store segmentIdx migrateBuf) :=
    fun _ _ hsignalled => hsignalled.elim
  have hall := allStates_of_allSteps
    (fun _ _ _ hinv hP hstep => migrationStep_signalInv hinv hP hstep)
    hinit hclear
  exact hall.mono fun _ hinv => hinv.noLostSignal

/-! ## A lost signal -/

/-- The machine of eight migrate threads over a fresh store. -/
def freshMachine : Machine 8 (ℕ → ℕ) ℕ :=
  Machine.initial 8 (freshStore 32 (fun _ => false) zeroDevices) 0 fun _ => 0

/-- The steps of a thread over an empty table of 100 buckets, from its flag
test to just before it takes its flag down. -/
def emptyPass (t : Fin 8) : List (MigrationEvent 8 (ℕ → ℕ) ℕ) :=
  List.replicate (2 * (if t < 4 then 13 else 12) + 4) (.thread t)

/-- The call of a migration and the steps up to its wait. -/
def beginSteps : List (MigrationEvent 8 (ℕ → ℕ) ℕ) :=
  .call 0 :: List.replicate 11 .coord

instance (s : Machine T σ β) : DecidablePred (SignalsClear s)
  | .coord => inferInstanceAs (Decidable (∀ _, ∀ _ : Fin T, _ → _))
  | .call _ => inferInstanceAs (Decidable True)
  | .thread _ => inferInstanceAs (Decidable True)
  | .refill _ => inferInstanceAs (Decidable True)

instance : DecidablePred (NoLostSignal : Machine T σ β → Prop) := fun _ =>
  inferInstanceAs (Decidable (∀ _, _ → _ → ∀ _, _ → _ → _))

theorem noLostSignal_allStates_example :
    AllStates migrationStep NoLostSignal freshMachine
      (beginSteps ++ (List.finRange 8).flatMap emptyPass ++
        List.replicate 4 .coord ++
        (List.finRange 8).map (fun t => .thread t) ++ beginSteps) :=
  noLostSignal_allStates _ _ _ _ (by decide +kernel)

/-- All threads have counted when the coordinator starts the next migration
and raises their flags; then thread `0` takes its flag down. -/
theorem noLostSignal_fails :
    ¬ AllStates migrationStep NoLostSignal freshMachine
      (beginSteps ++ (List.finRange 8).flatMap emptyPass ++
        List.replicate 4 .coord ++ beginSteps ++ [.thread 0]) := by
  decide +kernel

end Uhs
