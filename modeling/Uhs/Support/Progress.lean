import Mathlib.Algebra.BigOperators.Group.Finset.Basic
import Mathlib.Data.Fintype.BigOperators
import Mathlib.Data.List.GetD
import Mathlib.Order.WellFounded
import Mathlib.Tactic.Linarith
import Uhs.Support.Runs

/-!
# Progress of a system under a fair schedule

Parties take turns without end; a party that cannot move leaves the state
alone.  Where a rank falls with every busy move and no other move does any
harm, there are busy moves only finitely often, and under a fair schedule the
system then has reached its goal.
-/

namespace Uhs.Support

variable {S E α : Type*} (step : S → E → Option S)

/-- A party takes its turn. -/
def attempt (s : S) (e : E) : S := (step s e).getD s

/-- The states of a run in which the parties take the given turns. -/
def trace (s : S) (turn : ℕ → E) : ℕ → S
  | 0 => s
  | n + 1 => attempt step (trace s turn n) (turn n)

/-- Every party gets a turn again and again. -/
def Fair (parties : Set E) (turn : ℕ → E) : Prop :=
  ∀ e ∈ parties, ∀ n, ∃ m, n ≤ m ∧ turn m = e

/-- The party can move, and its move is not an idle one. -/
def Busy (idle : S → E → Prop) (s : S) (e : E) : Prop :=
  (step s e).isSome ∧ ¬ idle s e

variable {step} {parties : Set E} {turn : ℕ → E} {idle P : S → E → Prop}
  {I goal : S → Prop} {s : S}

theorem attempt_of_some {s' : S} {e : E} (h : step s e = some s') :
    attempt step s e = s' := by
  rw [attempt, h, Option.getD_some]

variable (step) in
theorem attempt_cases (s : S) (e : E) :
    attempt step s e = s ∨ ∃ s', step s e = some s' ∧
      attempt step s e = s' := by
  cases h : step s e with
  | none => exact Or.inl (by rw [attempt, h, Option.getD_none])
  | some s' => exact Or.inr ⟨s', rfl, attempt_of_some h⟩

theorem inv_trace
    (hinv : ∀ s e s', I s → e ∈ parties → P s e → step s e = some s' → I s')
    (hs : I s) (hturn : ∀ n, turn n ∈ parties)
    (hP : ∀ n, P (trace step s turn n) (turn n)) (n : ℕ) :
    I (trace step s turn n) := by
  induction n with
  | zero => exact hs
  | succ n ih =>
      rcases attempt_cases step (trace step s turn n) (turn n) with
        h | ⟨s', hstep, h⟩
      · rw [trace, h]
        exact ih
      · rw [trace, h]
        exact hinv _ _ _ ih (hturn n) (hP n) hstep

/-- Busy moves end, whatever the schedule. -/
theorem exists_not_busy [LT α] [WellFoundedLT α] {rank : S → α}
    (hdown : ∀ s e s', I s → e ∈ parties → Busy step idle s e →
      step s e = some s' → rank s' < rank s)
    (hsame : ∀ s e s', I s → e ∈ parties → ¬ Busy step idle s e →
      step s e = some s' → rank s' = rank s)
    (hI : ∀ n, I (trace step s turn n)) (hturn : ∀ n, turn n ∈ parties) :
    ∃ n, ∀ m, n ≤ m → ¬ Busy step idle (trace step s turn m) (turn m) := by
  have hquiet : ∀ n, ¬ Busy step idle (trace step s turn n) (turn n) →
      rank (trace step s turn (n + 1)) = rank (trace step s turn n) := by
    intro n hbusy
    rcases attempt_cases step (trace step s turn n) (turn n) with
      h | ⟨s', hstep, h⟩
    · rw [trace, h]
    · rw [trace, h]
      exact hsame _ _ _ (hI n) (hturn n) hbusy hstep
  have hfalls : ∀ n, Busy step idle (trace step s turn n) (turn n) →
      rank (trace step s turn (n + 1)) < rank (trace step s turn n) := by
    intro n hbusy
    obtain ⟨s', hstep⟩ := Option.isSome_iff_exists.mp hbusy.1
    rw [trace, attempt_of_some hstep]
    exact hdown _ _ _ (hI n) (hturn n) hbusy hstep
  -- by induction on the rank: either no turn is busy or one lowers the rank
  have key : ∀ r : α, ∀ n, rank (trace step s turn n) = r →
      ∃ n, ∀ m, n ≤ m → ¬ Busy step idle (trace step s turn m) (turn m) := by
    intro r
    induction r using WellFoundedLT.induction with
    | ind r ih =>
        intro n hn
        by_cases hbusy : ∃ m, n ≤ m ∧
            Busy step idle (trace step s turn m) (turn m)
        · classical
          let m := Nat.find hbusy
          obtain ⟨hnm, hm⟩ := Nat.find_spec hbusy
          have hbefore : ∀ d, n + d ≤ m →
              rank (trace step s turn (n + d)) = r := by
            intro d
            induction d with
            | zero => exact fun _ => hn
            | succ d ihd =>
                intro hd
                have hnot := Nat.find_min hbusy (m := n + d)
                  (Nat.lt_of_succ_le hd)
                rw [← Nat.add_assoc, hquiet (n + d)
                  (fun h => hnot ⟨Nat.le_add_right n d, h⟩)]
                exact ihd (Nat.le_of_succ_le hd)
          have hat := hbefore (m - n) (by omega)
          rw [Nat.add_sub_cancel' hnm] at hat
          exact ih _ (hat ▸ hfalls m hm) (m + 1) rfl
        · exact ⟨n, fun m hm h => hbusy ⟨m, hm, h⟩⟩
  exact key _ 0 rfl

/-- Under a fair schedule the system comes to its goal. -/
theorem exists_goal [LT α] [WellFoundedLT α] {rank : S → α}
    (hdown : ∀ s e s', I s → e ∈ parties → Busy step idle s e →
      step s e = some s' → rank s' < rank s)
    (hsame : ∀ s e s', I s → e ∈ parties → ¬ Busy step idle s e →
      step s e = some s' → rank s' = rank s)
    (hkeeps : ∀ s e s' d, I s → ¬ Busy step idle s e →
      step s e = some s' → Busy step idle s d → Busy step idle s' d)
    (hprogress : ∀ s, I s → ¬ goal s →
      ∃ e ∈ parties, Busy step idle s e)
    (hI : ∀ n, I (trace step s turn n)) (hturn : ∀ n, turn n ∈ parties)
    (hfair : Fair parties turn) :
    ∃ n, ∀ m, n ≤ m → goal (trace step s turn m) := by
  obtain ⟨n, hn⟩ := exists_not_busy hdown hsame hI hturn
  refine ⟨n, fun m hm => ?_⟩
  by_contra hgoal
  obtain ⟨e, he, hbusy⟩ := hprogress _ (hI m) hgoal
  -- nobody is busy any more, so the party stays busy until its turn
  have hstays : ∀ d, Busy step idle (trace step s turn (m + d)) e := by
    intro d
    induction d with
    | zero => exact hbusy
    | succ d ih =>
        rcases attempt_cases step (trace step s turn (m + d))
          (turn (m + d)) with h | ⟨s', hstep, h⟩
        · rw [← Nat.add_assoc, trace, h]
          exact ih
        · rw [← Nat.add_assoc, trace, h]
          exact hkeeps _ _ _ _ (hI _) (hn (m + d) (by omega)) hstep ih
  obtain ⟨k, hk, hturnk⟩ := hfair e he m
  refine hn k (by omega) ?_
  rw [hturnk, ← Nat.add_sub_cancel' hk]
  exact hstays (k - m)

/-! ## A fair schedule -/

/-- The turns of a script, and from then on those of all parties, one after
the other. -/
def rounds (script : List E) (first : E) (others : List E) (n : ℕ) : E :=
  script.getD n ((first :: others).getD (n % (others.length + 1)) first)

theorem fair_rounds (script : List E) (first : E) (others : List E) :
    Fair {e | e ∈ first :: others} (rounds script first others) := by
  intro e he n
  obtain ⟨k, hk, hget⟩ := List.getElem_of_mem he
  rw [List.length_cons] at hk
  refine ⟨(script.length + n) * (others.length + 1) + k, by nlinarith, ?_⟩
  have hover : script.length ≤
      (script.length + n) * (others.length + 1) + k := by nlinarith
  rw [rounds, List.getD_eq_default _ _ hover, Nat.add_comm,
    Nat.add_mul_mod_self_right, Nat.mod_eq_of_lt hk,
    List.getD_eq_getElem _ _ (by simpa using hk), hget]

/-! ## Sums over the parties -/

/-- One summand of a sum changes. -/
theorem sum_update {ι κ : Type*} [Fintype ι] [DecidableEq ι] (f : ι → κ)
    (weight : κ → ℕ) (i : ι) (x : κ) :
    ∑ j, weight (Function.update f i x j) + weight (f i) =
      ∑ j, weight (f j) + weight x := by
  have hupdate : (fun j => weight (Function.update f i x j)) =
      Function.update (fun j => weight (f j)) i (weight x) := by
    funext j
    by_cases hj : j = i
    · subst hj
      simp
    · simp [hj]
  rw [hupdate, Finset.sum_update_of_mem (Finset.mem_univ i),
    ← Finset.add_sum_erase _ _ (Finset.mem_univ i), Finset.sdiff_singleton_eq_erase]
  omega

end Uhs.Support
