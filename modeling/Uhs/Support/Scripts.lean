import Mathlib.Data.List.Basic

/-!
# Logs that follow scripts

Every request has a script, the events of its life in order, of which the
first and no other names the request.  A log that follows the scripts is made
of complete scripts, one after the other, and the beginning of one more.
-/

namespace Uhs.Support

variable {ρ ε : Type*}

/-- Every script begins with the event that names its request. -/
def IsScript (request : ε → Option ρ) (script : ρ → List ε) : Prop :=
  ∀ r, ∃ e rest, script r = e :: rest ∧ request e = some r ∧
    ∀ x ∈ rest, request x = none

section Logs

variable (request : ε → Option ρ) (script : ρ → List ε)

/-- The scripts of the requests that the log names. -/
def scripted (log : List ε) : List ε :=
  (log.filterMap request).flatMap script

/-- The log is made of complete scripts. -/
def IsComplete (log : List ε) : Prop :=
  log = scripted request script log

/-- The log ends in the script of `r`, of which `left` is still to come. -/
structure IsOpen (log : List ε) (r : ρ) (left : List ε) : Prop where
  split : ∃ done part, log = done ++ part ∧
    IsComplete request script done ∧ part ≠ [] ∧ script r = part ++ left

end Logs

variable {request : ε → Option ρ} {script : ρ → List ε} {log : List ε} {r : ρ}
  {e : ε} {left : List ε}

theorem scripted_append (log log' : List ε) :
    scripted request script (log ++ log') =
      scripted request script log ++ scripted request script log' := by
  rw [scripted, List.filterMap_append, List.flatMap_append]
  rfl

theorem isComplete_nil : IsComplete request script [] := rfl

/-- The request whose script has begun is the one that the part names. -/
theorem IsScript.scripted_part (hscript : IsScript request script)
    {part : List ε} (hpart : part ≠ []) (hsplit : script r = part ++ left) :
    scripted request script part = script r := by
  obtain ⟨e, rest, heq, hopens, hrest⟩ := hscript r
  cases part with
  | nil => exact absurd rfl hpart
  | cons x part =>
      rw [heq, List.cons_append, List.cons.injEq] at hsplit
      obtain ⟨rfl, rfl⟩ := hsplit
      have hnone : part.filterMap request = [] := by
        rw [List.filterMap_eq_nil_iff]
        exact fun y hy => hrest y (List.mem_append_left left hy)
      rw [scripted, List.filterMap_cons_some hopens, hnone,
        List.flatMap_cons, List.flatMap_nil, List.append_nil]

/-- The first event of a script. -/
theorem IsComplete.opens (h : IsComplete request script log)
    (hsplit : script r = e :: left) :
    IsOpen request script (log ++ [e]) r left :=
  ⟨log, [e], rfl, h, List.cons_ne_nil e [], hsplit⟩

/-- The next event of the script. -/
theorem IsOpen.next (h : IsOpen request script log r (e :: left)) :
    IsOpen request script (log ++ [e]) r left := by
  obtain ⟨done, part, hlog, hdone, -, hsplit⟩ := h.split
  refine ⟨done, part ++ [e], ?_, hdone, by simp, ?_⟩
  · rw [hlog, List.append_assoc]
  · rw [hsplit, List.append_assoc]
    rfl

theorem IsOpen.scripted_eq (hscript : IsScript request script)
    (h : IsOpen request script log r left) :
    scripted request script log = log ++ left := by
  obtain ⟨done, part, hlog, hdone, hpart, hsplit⟩ := h.split
  rw [hlog, scripted_append, ← hdone, hscript.scripted_part hpart hsplit,
    hsplit, List.append_assoc]

/-- The script has come to its end. -/
theorem IsOpen.isComplete (hscript : IsScript request script)
    (h : IsOpen request script log r []) : IsComplete request script log := by
  rw [IsComplete, h.scripted_eq hscript, List.append_nil]

theorem IsOpen.isPrefix (hscript : IsScript request script)
    (h : IsOpen request script log r left) :
    log <+: scripted request script log := by
  rw [h.scripted_eq hscript]
  exact List.prefix_append log left

theorem IsComplete.isPrefix (h : IsComplete request script log) :
    log <+: scripted request script log :=
  ⟨[], (List.append_nil log).trans h⟩

end Uhs.Support
