import Mathlib.Data.List.Infix
import Mathlib.Logic.Function.Basic

/-!
# Two queues served in turn

A server looks into two queues in turn and takes the first entry of the one it
looks into, while entries are appended to both.  An entry with `k` entries
before it is taken, after those, within `2 * k + 2` polls.
-/

namespace Uhs.Support

/-- The queues and whose turn it is, with the history of the server: how often
it has looked into each queue, and what it has taken. -/
structure Turns (α : Type*) where
  turn : Bool
  queue : Bool → List α
  polls : Bool → ℕ
  taken : Bool → List α

namespace Turns

variable {α : Type*}

def start (turn : Bool) (queue : Bool → List α) : Turns α :=
  ⟨turn, queue, fun _ => 0, fun _ => []⟩

/-- Look into the queue whose turn it is. -/
def poll (q : Turns α) : Turns α where
  turn := !q.turn
  queue := Function.update q.queue q.turn (q.queue q.turn).tail
  polls := Function.update q.polls q.turn (q.polls q.turn + 1)
  taken := Function.update q.taken q.turn
    (q.taken q.turn ++ (q.queue q.turn).head?.toList)

/-- Entries are appended. -/
structure Posts (q q' : Turns α) : Prop where
  turn : q'.turn = q.turn
  queue : ∀ lane, q.queue lane <+: q'.queue lane
  polls : q'.polls = q.polls
  taken : q'.taken = q.taken

/-- The entries that were in the queues are taken in order, each within a
number of polls that depends only on how many are before it. -/
structure Serves (queue : Bool → List α) (q : Turns α) : Prop where
  ordered : ∀ lane, queue lane <+: q.taken lane ++ q.queue lane
  taken : ∀ lane k a, (queue lane)[k]? = some a →
    2 * k + 2 ≤ q.polls true + q.polls false → (q.taken lane)[k]? = some a

/-- The server has looked into both queues equally often, or once more into
the one that is not next. -/
structure Inv (queue : Bool → List α) (q : Turns α) : Prop where
  ordered : ∀ lane, queue lane <+: q.taken lane ++ q.queue lane
  least : ∀ lane, min (queue lane).length (q.polls lane) ≤
    (q.taken lane).length
  behind : q.polls q.turn ≤ q.polls !q.turn
  close : (q.polls !q.turn) ≤ q.polls q.turn + 1

variable {queue : Bool → List α} {q q' : Turns α}

theorem start_inv (turn : Bool) (queue : Bool → List α) :
    (start turn queue).Inv queue where
  ordered _ := List.prefix_rfl
  least _ := by simp [start]
  behind := le_rfl
  close := Nat.zero_le _

theorem Inv.posts (h : q.Inv queue) (hposts : q.Posts q') : q'.Inv queue where
  ordered := by
    intro lane
    rw [hposts.taken]
    exact (h.ordered lane).trans
      ((List.prefix_append_right_inj _).mpr (hposts.queue lane))
  least := by
    rw [hposts.taken, hposts.polls]
    exact h.least
  behind := by
    rw [hposts.turn, hposts.polls]
    exact h.behind
  close := by
    rw [hposts.turn, hposts.polls]
    exact h.close

theorem head?_toList_append_tail (l : List α) :
    l.head?.toList ++ l.tail = l := by
  cases l <;> rfl

theorem Inv.poll (h : q.Inv queue) : q.poll.Inv queue where
  ordered := by
    intro lane
    simp only [Turns.poll]
    by_cases hlane : lane = q.turn
    · subst hlane
      rw [Function.update_self, Function.update_self, List.append_assoc,
        head?_toList_append_tail]
      exact h.ordered q.turn
    · rw [Function.update_of_ne hlane, Function.update_of_ne hlane]
      exact h.ordered lane
  least := by
    intro lane
    have hleast := h.least lane
    simp only [Turns.poll]
    by_cases hlane : lane = q.turn
    · subst hlane
      rw [Function.update_self, Function.update_self]
      cases hqueue : q.queue q.turn with
      | nil =>
          -- all entries that were there have been taken
          have hordered := (h.ordered q.turn).length_le
          rw [hqueue, List.append_nil] at hordered
          simp only [List.head?_nil, Option.toList_none, List.append_nil]
          omega
      | cons a rest =>
          simp only [List.head?_cons, Option.toList_some, List.length_append,
            List.length_singleton]
          omega
    · rw [Function.update_of_ne hlane, Function.update_of_ne hlane]
      exact hleast
  behind := by
    have hne : (!q.turn) ≠ q.turn := by simp
    simp only [Turns.poll, Bool.not_not, Function.update_self,
      Function.update_of_ne hne]
    exact h.close
  close := by
    have hne : (!q.turn) ≠ q.turn := by simp
    simp only [Turns.poll, Bool.not_not, Function.update_self,
      Function.update_of_ne hne]
    exact Nat.succ_le_succ h.behind

theorem Inv.serves (h : q.Inv queue) : q.Serves queue where
  ordered := h.ordered
  taken := by
    intro lane k a ha hpolls
    have hk : k < (queue lane).length := (List.getElem?_eq_some_iff.mp ha).1
    have hleast := h.least lane
    have hlane : k < q.polls lane := by
      have hbehind := h.behind
      have hclose := h.close
      cases hturn : q.turn <;> rw [hturn] at hbehind hclose <;>
        simp only [Bool.not_true, Bool.not_false] at hbehind hclose <;>
        cases lane <;> omega
    have htaken : k < (q.taken lane).length := by omega
    obtain ⟨rest, hrest⟩ := h.ordered lane
    have hsome : (q.taken lane ++ q.queue lane)[k]? = some a := by
      rw [← hrest, List.getElem?_append_left hk, ha]
    rwa [List.getElem?_append_left htaken] at hsome

end Turns

end Uhs.Support
