import Mathlib.Data.List.Perm.Subperm
import Mathlib.Data.List.Nodup

/-!
# Tasks that somebody waits for

An owner waits for one task at a time, and the tasks not yet completed stand
in queues.  Every task in a queue is the one its owner waits for, so a task
stands in one queue and once.
-/

namespace Uhs.Support

variable {ι κ α : Type*}

/-- Every task in a queue is awaited and stands where it is routed to. -/
structure Tickets (owner : α → κ) (route : α → ι) (waits : κ → Option α)
    (queue : ι → List α) : Prop where
  waits : ∀ i, ∀ t ∈ queue i, waits (owner t) = some t
  route : ∀ i, ∀ t ∈ queue i, route t = i
  nodup : ∀ i, (queue i).Nodup

namespace Tickets

variable {owner : α → κ} {route : α → ι} {waits waits' : κ → Option α}
  {queue queue' : ι → List α} {i : ι} {t : α} {rest : List α}

/-- An owner has one task, in one queue. -/
theorem owner_inj (h : Tickets owner route waits queue) {j : ι} {u : α}
    (ht : t ∈ queue i) (hu : u ∈ queue j) (howner : owner t = owner u) :
    t = u ∧ i = j := by
  have hwaits := h.waits i t ht
  rw [howner, h.waits j u hu, Option.some.injEq] at hwaits
  subst hwaits
  exact ⟨rfl, (h.route i u ht).symm.trans (h.route j u hu)⟩

/-- Tasks may be dropped or reordered. -/
theorem drop (h : Tickets owner route waits queue)
    (hqueue : ∀ j, (queue' j).Subperm (queue j)) :
    Tickets owner route waits queue' where
  waits := fun j u hu => h.waits j u ((hqueue j).subset hu)
  route := fun j u hu => h.route j u ((hqueue j).subset hu)
  nodup := by
    intro j
    obtain ⟨l, hperm, hsub⟩ := hqueue j
    exact hperm.nodup_iff.mp ((h.nodup j).sublist hsub)

/-- An owner without a task posts one. -/
theorem post (h : Tickets owner route waits queue)
    (hnone : waits (owner t) = none) (hsome : waits' (owner t) = some t)
    (hne : ∀ c, c ≠ owner t → waits' c = waits c)
    (hqueue : (queue' (route t)).Subperm (t :: queue (route t)))
    (hqueue_ne : ∀ j, j ≠ route t → (queue' j).Subperm (queue j)) :
    Tickets owner route waits' queue' := by
  -- nobody else is affected by the new task of its owner
  have hold : ∀ j, ∀ u ∈ queue j, waits' (owner u) = some u := by
    intro j u hu
    have hwaits := h.waits j u hu
    rw [hne _ fun howner => ?_, hwaits]
    rw [howner, hnone] at hwaits
    cases hwaits
  have hmem : ∀ j, ∀ u ∈ queue' j, u = t ∧ j = route t ∨ u ∈ queue j := by
    intro j u hu
    by_cases hj : j = route t
    · subst hj
      rcases List.mem_cons.mp (hqueue.subset hu) with rfl | hu
      · exact Or.inl ⟨rfl, rfl⟩
      · exact Or.inr hu
    · exact Or.inr ((hqueue_ne j hj).subset hu)
  refine ⟨fun j u hu => ?_, fun j u hu => ?_, fun j => ?_⟩
  · rcases hmem j u hu with ⟨rfl, -⟩ | hu
    · exact hsome
    · exact hold j u hu
  · rcases hmem j u hu with ⟨rfl, rfl⟩ | hu
    · rfl
    · exact h.route j u hu
  · by_cases hj : j = route t
    · subst hj
      have hfresh : t ∉ queue (route t) := by
        intro ht
        have hwaits := h.waits _ t ht
        rw [hnone] at hwaits
        cases hwaits
      obtain ⟨l, hperm, hsub⟩ := hqueue
      exact hperm.nodup_iff.mp
        ((List.nodup_cons.mpr ⟨hfresh, h.nodup _⟩).sublist hsub)
    · obtain ⟨l, hperm, hsub⟩ := hqueue_ne j hj
      exact hperm.nodup_iff.mp ((h.nodup j).sublist hsub)

/-- A task is completed and its owner does not wait any more. -/
theorem complete (h : Tickets owner route waits queue)
    (hne : ∀ c, c ≠ owner t → waits' c = waits c)
    (hqueue : (queue i).Perm (t :: queue' i))
    (hqueue_ne : ∀ j, j ≠ i → (queue' j).Subperm (queue j)) :
    Tickets owner route waits' queue' := by
  have ht : t ∈ queue i := hqueue.mem_iff.mpr List.mem_cons_self
  have hnodup := hqueue.nodup_iff.mp (h.nodup i)
  rw [List.nodup_cons] at hnodup
  have hmem : ∀ j, ∀ u ∈ queue' j, u ∈ queue j ∧ owner u ≠ owner t := by
    intro j u hu
    by_cases hj : j = i
    · subst hj
      have hu' := hqueue.mem_iff.mpr (List.mem_cons_of_mem t hu)
      refine ⟨hu', fun howner => hnodup.1 ?_⟩
      rw [← (h.owner_inj hu' ht howner).1]
      exact hu
    · have hu' := (hqueue_ne j hj).subset hu
      exact ⟨hu', fun howner => hj (h.owner_inj hu' ht howner).2⟩
  refine ⟨fun j u hu => ?_, fun j u hu => h.route j u (hmem j u hu).1,
    fun j => ?_⟩
  · rw [hne _ (hmem j u hu).2]
    exact h.waits j u (hmem j u hu).1
  · by_cases hj : j = i
    · subst hj
      exact hnodup.2
    · obtain ⟨l, hperm, hsub⟩ := hqueue_ne j hj
      exact hperm.nodup_iff.mp ((h.nodup j).sublist hsub)

end Tickets

end Uhs.Support
