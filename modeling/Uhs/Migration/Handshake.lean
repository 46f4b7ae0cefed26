import Uhs.Migration.Machine
import Uhs.Support.Counting

/-!
# The handshake of a migration

The invariant of the flags, the counter and the segment index.  A busy thread
works for the running migration, counts once, and the coordinator passes its
wait only when every thread has counted.  This holds over any series of
migrations, whatever signals are lost.
-/

namespace Uhs

open Support

/-- The segment index has been stored for the migration of `idx`. -/
def CoordPc.Published (idx : Fin 4) : CoordPc → Prop
  | .zero idx' => idx' = idx
  | .signal idx' _ => idx' = idx
  | .wait idx' => idx' = idx
  | _ => False

/-- The counter of `idx` counts the threads of the running migration. -/
def CoordPc.Counting (idx : Fin 4) : CoordPc → Prop
  | .signal idx' _ => idx' = idx
  | .wait idx' => idx' = idx
  | _ => False

/-- No thread can have seen a signal of the running migration. -/
def CoordPc.Early : CoordPc → Prop
  | .storeIdx _ => True
  | .zero _ => True
  | _ => False

/-- The coordinator has passed its wait. -/
def CoordPc.Late : CoordPc → Prop
  | .rezero _ => True
  | .clearBitmap _ => True
  | .returned _ => True
  | _ => False

variable {T : ℕ} {σ β : Type*}

/-- Number of threads that have counted in the running migration. -/
def Machine.countedNum (s : Machine T σ β) : ℕ :=
  countWith (fun b => b = true) s.counted

/-- The invariant of the handshake. -/
structure HandshakeInv (s : Machine T σ β) : Prop where
  busy : ∀ t, (s.threads t).Busy → s.migration t = true ∧
    s.counted t = false ∧ ∃ idx, s.coord.Signalled t idx
  segment : ∀ t idx, (s.threads t).segment = some idx →
    s.coord.Signalled t idx
  armed : ∀ t, s.threads t = .test → s.migration t = true →
    s.counted t = false ∧ ∃ idx, s.coord.Signalled t idx
  published : ∀ idx, s.coord.Published idx → s.segmentIdx = idx
  early : s.coord.Early → ∀ t, s.counted t = false
  completed : ∀ idx, s.coord.Counting idx → s.completed idx = s.countedNum
  late : s.coord.Late → ∀ t, s.counted t = true
  credit : ∀ t idx i, s.coord = .signal idx i → s.counted t = true → t.val < i

theorem CoordPc.Signalled.published {coord : CoordPc} {t : Fin T}
    {idx : Fin 4} (h : coord.Signalled t idx) : coord.Published idx := by
  cases coord with
  | signal idx' i => exact h.1
  | wait idx' => exact h
  | idle | storeIdx _ | zero _ | rezero _ | clearBitmap _ | returned _ =>
      exact h.elim

theorem CoordPc.Signalled.counting {coord : CoordPc} {t : Fin T}
    {idx : Fin 4} (h : coord.Signalled t idx) : coord.Counting idx := by
  cases coord with
  | signal idx' i => exact h.1
  | wait idx' => exact h
  | idle | storeIdx _ | zero _ | rezero _ | clearBitmap _ | returned _ =>
      exact h.elim

theorem CoordPc.Signalled.not_early {coord : CoordPc} {t : Fin T}
    {idx : Fin 4} (h : coord.Signalled t idx) : ¬ coord.Early := by
  cases coord with
  | signal idx' i => exact fun hearly => hearly.elim
  | wait idx' => exact fun hearly => hearly.elim
  | idle | storeIdx _ | zero _ | rezero _ | clearBitmap _ | returned _ =>
      exact h.elim

theorem CoordPc.Signalled.not_late {coord : CoordPc} {t : Fin T}
    {idx : Fin 4} (h : coord.Signalled t idx) : ¬ coord.Late := by
  cases coord with
  | signal idx' i => exact fun hlate => hlate.elim
  | wait idx' => exact fun hlate => hlate.elim
  | idle | storeIdx _ | zero _ | rezero _ | clearBitmap _ | returned _ =>
      exact h.elim

theorem CoordPc.Counting.published {coord : CoordPc} {idx : Fin 4}
    (h : coord.Counting idx) : coord.Published idx := by
  cases coord with
  | signal idx' i => exact h
  | wait idx' => exact h
  | idle | storeIdx _ | zero _ | rezero _ | clearBitmap _ | returned _ =>
      exact h.elim

theorem ThreadPc.busy_of_segment {pc : ThreadPc} {idx : Fin 4}
    (h : pc.segment = some idx) : pc.Busy := by
  cases pc with
  | test | fetch | reset => simp [ThreadPc.segment] at h
  | scan _ _ | pop _ _ | read _ _ _ | ssdWrite _ _ _ | clear _ _ _ | dec _ _
  | count _ => trivial

theorem threads_goto_cases (s : Machine T σ β) (t : Fin T) (pc : ThreadPc)
    (u : Fin T) :
    (u = t ∧ (s.goto t pc).threads u = pc) ∨
      (u ≠ t ∧ (s.goto t pc).threads u = s.threads u) := by
  by_cases hut : u = t
  · subst hut
    exact Or.inl ⟨rfl, by simp [Machine.goto]⟩
  · exact Or.inr ⟨hut, by simp [Machine.goto, hut]⟩

variable {s s' : Machine T σ β} {t : Fin T}

/-- A step of a busy thread that stays busy and touches no flag. -/
theorem HandshakeInv.move (h : HandshakeInv s) {pc : ThreadPc}
    (hcoord : s'.coord = s.coord) (hmigration : s'.migration = s.migration)
    (hcounted : s'.counted = s.counted)
    (hcompleted : s'.completed = s.completed)
    (hsegmentIdx : s'.segmentIdx = s.segmentIdx)
    (hthreads : s'.threads = Function.update s.threads t pc)
    (hbusy : (s.threads t).Busy) (hpc : pc.Busy)
    (hsegment : ∀ idx, pc.segment = some idx →
      (s.threads t).segment = some idx ∨ idx = s.segmentIdx) :
    HandshakeInv s' := by
  have hnum : s'.countedNum = s.countedNum := by
    rw [Machine.countedNum, hcounted, Machine.countedNum]
  refine ⟨?_, ?_, ?_, ?_, ?_, ?_, ?_, ?_⟩
  · intro u hu
    rw [hthreads] at hu
    rw [hmigration, hcounted, hcoord]
    by_cases hut : u = t
    · subst hut
      exact h.busy u hbusy
    · rw [Function.update_of_ne hut] at hu
      exact h.busy u hu
  · intro u idx hu
    rw [hthreads] at hu
    rw [hcoord]
    by_cases hut : u = t
    · subst hut
      rw [Function.update_self] at hu
      rcases hsegment idx hu with hold | rfl
      · exact h.segment u idx hold
      · obtain ⟨-, -, idx, hsignalled⟩ := h.busy u hbusy
        rw [h.published idx hsignalled.published]
        exact hsignalled
    · rw [Function.update_of_ne hut] at hu
      exact h.segment u idx hu
  · intro u hu
    rw [hthreads] at hu
    rw [hmigration, hcounted, hcoord]
    by_cases hut : u = t
    · subst hut
      rw [Function.update_self] at hu
      rw [hu] at hpc
      exact hpc.elim
    · rw [Function.update_of_ne hut] at hu
      exact h.armed u hu
  · rw [hcoord, hsegmentIdx]
    exact h.published
  · rw [hcoord, hcounted]
    exact h.early
  · rw [hcoord, hcompleted, hnum]
    exact h.completed
  · rw [hcoord, hcounted]
    exact h.late
  · rw [hcoord, hcounted]
    exact h.credit

/-- A thread sees its flag up. -/
theorem HandshakeInv.enter (h : HandshakeInv s) (hpc : s.threads t = .test)
    (hflag : s.migration t = true) : HandshakeInv (s.goto t .fetch) := by
  obtain ⟨hcounted, hsignalled⟩ := h.armed t hpc hflag
  refine ⟨?_, ?_, ?_, h.published, h.early, h.completed, h.late,
    h.credit⟩
  · intro u hu
    rcases threads_goto_cases s t .fetch u with ⟨rfl, -⟩ | ⟨-, heq⟩
    · exact ⟨hflag, hcounted, hsignalled⟩
    · exact h.busy u (heq ▸ hu)
  · intro u idx hu
    rcases threads_goto_cases s t .fetch u with ⟨rfl, heq⟩ | ⟨-, heq⟩
    · simp [heq, ThreadPc.segment] at hu
    · exact h.segment u idx (heq ▸ hu)
  · intro u hu
    rcases threads_goto_cases s t .fetch u with ⟨rfl, heq⟩ | ⟨-, heq⟩
    · simp [heq] at hu
    · exact h.armed u (heq ▸ hu)

/-- The state after a thread has counted. -/
def countStep (s : Machine T σ β) (t : Fin T) (idx : Fin 4) :
    Machine T σ β :=
  { (s.setCompleted idx (s.completed idx + 1)).goto t .reset with
    counted := Function.update s.counted t true }

/-- The state after a thread has taken its flag down. -/
def resetStep (s : Machine T σ β) (t : Fin T) : Machine T σ β :=
  { s.goto t .test with
    migration := Function.update s.migration t false }

theorem countStep_counted_of_ne {u : Fin T} (hut : u ≠ t) (idx : Fin 4) :
    (countStep s t idx).counted u = s.counted u := by
  simp [countStep, hut]

theorem resetStep_migration_of_ne {u : Fin T} (hut : u ≠ t) :
    (resetStep s t).migration u = s.migration u := by
  simp [resetStep, hut]

/-- With at most 127 threads the 8-bit counter does not wrap around. -/
theorem HandshakeInv.count (h : HandshakeInv s) (hT : T ≤ 127) {idx : Fin 4}
    (hpc : s.threads t = .count idx) : HandshakeInv (countStep s t idx) := by
  have hsignalled : s.coord.Signalled t idx :=
    h.segment t idx (by rw [hpc]; rfl)
  obtain ⟨hflag, hcounted, -⟩ := h.busy t (by rw [hpc]; trivial)
  have hlt : s.countedNum < T := by
    have hlt := countWith_lt_card (p := fun b => b = true) (f := s.counted)
      (i := t) (by simp [hcounted])
    rwa [Fintype.card_fin] at hlt
  have hnum : (countStep s t idx).countedNum = s.countedNum + 1 := by
    have hupdate := countWith_update (p := fun b => b = true) s.counted t true
    simp only [hcounted, Bool.false_eq_true, if_false, if_true,
      Nat.add_zero] at hupdate
    exact hupdate
  refine ⟨?_, ?_, ?_, h.published, ?_, ?_, ?_, ?_⟩
  · intro u hu
    rcases threads_goto_cases s t .reset u with ⟨rfl, heq⟩ | ⟨hut, heq⟩
    · change ((s.goto u .reset).threads u).Busy at hu
      rw [heq] at hu
      exact hu.elim
    · obtain ⟨hup, hnot, hsig⟩ := h.busy u (heq ▸ hu)
      exact ⟨hup, (countStep_counted_of_ne hut idx).trans hnot, hsig⟩
  · intro u idx' hu
    rcases threads_goto_cases s t .reset u with ⟨rfl, heq⟩ | ⟨-, heq⟩
    · change ((s.goto u .reset).threads u).segment = _ at hu
      simp [heq, ThreadPc.segment] at hu
    · exact h.segment u idx' (heq ▸ hu)
  · intro u hu
    rcases threads_goto_cases s t .reset u with ⟨rfl, heq⟩ | ⟨hut, heq⟩
    · change (s.goto u .reset).threads u = _ at hu
      simp [heq] at hu
    · intro hup
      obtain ⟨hnot, hsig⟩ := h.armed u (heq ▸ hu) hup
      exact ⟨(countStep_counted_of_ne hut idx).trans hnot, hsig⟩
  · intro hearly
    exact absurd hearly hsignalled.not_early
  · intro idx' hcounting
    have hidx : idx' = idx :=
      (h.published idx' hcounting.published).symm.trans
        (h.published idx hsignalled.published)
    subst hidx
    rw [hnum]
    simp only [countStep, Machine.goto, Machine.setCompleted,
      Function.update_self, h.completed idx' hsignalled.counting]
    rw [Int.bmod_def]
    omega
  · intro hlate
    exact absurd hlate hsignalled.not_late
  · intro u idx' i hcoord hu
    by_cases hut : u = t
    · subst hut
      rw [show s.coord = .signal idx' i from hcoord] at hsignalled
      exact hsignalled.2
    · exact h.credit u idx' i hcoord
        ((countStep_counted_of_ne hut idx).symm.trans hu)

/-- Taking a flag down concerns no busy thread. -/
theorem HandshakeInv.reset (h : HandshakeInv s) (hpc : s.threads t = .reset) :
    HandshakeInv (resetStep s t) := by
  refine ⟨?_, ?_, ?_, h.published, h.early, h.completed, h.late,
    h.credit⟩
  · intro u hu
    rcases threads_goto_cases s t .test u with ⟨rfl, heq⟩ | ⟨hut, heq⟩
    · change ((s.goto u .test).threads u).Busy at hu
      rw [heq] at hu
      exact hu.elim
    · obtain ⟨hup, hrest⟩ := h.busy u (heq ▸ hu)
      exact ⟨(resetStep_migration_of_ne hut).trans hup, hrest⟩
  · intro u idx hu
    rcases threads_goto_cases s t .test u with ⟨rfl, heq⟩ | ⟨-, heq⟩
    · change ((s.goto u .test).threads u).segment = _ at hu
      simp [heq, ThreadPc.segment] at hu
    · exact h.segment u idx (heq ▸ hu)
  · intro u hu hup
    rcases threads_goto_cases s t .test u with ⟨rfl, -⟩ | ⟨hut, heq⟩
    · simp [resetStep] at hup
    · exact h.armed u (heq ▸ hu)
        ((resetStep_migration_of_ne hut).symm.trans hup)

/-! ## Steps of the coordinator -/

theorem HandshakeInv.call (h : HandshakeInv s) (hidle : s.coord = .idle)
    (idx : Fin 4) : HandshakeInv (callMigration idx s) := by
  refine ⟨?_, ?_, ?_, ?_, fun _ _ => rfl, ?_, ?_, ?_⟩
  · intro t ht
    obtain ⟨-, -, idx', hsignalled⟩ := h.busy t ht
    rw [hidle] at hsignalled
    exact hsignalled.elim
  · intro t idx' ht
    have hsignalled := h.segment t idx' ht
    rw [hidle] at hsignalled
    exact hsignalled.elim
  · intro t ht hup
    obtain ⟨-, idx', hsignalled⟩ := h.armed t ht hup
    rw [hidle] at hsignalled
    exact hsignalled.elim
  · exact fun _ hpublished => hpublished.elim
  · exact fun _ hcounting => hcounting.elim
  · exact fun hlate => hlate.elim
  · exact fun _ _ _ hcoord => by simp [callMigration] at hcoord

/-- A step of the coordinator between states in which no thread is signalled. -/
theorem HandshakeInv.quiet (h : HandshakeInv s) {s' : Machine T σ β}
    (hthreads : s'.threads = s.threads)
    (hmigration : s'.migration = s.migration)
    (hcounted : s'.counted = s.counted)
    (hnone : ∀ (t : Fin T) idx, ¬ s.coord.Signalled t idx)
    (hpublished : ∀ idx, s'.coord.Published idx → s'.segmentIdx = idx)
    (hearly : s'.coord.Early → s.coord.Early)
    (hcompleted : ∀ idx, s'.coord.Counting idx →
      s'.completed idx = s.countedNum)
    (hlate : s'.coord.Late → s.coord.Late)
    (hcredit : ∀ idx i, s'.coord = .signal idx i → s.coord.Early) :
    HandshakeInv s' := by
  refine ⟨?_, ?_, ?_, hpublished, ?_, ?_, ?_, ?_⟩
  · intro t ht
    rw [hthreads] at ht
    obtain ⟨-, -, idx, hsignalled⟩ := h.busy t ht
    exact absurd hsignalled (hnone t idx)
  · intro t idx ht
    rw [hthreads] at ht
    exact absurd (h.segment t idx ht) (hnone t idx)
  · intro t ht hup
    rw [hthreads] at ht
    rw [hmigration] at hup
    obtain ⟨-, idx, hsignalled⟩ := h.armed t ht hup
    exact absurd hsignalled (hnone t idx)
  · intro hs'
    rw [hcounted]
    exact h.early (hearly hs')
  · intro idx hcounting
    rw [Machine.countedNum, hcounted]
    exact hcompleted idx hcounting
  · intro hs'
    rw [hcounted]
    exact h.late (hlate hs')
  · intro t idx i hcoord ht
    rw [hcounted, h.early (hcredit idx i hcoord) t] at ht
    exact Bool.noConfusion ht

/-- Raising the next flag. -/
theorem HandshakeInv.signal (h : HandshakeInv s) {idx : Fin 4}
    (hcoord : s.coord = .signal idx t.val) :
    HandshakeInv { s with
      migration := Function.update s.migration t true
      coord := .signal idx (t.val + 1) } := by
  have hmono : ∀ (u : Fin T) (idx' : Fin 4), s.coord.Signalled u idx' →
      CoordPc.Signalled u idx' (.signal idx (t.val + 1)) := by
    intro u idx' hsignalled
    rw [hcoord] at hsignalled
    exact ⟨hsignalled.1, Nat.lt_succ_of_lt hsignalled.2⟩
  have hup : ∀ u, s.migration u = true →
      Function.update s.migration t true u = true := by
    intro u hu
    by_cases hut : u = t
    · subst hut
      simp
    · simpa [hut] using hu
  have hcounting : s.coord.Counting idx := by
    rw [hcoord]
    rfl
  refine ⟨?_, ?_, ?_, ?_, fun hearly => hearly.elim, ?_,
    fun hlate => hlate.elim, ?_⟩
  · intro u hu
    obtain ⟨hflag, hcounted, idx', hsignalled⟩ := h.busy u hu
    exact ⟨hup u hflag, hcounted, idx', hmono u idx' hsignalled⟩
  · intro u idx' hu
    exact hmono u idx' (h.segment u idx' hu)
  · intro u hu hflag
    by_cases hut : u = t
    · subst hut
      refine ⟨?_, idx, rfl, Nat.lt_succ_self _⟩
      rw [← Bool.not_eq_true]
      intro hcounted
      exact lt_irrefl _ (h.credit u idx u.val hcoord hcounted)
    · simp only [Function.update_of_ne hut] at hflag
      obtain ⟨hcounted, idx', hsignalled⟩ := h.armed u hu hflag
      exact ⟨hcounted, idx', hmono u idx' hsignalled⟩
  · rintro idx' rfl
    exact h.published idx (by rw [hcoord]; rfl)
  · rintro idx' rfl
    exact h.completed idx hcounting
  · intro u idx' i hcoord' hu
    simp only [CoordPc.signal.injEq] at hcoord'
    rw [← hcoord'.2]
    exact Nat.lt_succ_of_lt (h.credit u idx t.val hcoord hu)

/-- All flags are raised. -/
theorem HandshakeInv.signalled (h : HandshakeInv s) {idx : Fin 4} {i : ℕ}
    (hcoord : s.coord = .signal idx i) :
    HandshakeInv { s with coord := .wait idx } := by
  have hmono : ∀ (u : Fin T) (idx' : Fin 4), s.coord.Signalled u idx' →
      CoordPc.Signalled u idx' (.wait idx) := by
    intro u idx' hsignalled
    rw [hcoord] at hsignalled
    exact hsignalled.1
  refine ⟨?_, ?_, ?_, ?_, fun hearly => hearly.elim, ?_,
    fun hlate => hlate.elim, ?_⟩
  · intro u hu
    obtain ⟨hflag, hcounted, idx', hsignalled⟩ := h.busy u hu
    exact ⟨hflag, hcounted, idx', hmono u idx' hsignalled⟩
  · intro u idx' hu
    exact hmono u idx' (h.segment u idx' hu)
  · intro u hu hflag
    obtain ⟨hcounted, idx', hsignalled⟩ := h.armed u hu hflag
    exact ⟨hcounted, idx', hmono u idx' hsignalled⟩
  · rintro idx' rfl
    exact h.published idx (by rw [hcoord]; rfl)
  · rintro idx' rfl
    exact h.completed idx (by rw [hcoord]; rfl)
  · intro u idx' j hcoord'
    simp at hcoord'

/-- The coordinator leaves its wait once every thread has counted. -/
theorem HandshakeInv.pass (h : HandshakeInv s) {idx : Fin 4}
    (hcoord : s.coord = .wait idx) (hpass : ¬ s.completed idx < T) :
    HandshakeInv { s with coord := .rezero idx } := by
  have hall : ∀ t, s.counted t = true := by
    rw [h.completed idx (by rw [hcoord]; rfl)] at hpass
    intro t
    refine forall_of_card_le_countWith (p := fun b => b = true) ?_ t
    rw [Fintype.card_fin]
    have hnum : T ≤ s.countedNum := by omega
    exact hnum
  refine ⟨?_, ?_, ?_, fun _ hpublished => hpublished.elim,
    fun hearly => hearly.elim, fun _ hcounting => hcounting.elim,
    fun _ => hall, ?_⟩
  · intro t ht
    have hcounted := (h.busy t ht).2.1
    exact absurd (hall t) (by simp [hcounted])
  · intro t idx' ht
    have hcounted := (h.busy t (ThreadPc.busy_of_segment ht)).2.1
    exact absurd (hall t) (by simp [hcounted])
  · intro t ht hup
    have hcounted := (h.armed t ht hup).1
    exact absurd (hall t) (by simp [hcounted])
  · intro t idx' i hcoord'
    simp at hcoord'

theorem coordStep_handshakeInv (h : HandshakeInv s)
    (hstep : coordStep s = some s') : HandshakeInv s' := by
  unfold coordStep at hstep
  cases hcoord : s.coord with
  | idle => simp [hcoord] at hstep
  | storeIdx idx =>
      simp only [hcoord, Option.some.injEq] at hstep
      subst hstep
      have hearly : s.coord.Early := by
        rw [hcoord]
        trivial
      refine h.quiet rfl rfl rfl (by simp [hcoord, CoordPc.Signalled]) ?_
        (fun _ => hearly) (fun _ hcounting => hcounting.elim)
        (fun hlate => hlate.elim) (by simp)
      exact fun idx' hpublished => hpublished
  | zero idx =>
      simp only [hcoord, Option.some.injEq] at hstep
      subst hstep
      have hearly : s.coord.Early := by
        rw [hcoord]
        trivial
      refine h.quiet rfl rfl rfl (by simp [hcoord, CoordPc.Signalled]) ?_
        (fun hs' => hs'.elim) ?_ (fun hlate => hlate.elim)
        (fun _ _ _ => hearly)
      · rintro idx' rfl
        exact h.published idx (by rw [hcoord]; rfl)
      · rintro idx' rfl
        have hzero : s.countedNum = 0 :=
          countWith_eq_zero_iff.mpr fun t => by simp [h.early hearly t]
        simp [Machine.setCompleted, hzero]
  | signal idx i =>
      simp only [hcoord] at hstep
      split at hstep
      · rename_i hi
        rw [Option.some.injEq] at hstep
        subst hstep
        exact h.signal (t := ⟨i, hi⟩) hcoord
      · rw [Option.some.injEq] at hstep
        subst hstep
        exact h.signalled hcoord
  | wait idx =>
      simp only [hcoord] at hstep
      split at hstep
      · simp at hstep
      · rename_i hpass
        rw [Option.some.injEq] at hstep
        subst hstep
        exact h.pass hcoord hpass
  | rezero idx | clearBitmap idx =>
      simp only [hcoord, Option.some.injEq] at hstep
      subst hstep
      have hlate : s.coord.Late := by
        rw [hcoord]
        trivial
      exact h.quiet rfl rfl rfl (by simp [hcoord, CoordPc.Signalled])
        (fun _ hpublished => hpublished.elim) (fun hearly => hearly.elim)
        (fun _ hcounting => hcounting.elim) (fun _ => hlate) (by simp)
  | returned idx =>
      simp only [hcoord, Option.some.injEq] at hstep
      subst hstep
      exact h.quiet rfl rfl rfl (by simp [hcoord, CoordPc.Signalled])
        (fun _ hpublished => hpublished.elim) (fun hearly => hearly.elim)
        (fun _ hcounting => hcounting.elim) (fun hlate => hlate.elim)
        (by simp)

variable [BlockDevice σ β]

theorem threadStep_handshakeInv (h : HandshakeInv s) (hT : T ≤ 127)
    (hstep : threadStep t s = some s') : HandshakeInv s' := by
  cases threadStep_cases hstep with
  | test hpc hflag => exact h.enter hpc hflag
  | fetch hpc =>
      refine h.move rfl rfl rfl rfl rfl rfl (by rw [hpc]; trivial) trivial ?_
      rintro idx ⟨rfl⟩
      exact Or.inr rfl
  | scan hpc | scanEnd hpc | pop hpc | popEnd hpc | read hpc | ssdWrite hpc
  | clear hpc | dec hpc =>
      exact h.move rfl rfl rfl rfl rfl rfl (by rw [hpc]; trivial) trivial
        (fun _ hseg => Or.inl (hpc ▸ hseg))
  | count hpc => exact h.count hT hpc
  | reset hpc => exact h.reset hpc

omit [BlockDevice σ β] in
/-- Any change of the store is invisible to the handshake. -/
theorem HandshakeInv.setStore (h : HandshakeInv s) (store : Store σ β) :
    HandshakeInv { s with store := store } :=
  ⟨h.busy, h.segment, h.armed, h.published, h.early, h.completed, h.late,
    h.credit⟩

theorem migrationStep_handshakeInv {event : MigrationEvent T σ β}
    (h : HandshakeInv s) (hT : T ≤ 127)
    (hstep : migrationStep s event = some s') : HandshakeInv s' := by
  cases event with
  | call idx =>
      simp only [migrationStep] at hstep
      split at hstep
      · rename_i hidle
        rw [Option.some.injEq] at hstep
        subst hstep
        exact h.call hidle idx
      · simp at hstep
  | coord => exact coordStep_handshakeInv h hstep
  | thread t => exact threadStep_handshakeInv h hT hstep
  | refill store =>
      simp only [migrationStep] at hstep
      split at hstep
      · rw [Option.some.injEq] at hstep
        subst hstep
        exact h.setStore store
      · simp at hstep

omit [BlockDevice σ β] in
theorem initial_handshakeInv (store : Store σ β) (segmentIdx : Fin 4)
    (migrateBuf : Fin T → β) :
    HandshakeInv (Machine.initial T store segmentIdx migrateBuf) where
  busy := fun _ h => h.elim
  segment := by simp [Machine.initial, ThreadPc.segment]
  armed := by simp [Machine.initial]
  published := fun _ h => h.elim
  early := fun h => h.elim
  completed := fun _ h => h.elim
  late := fun h => h.elim
  credit := by simp [Machine.initial]

end Uhs
