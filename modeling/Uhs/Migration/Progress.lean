import Mathlib.Algebra.Order.BigOperators.Group.Finset
import Uhs.Migration.Draining
import Uhs.Support.Progress

/-!
# What is left of a migration

The work that the coordinator and the migrate threads have before them: a
flag that is still to be raised may send its thread once over the buckets, and
a pair that is still in a table may be copied once.  Every step of a migration
does some of this work.
-/

namespace Uhs

open Support

variable {T : ℕ} {σ β : Type*} {s s' : Machine T σ β} {t : Fin T}
  {idx : Fin 4}

/-! ## The work before a thread and the coordinator -/

/-- The steps of a thread up to its next flag test, over at most `n` buckets
and without the pairs that it has yet to take. -/
def ThreadPc.work (n : ℕ) (flag : Bool) : ThreadPc → ℕ
  | .test => if flag then 2 * n + 6 else 0
  | .fetch => 2 * n + 5
  | .scan _ i => 2 * (n - i) + 4
  | .pop _ i => 2 * (n - i - 1) + 5
  | .read _ i _ => 2 * (n - i - 1) + 9
  | .ssdWrite _ i _ => 2 * (n - i - 1) + 8
  | .clear _ i _ => 2 * (n - i - 1) + 7
  | .dec _ i => 2 * (n - i - 1) + 6
  | .count _ => 2
  | .reset => 1

/-- The steps of the coordinator, with those of the threads it will signal. -/
def CoordPc.work (T n : ℕ) : CoordPc → ℕ
  | .idle => 0
  | .storeIdx _ => T * (2 * n + 7) + 7
  | .zero _ => T * (2 * n + 7) + 6
  | .signal _ i => (T - i) * (2 * n + 7) + 5
  | .wait _ => 4
  | .rezero _ => 3
  | .clearBitmap _ => 2
  | .returned _ => 1

namespace Machine

/-- The buckets of the four tables. -/
def buckets (s : Machine T σ β) : ℕ :=
  ∑ idx, (s.store.metaData.hash idx).hashSize

/-- The pairs in the four tables. -/
def stored (s : Machine T σ β) : ℕ :=
  ∑ idx, (s.store.metaData.hash idx).entries.length

/-- The work before the threads. -/
def threadsWork (s : Machine T σ β) (n : ℕ) : ℕ :=
  ∑ t, (s.threads t).work n (s.migration t)

def work (s : Machine T σ β) : ℕ :=
  s.coord.work T s.buckets + s.threadsWork s.buckets + 5 * s.stored

theorem hashSize_le_buckets (s : Machine T σ β) (idx : Fin 4) :
    (s.store.metaData.hash idx).hashSize ≤ s.buckets :=
  Finset.single_le_sum
    (f := fun idx => (s.store.metaData.hash idx).hashSize)
    (fun _ _ => Nat.zero_le _) (Finset.mem_univ idx)

/-- A thread moves, and its flag may change. -/
theorem threadsWork_update (s : Machine T σ β) {s' : Machine T σ β} (n : ℕ)
    (t : Fin T) {pc : ThreadPc} {flag : Bool}
    (hthreads : s'.threads = Function.update s.threads t pc)
    (hmigration : s'.migration = Function.update s.migration t flag) :
    s'.threadsWork n + (s.threads t).work n (s.migration t) =
      s.threadsWork n + pc.work n flag := by
  have hpair : (fun u => (s'.threads u, s'.migration u)) =
      Function.update (fun u => (s.threads u, s.migration u)) t
        (pc, flag) := by
    funext u
    rw [hthreads, hmigration]
    by_cases hut : u = t
    · subst hut
      simp
    · simp [hut]
  have hsum := sum_update (fun u => (s.threads u, s.migration u))
    (fun p => p.1.work n p.2) t (pc, flag)
  rw [← hpair] at hsum
  exact hsum

theorem threadsWork_goto (s : Machine T σ β) {s' : Machine T σ β} (n : ℕ)
    (t : Fin T) {pc : ThreadPc}
    (hthreads : s'.threads = Function.update s.threads t pc)
    (hmigration : s'.migration = s.migration) :
    s'.threadsWork n + (s.threads t).work n (s.migration t) =
      s.threadsWork n + pc.work n (s.migration t) :=
  s.threadsWork_update n t hthreads (by
    rw [hmigration, Function.update_eq_self])

end Machine

/-! ## Steps of the coordinator -/

/-- A step of the coordinator that leaves the tables and the threads alone. -/
theorem Machine.work_coord (hhash : s'.store.metaData.hash =
      s.store.metaData.hash)
    (hthreads : s'.threads = s.threads) (hmigration : s'.migration = s.migration)
    (hcoord : s'.coord.work T s.buckets < s.coord.work T s.buckets) :
    s'.work < s.work := by
  have hbuckets : s'.buckets = s.buckets := by
    rw [Machine.buckets, hhash, Machine.buckets]
  have hstored : s'.stored = s.stored := by
    rw [Machine.stored, hhash, Machine.stored]
  have hwork : s'.threadsWork s.buckets = s.threadsWork s.buckets := by
    rw [Machine.threadsWork, hthreads, hmigration, Machine.threadsWork]
  rw [Machine.work, Machine.work, hbuckets, hstored, hwork]
  omega

theorem coordStep_work (hstep : coordStep s = some s') : s'.work < s.work := by
  unfold coordStep at hstep
  cases hcoord : s.coord with
  | idle => simp [hcoord] at hstep
  | signal idx i =>
      simp only [hcoord] at hstep
      split at hstep
      · rename_i hi
        rw [Option.some.injEq] at hstep
        subst hstep
        set s' : Machine T σ β := { s with
          migration := Function.update s.migration ⟨i, hi⟩ true
          coord := .signal idx (i + 1) } with hs'
        have hsum : s'.threadsWork s.buckets +
              (s.threads ⟨i, hi⟩).work s.buckets (s.migration ⟨i, hi⟩) =
            s.threadsWork s.buckets +
              (s.threads ⟨i, hi⟩).work s.buckets true :=
          s.threadsWork_update s.buckets ⟨i, hi⟩
            (Function.update_eq_self _ _).symm rfl
        have hraise : (s.threads ⟨i, hi⟩).work s.buckets true ≤
            (s.threads ⟨i, hi⟩).work s.buckets (s.migration ⟨i, hi⟩) +
              (2 * s.buckets + 6) := by
          cases s.threads ⟨i, hi⟩ <;> simp [ThreadPc.work]
        have hleft : (T - i) * (2 * s.buckets + 7) =
            (T - (i + 1)) * (2 * s.buckets + 7) + (2 * s.buckets + 7) := by
          rw [← Nat.succ_mul]
          congr 1
          omega
        have hwork : s'.work = (T - (i + 1)) * (2 * s.buckets + 7) + 5 +
            s'.threadsWork s.buckets + 5 * s.stored := rfl
        rw [hwork, Machine.work, hcoord, CoordPc.work, hleft]
        omega
      · rw [Option.some.injEq] at hstep
        subst hstep
        refine Machine.work_coord rfl rfl rfl ?_
        rw [hcoord]
        simp only [CoordPc.work]
        omega
  | wait idx =>
      simp only [hcoord] at hstep
      split at hstep
      · cases hstep
      · rw [Option.some.injEq] at hstep
        subst hstep
        exact Machine.work_coord rfl rfl rfl (by
          rw [hcoord]
          simp [CoordPc.work])
  | storeIdx idx | zero idx | rezero idx | clearBitmap idx | returned idx =>
      simp only [hcoord, Option.some.injEq] at hstep
      subst hstep
      refine Machine.work_coord rfl rfl rfl ?_
      rw [hcoord]
      simp [CoordPc.work]

/-! ## Steps of a thread -/

/-- What a pop of a bucket of the table leaves. -/
theorem mixHashGetEntryByIdx_length {hash hash' : MixHash} {i : ℕ}
    (hi : i < hash.hashSize) {kv : MixKv}
    (hpop : mixHashGetEntryByIdx hash i = (kv, hash')) :
    hash'.hashSize = hash.hashSize ∧
      (hash'.entries.length + 1 = hash.entries.length ∨
        IsSentinel kv ∧ hash' = hash) := by
  unfold mixHashGetEntryByIdx at hpop
  simp only at hpop
  split at hpop
  · split at hpop
    · cases hpop
      exact ⟨rfl, Or.inr ⟨Or.inl rfl, rfl⟩⟩
    · rename_i kv' tail hlist
      cases hpop
      refine ⟨rfl, Or.inl ?_⟩
      have hperm := (MixHash.popped_entries hi hlist).length_eq
      rw [List.length_cons] at hperm
      exact hperm.symm
  · cases hpop
    exact ⟨rfl, Or.inr ⟨Or.inl rfl, rfl⟩⟩

/-- A table is replaced by one with as many buckets. -/
theorem Machine.setHash_counts (s : Machine T σ β) {s' : Machine T σ β}
    {hash : MixHash} (hmeta : s'.store.metaData.hash =
      Function.update s.store.metaData.hash idx hash)
    (hsize : hash.hashSize = (s.store.metaData.hash idx).hashSize) :
    s'.buckets = s.buckets ∧
      s'.stored + (s.store.metaData.hash idx).entries.length =
        s.stored + hash.entries.length := by
  have hbuckets := sum_update s.store.metaData.hash MixHash.hashSize idx hash
  have hstored := sum_update s.store.metaData.hash
    (fun hash => hash.entries.length) idx hash
  rw [← hmeta] at hbuckets hstored
  refine ⟨?_, hstored⟩
  rw [Machine.buckets, Machine.buckets]
  omega

variable [BlockDevice σ β]

/-- Every step of a thread does some of the work. -/
theorem threadStep_work
    (hinside : ∀ idx i, s.threads t = .pop idx i →
      i < (s.store.metaData.hash idx).hashSize)
    (hstep : threadStep t s = some s') : s'.work < s.work := by
  have hT : 0 < T := Nat.zero_lt_of_lt t.isLt
  -- a step that leaves the tables alone
  have hquiet : ∀ {s' : Machine T σ β} {pc : ThreadPc} {flag : Bool},
      s'.store.metaData.hash = s.store.metaData.hash → s'.coord = s.coord →
      s'.threads = Function.update s.threads t pc →
      s'.migration = Function.update s.migration t flag →
      pc.work s.buckets flag <
        (s.threads t).work s.buckets (s.migration t) → s'.work < s.work := by
    intro s' pc flag hhash hcoord hthreads hmigration hless
    have hbuckets : s'.buckets = s.buckets := by
      rw [Machine.buckets, hhash, Machine.buckets]
    have hstored : s'.stored = s.stored := by
      rw [Machine.stored, hhash, Machine.stored]
    have hsum := s.threadsWork_update s.buckets t hthreads hmigration
    rw [Machine.work, Machine.work, hbuckets, hstored, hcoord]
    omega
  have hsame : s.migration = Function.update s.migration t (s.migration t) :=
    (Function.update_eq_self _ _).symm
  -- a pop
  have hpopped : ∀ {s' : Machine T σ β} {pc : ThreadPc} {idx : Fin 4} {i : ℕ}
      {kv : MixKv} {hash : MixHash}, s.threads t = .pop idx i →
      mixHashGetEntryByIdx (s.store.metaData.hash idx) i = (kv, hash) →
      s'.store.metaData.hash =
        Function.update s.store.metaData.hash idx hash →
      s'.coord = s.coord → s'.threads = Function.update s.threads t pc →
      s'.migration = s.migration →
      pc.work s.buckets (s.migration t) <
          (s.threads t).work s.buckets (s.migration t) ∨
        ¬ IsSentinel kv ∧ pc.work s.buckets (s.migration t) <
          (s.threads t).work s.buckets (s.migration t) + 5 →
      s'.work < s.work := by
    intro s' pc idx i kv hash hpc hpop hmeta hcoord hthreads hmigration hless
    obtain ⟨hsize, hlength⟩ :=
      mixHashGetEntryByIdx_length (hinside idx i hpc) hpop
    obtain ⟨hbuckets, hstored⟩ := s.setHash_counts hmeta hsize
    have hsum := s.threadsWork_goto s.buckets t hthreads hmigration
    rw [Machine.work, Machine.work, hbuckets, hcoord]
    rcases hlength with hlength | ⟨hkv, rfl⟩
    · omega
    · rcases hless with hless | ⟨hnot, -⟩
      · omega
      · exact absurd hkv hnot
  cases threadStep_cases hstep with
  | test hpc hflag =>
      exact hquiet rfl rfl rfl hsame (by simp [hpc, hflag, ThreadPc.work])
  | fetch hpc =>
      refine hquiet rfl rfl rfl hsame ?_
      rw [hpc]
      simp only [ThreadPc.work]
      omega
  | @scan idx i hpc hi =>
      have hle := s.hashSize_le_buckets idx
      refine hquiet rfl rfl rfl hsame ?_
      rw [hpc]
      simp only [ThreadPc.work]
      omega
  | pop hpc hpop hkv =>
      refine hpopped hpc hpop rfl rfl rfl rfl (Or.inr ⟨hkv, ?_⟩)
      rw [hpc]
      simp only [ThreadPc.work]
      omega
  | popEnd hpc hpop hkv =>
      refine hpopped hpc hpop rfl rfl rfl rfl (Or.inl ?_)
      rw [hpc]
      simp only [ThreadPc.work]
      omega
  | scanEnd hpc hi =>
      refine hquiet rfl rfl rfl hsame ?_
      rw [hpc]
      simp only [ThreadPc.work]
      omega
  | read hpc | ssdWrite hpc | clear hpc | dec hpc | count hpc =>
      refine hquiet rfl rfl rfl hsame ?_
      rw [hpc]
      simp [ThreadPc.work]
  | reset hpc =>
      have hless : ThreadPc.test.work s.buckets false <
          (s.threads t).work s.buckets (s.migration t) := by
        rw [hpc]
        simp [ThreadPc.work]
      exact hquiet rfl rfl rfl rfl hless

end Uhs
