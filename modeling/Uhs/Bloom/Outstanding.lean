import Uhs.Bloom.CountingFilter

/-!
# What a counting filter remembers

As long as no counter is asked to exceed `15`, the filter counts the
outstanding adds of every counter, so it never misses a key that is present
and forgets those that are gone.  At `15` an add is lost for the counter while
the remove is not.
-/

namespace Uhs

open Support MixCountingBloomFilter

variable (hashFunc : ℕ → ℕ → ℕ)

/-- A call that changes the filter. -/
inductive FilterOp where
  | add (key : ℕ)
  | remove (key : ℕ)

/-- A filter with the keys that were added and not yet removed. -/
structure FilterRun where
  filter : MixCountingBloomFilter
  outstanding : Multiset ℕ

/-- One call; both functions always return. -/
def filterStep (run : FilterRun) : FilterOp → Option FilterRun
  | .add key => some
      { filter := mixCountingBloomFilterAdd hashFunc run.filter key
        outstanding := key ::ₘ run.outstanding }
  | .remove key => some
      { filter := mixCountingBloomFilterRemove hashFunc run.filter key
        outstanding := run.outstanding.erase key }

/-- No counter is asked to exceed `15`, and a remove has its add. -/
def Matched (run : FilterRun) : FilterOp → Prop
  | .add key => ∀ j ∈ run.filter.indexes hashFunc key,
      run.filter.counter j < 15
  | .remove key => key ∈ run.outstanding

instance decidableMatched (run : FilterRun) :
    ∀ op, Decidable (Matched hashFunc run op)
  | .add key => inferInstanceAs (Decidable (∀ j ∈
      run.filter.indexes hashFunc key, run.filter.counter j < 15))
  | .remove key => inferInstanceAs (Decidable (key ∈ run.outstanding))

/-- An initialised filter, with nothing outstanding. -/
def filterStart (nfuncs countsPerFunc : ℕ) : FilterRun where
  filter := mixCountingBloomFilterInit nfuncs countsPerFunc
  outstanding := 0

/-- The filter of the run, laid out as at the start, counts what is
outstanding and answers for it. -/
structure Counts (nfuncs countsPerFunc : ℕ) (run : FilterRun) : Prop where
  layout : run.filter =
    { mixCountingBloomFilterInit nfuncs countsPerFunc with
      bitmap := run.filter.bitmap }
  counter : ∀ j < run.filter.size, run.filter.counter j =
    run.outstanding.countP fun key => j ∈ run.filter.indexes hashFunc key
  header : ∀ a < sizeofHeader, a < countPlace ∨ countPlace + 4 ≤ a →
    run.filter.bitmap.array a = 0#8
  count : run.filter.count.toNat = Multiset.card run.outstanding % 2 ^ 32
  access : ∀ key, ∀ j ∈ run.filter.indexes hashFunc key,
    sizeofHeader ≤ j / 2 + run.filter.offset ∧
      j / 2 + run.filter.offset < run.filter.numBytes
  present : ∀ key ∈ run.outstanding,
    mixCountingBloomFilterTest hashFunc run.filter key = 1
  forgotten : run.outstanding = 0 → ∀ key,
    mixCountingBloomFilterTest hashFunc run.filter key = 0

/-! ## The counters along a run -/

variable {hashFunc} {filter : MixCountingBloomFilter} {run run' : FilterRun}
  {key j : ℕ}

theorem MixCountingBloomFilter.Sized.counter_add
    (h : filter.Sized hashFunc) (key j : ℕ) :
    (mixCountingBloomFilterAdd hashFunc filter key).counter j =
      if j ∈ filter.indexes hashFunc key then min 15 (filter.counter j + 1)
      else filter.counter j :=
  h.counter_update (f := fun c => min 15 (c + 1))
    mixCountingBitmapIncrement_updates 1 key j

theorem MixCountingBloomFilter.Sized.counter_remove
    (h : filter.Sized hashFunc) (key j : ℕ) :
    (mixCountingBloomFilterRemove hashFunc filter key).counter j =
      if j ∈ filter.indexes hashFunc key then filter.counter j - 1
      else filter.counter j :=
  h.counter_update (f := fun c => c - 1) mixCountingBitmapDecrement_updates
    (-1) key j

theorem MixCountingBloomFilter.Sized.count_add
    (h : filter.Sized hashFunc) (key : ℕ) :
    (mixCountingBloomFilterAdd hashFunc filter key).count =
      filter.count + 1 :=
  h.count_update (f := fun c => min 15 (c + 1))
    mixCountingBitmapIncrement_updates 1 key

theorem MixCountingBloomFilter.Sized.count_remove
    (h : filter.Sized hashFunc) (key : ℕ) :
    (mixCountingBloomFilterRemove hashFunc filter key).count =
      filter.count + -1 :=
  h.count_update (f := fun c => c - 1) mixCountingBitmapDecrement_updates
    (-1) key

/-- What a run keeps: the counters, the count and the rest of the header. -/
structure Tallied (hashFunc : ℕ → ℕ → ℕ) (nfuncs countsPerFunc : ℕ)
    (run : FilterRun) : Prop where
  sized : run.filter.Sized hashFunc
  layout : run.filter =
    { mixCountingBloomFilterInit nfuncs countsPerFunc with
      bitmap := run.filter.bitmap }
  counter : ∀ j, run.filter.counter j =
    run.outstanding.countP fun key => j ∈ run.filter.indexes hashFunc key
  header : ∀ a < sizeofHeader, a < countPlace ∨ countPlace + 4 ≤ a →
    run.filter.bitmap.array a = 0#8
  count : run.filter.count =
    BitVec.ofNat 32 (Multiset.card run.outstanding)

variable {nfuncs countsPerFunc : ℕ}

theorem filterStart_tallied (hnfuncs : 0 < nfuncs)
    (hsize : nfuncs * countsPerFunc < 2 ^ 31)
    (hhash : ∀ key, ∀ i < nfuncs, hashFunc key i < countsPerFunc) :
    Tallied hashFunc nfuncs countsPerFunc
      (filterStart nfuncs countsPerFunc) where
  sized := ⟨rfl, hnfuncs, rfl, hsize, rfl, hhash⟩
  layout := rfl
  counter := by
    intro j
    have hzero : half 0#8 j = 0 := by
      rw [half]
      split_ifs <;> rfl
    rw [filterStart, Multiset.countP_zero]
    exact hzero
  header := fun _ _ _ => rfl
  count := by
    change readWord (fun _ => 0#8) countPlace = BitVec.ofNat 32 0
    decide

/-- An add raises the counters of its key. -/
theorem Tallied.add (h : Tallied hashFunc nfuncs countsPerFunc run)
    (hroom : ∀ j ∈ run.filter.indexes hashFunc key,
      run.filter.counter j < 15) :
    Tallied hashFunc nfuncs countsPerFunc
      { filter := mixCountingBloomFilterAdd hashFunc run.filter key
        outstanding := key ::ₘ run.outstanding } where
  sized := h.sized.update 1 key
  layout := by
    rw [h.layout]
    rfl
  counter := by
    intro j
    have hindexes : (mixCountingBloomFilterAdd hashFunc run.filter
        key).indexes hashFunc = run.filter.indexes hashFunc := rfl
    rw [h.sized.counter_add, hindexes, Multiset.countP_cons, ← h.counter j]
    by_cases hj : j ∈ run.filter.indexes hashFunc key
    · have hlt := hroom j hj
      rw [if_pos hj, if_pos hj]
      omega
    · rw [if_neg hj, if_neg hj, Nat.add_zero]
  header := by
    intro a ha houtside
    exact (h.sized.header_update (f := fun c => min 15 (c + 1))
      mixCountingBitmapIncrement_updates 1 key ha houtside).trans
      (h.header a ha houtside)
  count := by
    rw [h.sized.count_add, h.count, Multiset.card_cons, BitVec.ofNat_add]
    rfl

/-- The remove of an outstanding key lowers its counters. -/
theorem Tallied.remove (h : Tallied hashFunc nfuncs countsPerFunc run)
    (hmem : key ∈ run.outstanding) :
    Tallied hashFunc nfuncs countsPerFunc
      { filter := mixCountingBloomFilterRemove hashFunc run.filter key
        outstanding := run.outstanding.erase key } := by
  obtain ⟨rest, hrest⟩ := Multiset.exists_cons_of_mem hmem
  have hcounter := h.counter
  have hcount := h.count
  rw [hrest] at hcounter hcount
  rw [hrest, Multiset.erase_cons_head]
  exact
    { sized := h.sized.update (-1) key
      layout := by
        rw [h.layout]
        rfl
      counter := by
        intro j
        have hindexes : (mixCountingBloomFilterRemove hashFunc run.filter
            key).indexes hashFunc = run.filter.indexes hashFunc := rfl
        rw [h.sized.counter_remove, hindexes, hcounter j,
          Multiset.countP_cons]
        by_cases hj : j ∈ run.filter.indexes hashFunc key
        · rw [if_pos hj, if_pos hj, Nat.add_sub_cancel]
        · rw [if_neg hj, if_neg hj, Nat.add_zero]
      header := by
        intro a ha houtside
        exact (h.sized.header_update (f := fun c => c - 1)
          mixCountingBitmapDecrement_updates (-1) key ha houtside).trans
          (h.header a ha houtside)
      count := by
        rw [h.sized.count_remove, hcount, Multiset.card_cons,
          BitVec.ofNat_add, BitVec.add_assoc]
        simp }

theorem Tallied.step (h : Tallied hashFunc nfuncs countsPerFunc run)
    {op : FilterOp} (hmatched : Matched hashFunc run op)
    (hstep : filterStep hashFunc run op = some run') :
    Tallied hashFunc nfuncs countsPerFunc run' := by
  cases op with
  | add key =>
      rw [filterStep, Option.some.injEq] at hstep
      subst hstep
      exact h.add hmatched
  | remove key =>
      rw [filterStep, Option.some.injEq] at hstep
      subst hstep
      exact h.remove hmatched

/-- A filter that counts what is outstanding answers for it. -/
theorem Tallied.counts (h : Tallied hashFunc nfuncs countsPerFunc run) :
    Counts hashFunc nfuncs countsPerFunc run where
  layout := h.layout
  counter := fun j _ => h.counter j
  header := h.header
  count := by rw [h.count, BitVec.toNat_ofNat]
  access := by
    intro key j hj
    have hlt := h.sized.lt_of_mem_indexes hj
    rw [h.sized.numBytes_eq, h.sized.offset_eq]
    omega
  present := by
    intro key hkey
    rw [test_eq, if_neg]
    rintro ⟨j, hj, hzero⟩
    rw [h.counter j] at hzero
    have hpos : 0 < run.outstanding.countP
        fun key => j ∈ run.filter.indexes hashFunc key :=
      Multiset.countP_pos_of_mem hkey hj
    omega
  forgotten := by
    intro hnone key
    obtain ⟨j, hj⟩ := h.sized.exists_mem_indexes key
    rw [test_eq, if_pos]
    exact ⟨j, hj, by rw [h.counter j, hnone, Multiset.countP_zero]⟩

/-- In every run whose removes are matched and whose counters stay within
four bits, the filter counts what is outstanding and answers for it. -/
theorem filterRun_counts (nfuncs countsPerFunc : ℕ)
    (hashFunc : ℕ → ℕ → ℕ) (hnfuncs : 0 < nfuncs)
    (hsize : nfuncs * countsPerFunc < 2 ^ 31)
    (hhash : ∀ key, ∀ i < nfuncs, hashFunc key i < countsPerFunc)
    (ops : List FilterOp)
    (hmatched : AllSteps (filterStep hashFunc) (Matched hashFunc)
      (filterStart nfuncs countsPerFunc) ops) :
    ∃ run, runOps (filterStep hashFunc)
        (filterStart nfuncs countsPerFunc) ops = some run ∧
      Counts hashFunc nfuncs countsPerFunc run := by
  have hstart := filterStart_tallied hnfuncs hsize hhash
  have hreturns : ∀ ops run, ∃ run',
      runOps (filterStep hashFunc) run ops = some run' := by
    intro ops
    induction ops with
    | nil => exact fun run => ⟨run, rfl⟩
    | cons op ops ih =>
        intro run
        cases op with
        | add key => exact ih _
        | remove key => exact ih _
  obtain ⟨run, hrun⟩ := hreturns ops (filterStart nfuncs countsPerFunc)
  have hall := allStates_of_allSteps
    (I := Tallied hashFunc nfuncs countsPerFunc)
    (fun _ _ _ h hop hstep => h.step hop hstep) hstart hmatched
  exact ⟨run, hrun, (hall.of_runOps hstart hrun).counts⟩

/-- Keys `1` and `4` share their counters. -/
def shareThree (key i : ℕ) : ℕ := (key + i) % 3

theorem filterRun_counts_shared :
    ∃ run, runOps (filterStep shareThree) (filterStart 2 3)
        [.add 1, .add 4, .remove 1] = some run ∧
      Counts shareThree 2 3 run :=
  filterRun_counts 2 3 shareThree (by decide) (by decide)
    (fun key i _ => Nat.mod_lt (key + i) (by decide)) _ (by decide +kernel)

/-! ## An add and its remove -/

/-- The counters, the count and the answers are those of `filter`. -/
structure Restores (hashFunc : ℕ → ℕ → ℕ)
    (filter filter' : MixCountingBloomFilter) : Prop where
  counter : ∀ j < filter.size, filter'.counter j = filter.counter j
  count : filter'.count = filter.count
  test : ∀ key, mixCountingBloomFilterTest hashFunc filter' key =
    mixCountingBloomFilterTest hashFunc filter key

/-- A remove undoes the add before it exactly when none of the counters of the
key stood at `15`. -/
theorem removeAdd_restores_iff (hashFunc : ℕ → ℕ → ℕ)
    (filter : MixCountingBloomFilter) (hsized : filter.Sized hashFunc)
    (key : ℕ) :
    Restores hashFunc filter
        (mixCountingBloomFilterRemove hashFunc
          (mixCountingBloomFilterAdd hashFunc filter key) key) ↔
      ∀ j ∈ filter.indexes hashFunc key, filter.counter j ≠ 15 := by
  have hadded : (mixCountingBloomFilterAdd hashFunc filter key).Sized
      hashFunc := hsized.update 1 key
  have hcounter : ∀ j, (mixCountingBloomFilterRemove hashFunc
      (mixCountingBloomFilterAdd hashFunc filter key) key).counter j =
        if j ∈ filter.indexes hashFunc key then
          min 15 (filter.counter j + 1) - 1
        else filter.counter j := by
    intro j
    have hindexes : (mixCountingBloomFilterAdd hashFunc filter key).indexes
        hashFunc = filter.indexes hashFunc := rfl
    rw [hadded.counter_remove, hsized.counter_add, hindexes]
    split_ifs <;> rfl
  constructor
  · intro hrestores j hj hfull
    have hsame := hrestores.counter j (hsized.lt_of_mem_indexes hj)
    rw [hcounter, if_pos hj, hfull] at hsame
    exact absurd hsame (by decide)
  · intro hroom
    have hsame : ∀ j, (mixCountingBloomFilterRemove hashFunc
        (mixCountingBloomFilterAdd hashFunc filter key) key).counter j =
          filter.counter j := by
      intro j
      rw [hcounter]
      split_ifs with hj
      · have hne := hroom j hj
        have hlt := nibble_lt filter.bitmap.array filter.offset j
        rw [counter] at hne ⊢
        omega
      · rfl
    refine ⟨fun j _ => hsame j, ?_, fun key' => ?_⟩
    · rw [hadded.count_remove, hsized.count_add, BitVec.add_assoc]
      simp
    · rw [test_eq, test_eq]
      simp only [hsame]
      rfl

/-- All keys share one counter. -/
def shareOne (_key _i : ℕ) : ℕ := 0

/-- Fifteen adds of key `1`. -/
def saturatedFilter : MixCountingBloomFilter :=
  (List.replicate 15 1).foldl (mixCountingBloomFilterAdd shareOne)
    (mixCountingBloomFilterInit 1 1)

/-- Two functions with four counters each. -/
def spread (key i : ℕ) : ℕ := (key + 2 * i) % 4

/-- A filter to which four keys have been added, one of them twice. -/
def filledFilter : MixCountingBloomFilter :=
  [1, 6, 1, 3, 8].foldl (mixCountingBloomFilterAdd spread)
    (mixCountingBloomFilterInit 2 4)

/-- Key `5` has the counters of key `1`, which stand above zero. -/
theorem removeAdd_restores_iff_filled :
    Restores spread filledFilter
      (mixCountingBloomFilterRemove spread
        (mixCountingBloomFilterAdd spread filledFilter 5) 5) :=
  (removeAdd_restores_iff spread filledFilter
    ⟨by decide, by decide, by decide, by decide, by decide,
      fun _ _ _ => Nat.mod_lt _ (by decide)⟩ 5).mpr (by decide +kernel)

/-- At `15` an add and its remove leave `14`; and when key `0` is added once,
and key `1` added and removed fifteen times, key `0` is missed. -/
theorem saturatedFilter_not_restored :
    saturatedFilter.Sized shareOne ∧
      ¬ Restores shareOne saturatedFilter
        (mixCountingBloomFilterRemove shareOne
          (mixCountingBloomFilterAdd shareOne saturatedFilter 1) 1) ∧
      mixCountingBloomFilterTest shareOne
        ((List.replicate 15 1).foldl (mixCountingBloomFilterRemove shareOne)
          ((List.replicate 15 1).foldl (mixCountingBloomFilterAdd shareOne)
            (mixCountingBloomFilterAdd shareOne
              (mixCountingBloomFilterInit 1 1) 0))) 0 = 0 := by
  refine ⟨⟨by decide, by decide, by decide, by decide, by decide,
    fun _ _ _ => Nat.zero_lt_one⟩, fun hrestores => ?_, by decide +kernel⟩
  exact absurd (hrestores.counter 0 (by decide)) (by decide +kernel)

end Uhs
