import Uhs.Migration.Draining
import Uhs.Migration.Signal

/-!
# What a returned migration has done

Over any series of migrations and any interleaving of the threads with the
coordinator: when `mix_segment_migration_end` returns, the table is empty,
every pair of it was passed to `migrate_from_buffer_to_ssd` exactly once, and
no other segment was touched.
-/

namespace Uhs

open Support

variable {T : ℕ} {σ β : Type*}

/-- What holds when the migration of `idx` has returned. -/
structure DrainedOnce (idx : Fin 4) (s : Machine T σ β) : Prop where
  empty : ∀ i < (s.store.metaData.hash idx).hashSize, s.BucketEmpty idx i
  hashSize : (s.store.metaData.hash idx).hashSize =
    (s.start.metaData.hash idx).hashSize
  calls : (s.start.metaData.hash idx).entries.Perm s.calls
  used : (s.store.metaData.segments idx).usedBlockNum +
      (s.start.metaData.hash idx).entries.length =
    (s.start.metaData.segments idx).usedBlockNum
  elsewhere : MixMetadata.SameElsewhere idx s.start.metaData s.store.metaData

/-- Every migration drains its segment exactly once, and the bitmap is kept
until every pair has been taken. -/
structure DrainsExactlyOnce (s : Machine T σ β) : Prop where
  returned : ∀ idx, s.coord = .returned idx → DrainedOnce idx s
  bitmap_kept : ∀ idx, s.coord.Active idx →
    (s.store.metaData.segments idx).bitmap =
      (s.start.metaData.segments idx).bitmap
  taken : ∀ idx, s.coord = .clearBitmap idx →
    (∀ i < (s.store.metaData.hash idx).hashSize, s.BucketEmpty idx i) ∧
      (s.start.metaData.hash idx).entries.Perm s.calls

/-- A migration is called on a table with right lengths and no pair that ends
a drain. -/
def CallsOnTable (s : Machine T σ β) : MigrationEvent T σ β → Prop
  | .call idx => TableOk (s.store.metaData.hash idx)
  | _ => True

/-- The invariant of a series of migrations. -/
structure SeriesInv (s : Machine T σ β) : Prop where
  handshake : HandshakeInv s
  drain : ∀ idx, s.coord.Active idx → DrainInv idx s
  elsewhere : ∀ idx, s.coord.Active idx →
    MixMetadata.SameElsewhere idx s.start.metaData s.store.metaData
  returned : ∀ idx, s.coord = .returned idx → DrainedOnce idx s

variable {s s' : Machine T σ β} {t : Fin T} {idx : Fin 4}

/-- Once every thread has counted, the table is empty. -/
theorem DrainInv.empty_of_counted (h : DrainInv idx s) (hT : 0 < T)
    (hall : ∀ t, s.counted t = true) :
    ∀ i < (s.store.metaData.hash idx).hashSize, s.BucketEmpty idx i :=
  fun i hi => h.counted ⟨i % T, Nat.mod_lt i hT⟩ (hall _) i hi rfl

theorem entries_eq_nil_of_empty
    (h : ∀ i < (s.store.metaData.hash idx).hashSize, s.BucketEmpty idx i) :
    (s.store.metaData.hash idx).entries = [] :=
  entries_eq_nil_iff.mpr h

/-- No thread owes anything once every thread has counted. -/
theorem HandshakeInv.owed_eq_zero (h : HandshakeInv s)
    (hall : ∀ t, s.counted t = true) : s.owed = 0 := by
  apply countWith_eq_zero_iff.mpr
  intro t howes
  have hcounted := (h.busy t howes.busy).2.1
  exact absurd (hall t) (by simp [hcounted])

theorem SeriesInv.taken (h : SeriesInv s) (hT : 0 < T)
    (hcoord : s.coord = .clearBitmap idx) :
    (∀ i < (s.store.metaData.hash idx).hashSize, s.BucketEmpty idx i) ∧
      (s.start.metaData.hash idx).entries.Perm s.calls := by
  have hdrain := h.drain idx (by rw [hcoord]; rfl)
  have hempty := hdrain.empty_of_counted hT
    (h.handshake.late (by rw [hcoord]; trivial))
  refine ⟨hempty, ?_⟩
  have hcalls := hdrain.calls
  rwa [entries_eq_nil_of_empty hempty, List.append_nil] at hcalls

theorem SeriesInv.drainsExactlyOnce (h : SeriesInv s) (hT : 0 < T) :
    DrainsExactlyOnce s where
  returned := h.returned
  bitmap_kept := fun idx hactive => (h.drain idx hactive).bitmap
  taken := fun _ hcoord => h.taken hT hcoord

/-- The return of a migration. -/
theorem SeriesInv.finish (h : SeriesInv s) (hT : 0 < T)
    (hcoord : s.coord = .clearBitmap idx) :
    DrainedOnce idx { s with
      store := mixSegmentMigrationEnd s.store idx
      coord := .returned idx } := by
  obtain ⟨hempty, hcalls⟩ := h.taken hT hcoord
  have hactive : s.coord.Active idx := by
    rw [hcoord]
    rfl
  have hdrain := h.drain idx hactive
  refine ⟨hempty, hdrain.hashSize, hcalls, ?_, ?_⟩
  · have hused := hdrain.used
    rw [h.handshake.owed_eq_zero
      (h.handshake.late (by rw [hcoord]; trivial)), ← hcalls.length_eq] at hused
    simp only [mixSegmentMigrationEnd, MixMetadata.setBitmap_self]
    omega
  · exact (h.elsewhere idx hactive).trans
      (MixMetadata.sameElsewhere_setBitmap _ _ _)

/-- A step of the coordinator inside a migration, away from its end. -/
theorem DrainInv.setCoord (h : DrainInv idx s)
    (hstore : s'.store = s.store) (hstart : s'.start = s.start)
    (hcalls : s'.calls = s.calls) (hcounted : s'.counted = s.counted)
    (hthreads : s'.threads = s.threads) : DrainInv idx s' := by
  have hempty : s'.BucketEmpty idx = s.BucketEmpty idx := by
    funext i
    rw [Machine.BucketEmpty, hstore, Machine.BucketEmpty]
  refine ⟨?_, ?_, ?_, ?_, ?_, ?_, ?_⟩
  · rw [hstore]
    exact h.table
  · rw [hstore, hstart]
    exact h.hashSize
  · rw [hstore, hstart, hcalls]
    exact h.calls
  · rw [hstore, hstart, hcalls, Machine.owed, hthreads]
    exact h.used
  · rw [hstore, hstart]
    exact h.bitmap
  · rw [hcounted, hstore, hempty]
    exact h.counted
  · rw [hthreads, hstore, hempty]
    exact h.emptied

/-- A change of the store that does not touch the segment. -/
theorem DrainInv.setStore (h : DrainInv idx s) {store : Store σ β}
    (hhash : store.metaData.hash idx = s.store.metaData.hash idx)
    (hsegment : store.metaData.segments idx =
      s.store.metaData.segments idx) : DrainInv idx (s.setStore store) := by
  have hempty : (s.setStore store).BucketEmpty idx = s.BucketEmpty idx := by
    funext i
    simp only [Machine.BucketEmpty, Machine.setStore, hhash]
  refine ⟨?_, ?_, ?_, ?_, ?_, ?_, ?_⟩
  · simpa only [Machine.setStore, hhash] using h.table
  · simpa only [Machine.setStore, hhash] using h.hashSize
  · simpa only [Machine.setStore, hhash] using h.calls
  · have hused := h.used
    rw [← hsegment] at hused
    exact hused
  · simpa only [Machine.setStore, hsegment] using h.bitmap
  · rw [hempty]
    simpa only [Machine.setStore, hhash] using h.counted
  · rw [hempty]
    simpa only [Machine.setStore, hhash] using h.emptied

/-- The call of a migration finds no busy thread. -/
theorem HandshakeInv.callMigration_drainInv (h : HandshakeInv s)
    (hidle : s.coord = .idle)
    (htable : TableOk (s.store.metaData.hash idx)) :
    DrainInv idx (callMigration idx s) := by
  have hquiet : ∀ t, ¬ (s.threads t).Busy := by
    intro t hbusy
    obtain ⟨-, -, idx', hsignalled⟩ := h.busy t hbusy
    rw [hidle] at hsignalled
    exact hsignalled.elim
  refine ⟨htable, rfl, ?_, ?_, rfl, ?_, ?_⟩
  · exact List.Perm.refl _
  · have howed : (callMigration idx s).owed = 0 := by
      apply countWith_eq_zero_iff.mpr
      exact fun t howes => hquiet t (ThreadPc.Owes.busy howes)
    rw [howed]
    simp [callMigration]
  · intro t hcounted
    exact absurd hcounted (by simp [callMigration])
  · exact fun t => ThreadPc.emptied_of_not_busy (hquiet t)

/-- Away from the end of a migration the coordinator leaves the store alone
and goes on with the same segment. -/
theorem coordStep_cases (hstep : coordStep s = some s') :
    (∃ idx, s.coord = .clearBitmap idx ∧ s' = { s with
        store := mixSegmentMigrationEnd s.store idx
        coord := .returned idx }) ∨
      s'.store = s.store ∧ s'.start = s.start ∧ s'.calls = s.calls ∧
        s'.counted = s.counted ∧ s'.threads = s.threads ∧
        s'.migrateBuf = s.migrateBuf ∧
        (∀ idx, s'.coord.Active idx ↔ s.coord.Active idx) ∧
        ∀ idx, s'.coord ≠ .returned idx := by
  unfold coordStep at hstep
  cases hcoord : s.coord with
  | idle => simp [hcoord] at hstep
  | clearBitmap idx =>
      simp only [hcoord, Option.some.injEq] at hstep
      exact Or.inl ⟨idx, rfl, hstep.symm⟩
  | storeIdx idx | zero idx | rezero idx =>
      simp only [hcoord, Option.some.injEq] at hstep
      subst hstep
      exact Or.inr ⟨rfl, rfl, rfl, rfl, rfl, rfl, fun _ => Iff.rfl, by simp⟩
  | returned idx =>
      simp only [hcoord, Option.some.injEq] at hstep
      subst hstep
      exact Or.inr ⟨rfl, rfl, rfl, rfl, rfl, rfl, fun _ => Iff.rfl, by simp⟩
  | signal idx i =>
      simp only [hcoord] at hstep
      split at hstep <;>
      · rw [Option.some.injEq] at hstep
        subst hstep
        exact Or.inr ⟨rfl, rfl, rfl, rfl, rfl, rfl, fun _ => Iff.rfl, by simp⟩
  | wait idx =>
      simp only [hcoord] at hstep
      split at hstep
      · simp at hstep
      · rw [Option.some.injEq] at hstep
        subst hstep
        exact Or.inr ⟨rfl, rfl, rfl, rfl, rfl, rfl, fun _ => Iff.rfl, by simp⟩

theorem SeriesInv.coordStep (h : SeriesInv s) (hT : 0 < T)
    (hstep : coordStep s = some s') : SeriesInv s' := by
  have hhand := coordStep_handshakeInv h.handshake hstep
  rcases coordStep_cases hstep with ⟨idx, hcoord, rfl⟩ |
    ⟨hstore, hstart, hcalls, hcounted, hthreads, -, hactive, hreturned⟩
  · refine ⟨hhand, fun _ hactive => hactive.elim,
      fun _ hactive => hactive.elim, ?_⟩
    rintro idx' ⟨rfl⟩
    exact h.finish hT hcoord
  · refine ⟨hhand, ?_, ?_, ?_⟩
    · intro idx hs'
      exact (h.drain idx ((hactive idx).mp hs')).setCoord hstore hstart hcalls
        hcounted hthreads
    · intro idx hs'
      rw [hstore, hstart]
      exact h.elsewhere idx ((hactive idx).mp hs')
    · intro idx hs'
      exact absurd hs' (hreturned idx)

variable [BlockDevice σ β]

/-- A thread writes to the metadata of the segment it works on only. -/
theorem threadStep_sameElsewhere (hstep : threadStep t s = some s')
    (hsegment : ∀ idx', (s.threads t).segment = some idx' → idx' = idx) :
    MixMetadata.SameElsewhere idx s.store.metaData s'.store.metaData := by
  cases threadStep_cases hstep with
  | pop hpc | popEnd hpc =>
      obtain rfl := hsegment _ (by rw [hpc]; rfl)
      exact MixMetadata.sameElsewhere_setHash _ _ _
  | dec hpc =>
      obtain rfl := hsegment _ (by rw [hpc]; rfl)
      exact MixMetadata.sameElsewhere_addUsed _ _ _
  | test | fetch | scan | scanEnd | read | ssdWrite | clear | count | reset =>
      exact MixMetadata.SameElsewhere.refl _ _

/-- A thread that is not busy leaves the store alone. -/
theorem threadStep_of_not_busy (hstep : threadStep t s = some s')
    (hbusy : ¬ (s.threads t).Busy) :
    s'.store = s.store ∧ s'.calls = s.calls := by
  cases threadStep_cases hstep with
  | test | reset => exact ⟨rfl, rfl⟩
  | fetch hpc | scan hpc | scanEnd hpc | pop hpc | popEnd hpc | read hpc
  | ssdWrite hpc | clear hpc | dec hpc | count hpc =>
      rw [hpc] at hbusy
      exact absurd trivial hbusy

omit [BlockDevice σ β] in
theorem DrainedOnce.congr {s s' : Machine T σ β} (h : DrainedOnce idx s)
    (hstore : s'.store = s.store) (hstart : s'.start = s.start)
    (hcalls : s'.calls = s.calls) : DrainedOnce idx s' := by
  refine ⟨?_, ?_, ?_, ?_, ?_⟩
  · intro i hi
    rw [hstore] at hi
    rw [Machine.BucketEmpty, hstore]
    exact h.empty i hi
  · rw [hstore, hstart]
    exact h.hashSize
  · rw [hstart, hcalls]
    exact h.calls
  · rw [hstore, hstart]
    exact h.used
  · rw [hstore, hstart]
    exact h.elsewhere

theorem SeriesInv.threadStep (h : SeriesInv s) (hT : T ≤ 127)
    (hstep : threadStep t s = some s') : SeriesInv s' := by
  obtain ⟨hcoord, hstart⟩ := threadStep_frame hstep
  refine ⟨threadStep_handshakeInv h.handshake hT hstep, ?_, ?_, ?_⟩
  · intro idx hactive
    rw [hcoord] at hactive
    exact threadStep_drainInv (h.drain idx hactive) h.handshake hactive hstep
  · intro idx hactive
    rw [hcoord] at hactive
    rw [hstart]
    exact (h.elsewhere idx hactive).trans (threadStep_sameElsewhere hstep
      fun idx' hseg =>
        (h.handshake.segment t idx' hseg).eq_of_active hactive)
  · intro idx hreturned
    rw [hcoord] at hreturned
    have hbusy : ¬ (s.threads t).Busy := by
      intro hbusy
      obtain ⟨-, -, idx', hsignalled⟩ := h.handshake.busy t hbusy
      rw [hreturned] at hsignalled
      exact hsignalled.elim
    obtain ⟨hstore, hcalls⟩ := threadStep_of_not_busy hstep hbusy
    exact (h.returned idx hreturned).congr hstore hstart hcalls

theorem migrationStep_seriesInv {event : MigrationEvent T σ β}
    (h : SeriesInv s) (hpos : 0 < T) (hT : T ≤ 127)
    (htable : CallsOnTable s event)
    (hstep : migrationStep s event = some s') : SeriesInv s' := by
  have hhand := migrationStep_handshakeInv h.handshake hT hstep
  cases event with
  | call idx =>
      simp only [migrationStep] at hstep
      split at hstep
      · rename_i hidle
        rw [Option.some.injEq] at hstep
        subst hstep
        refine ⟨hhand, ?_, ?_, ?_⟩
        · rintro idx' rfl
          exact h.handshake.callMigration_drainInv hidle htable
        · rintro idx' rfl
          exact MixMetadata.SameElsewhere.refl _ _
        · exact fun _ hreturned => by simp [callMigration] at hreturned
      · simp at hstep
  | coord => exact h.coordStep hpos hstep
  | thread t => exact h.threadStep hT hstep
  | refill store =>
      simp only [migrationStep] at hstep
      split at hstep
      · rename_i hidle
        rw [Option.some.injEq] at hstep
        subst hstep
        refine ⟨hhand, ?_, ?_, ?_⟩
        · intro idx hactive
          rw [show s.coord = .idle from hidle] at hactive
          exact hactive.elim
        · intro idx hactive
          rw [show s.coord = .idle from hidle] at hactive
          exact hactive.elim
        · intro idx hreturned
          rw [show s.coord = .idle from hidle] at hreturned
          simp at hreturned
      · simp at hstep

/-- For up to 127 threads, every hash size and every interleaving, each
migration of a series that returns has drained its table exactly once. -/
theorem drainsExactlyOnce_allStates (hpos : 0 < T) (hT : T ≤ 127)
    (store : Store σ β) (segmentIdx : Fin 4) (migrateBuf : Fin T → β)
    (events : List (MigrationEvent T σ β))
    (htable : AllSteps migrationStep CallsOnTable
      (Machine.initial T store segmentIdx migrateBuf) events) :
    AllStates migrationStep DrainsExactlyOnce
      (Machine.initial T store segmentIdx migrateBuf) events := by
  have hinit : SeriesInv
      (Machine.initial T store segmentIdx migrateBuf) :=
    ⟨initial_handshakeInv store segmentIdx migrateBuf,
      fun _ hactive => hactive.elim, fun _ hactive => hactive.elim,
      fun _ hreturned => by simp [Machine.initial] at hreturned⟩
  have hall := allStates_of_allSteps
    (fun _ _ _ hinv hP hstep =>
      migrationStep_seriesInv hinv hpos hT hP hstep) hinit htable
  exact hall.mono fun _ hinv => hinv.drainsExactlyOnce hpos

instance (hash : MixHash) : Decidable (TableOk hash) :=
  decidable_of_iff
    ((∀ i < hash.hashSize,
        (hash.hashNodes i).len = (hash.hashNodes i).list.length) ∧
      ∀ i < hash.hashSize, ∀ kv ∈ (hash.hashNodes i).list, ¬ IsSentinel kv)
    ⟨fun h => ⟨h.1, h.2⟩, fun h => ⟨h.len_eq, h.sentinelFree⟩⟩

instance (s : Machine T σ β) : DecidablePred (CallsOnTable s)
  | .call _ => inferInstanceAs (Decidable (TableOk _))
  | .coord => inferInstanceAs (Decidable True)
  | .thread _ => inferInstanceAs (Decidable True)
  | .refill _ => inferInstanceAs (Decidable True)

/-- Block `16` is mapped in segment `0`; it lies in a bucket of thread `0`. -/
def filledStore : Store (ℕ → ℕ) ℕ :=
  ((redirectWrite (freshStore 32 (fun _ => false) zeroDevices)
    (smallWrite 16 5) 0).get (by decide +kernel)).2

theorem drainsExactlyOnce_allStates_example :
    AllStates migrationStep DrainsExactlyOnce freshMachine
      (.refill filledStore :: beginSteps ++ List.replicate 5 (.thread 0) ++
        (List.finRange 8).flatMap emptyPass ++ List.replicate 4 .coord) :=
  drainsExactlyOnce_allStates (by decide) (by decide) _ _ _ _
    (by decide +kernel)

end Uhs
