import Uhs.Core.Redirect

/-!
# Migration as a machine

The handshake between `mix_migrate_segment` and the migrate threads, one step
for each access to shared memory.  The mutex lets one migration run at a time,
so there is one coordinator.  There is one flag for each of the `T` threads
and the accesses to the atomics are sequentially consistent.
-/

namespace Uhs

open Support

/-- Program counter of `mix_segment_migration_begin` and
`mix_segment_migration_end`, called one after the other. -/
inductive CoordPc
  /-- no migration is being coordinated -/
  | idle
  /-- before `*(meta_data->migrate_segment_idx) = idx` -/
  | storeIdx (idx : Fin 4)
  /-- before the first `atomic_exchange` of the counter -/
  | zero (idx : Fin 4)
  /-- at the head of the loop that stores `migration[i] = true` -/
  | signal (idx : Fin 4) (i : ℕ)
  /-- at the test of the counter -/
  | wait (idx : Fin 4)
  /-- before the second `atomic_exchange` of the counter -/
  | rezero (idx : Fin 4)
  /-- before `mix_bitmap_clear` -/
  | clearBitmap (idx : Fin 4)
  /-- `mix_segment_migration_end` has returned -/
  | returned (idx : Fin 4)
  deriving DecidableEq

/-- Program counter of `migrate`. -/
inductive ThreadPc
  /-- at the test of `migration[thread_idx]` -/
  | test
  /-- before the read of the segment index -/
  | fetch
  /-- at the head of the loop over the buckets -/
  | scan (idx : Fin 4) (i : ℕ)
  /-- before `mix_hash_get_entry_by_idx` -/
  | pop (idx : Fin 4) (i : ℕ)
  /-- before `mix_buffer_read` -/
  | read (idx : Fin 4) (i : ℕ) (kv : MixKv)
  /-- before `mix_ssd_write` -/
  | ssdWrite (idx : Fin 4) (i : ℕ) (kv : MixKv)
  /-- before `mix_buffer_clear` -/
  | clear (idx : Fin 4) (i : ℕ) (kv : MixKv)
  /-- before `used_block_num--` -/
  | dec (idx : Fin 4) (i : ℕ)
  /-- before the increment of the counter -/
  | count (idx : Fin 4)
  /-- before `migration[thread_idx] = false` -/
  | reset
  deriving DecidableEq

/-- The store with the shared memory of a migration.  The last three fields
are a history that no step reads: the store when the migration was called, the
calls of `migrate_from_buffer_to_ssd` since then, and the threads that have
incremented the counter since then. -/
structure Machine (T : ℕ) (σ β : Type*) where
  store : Store σ β
  segmentIdx : Fin 4
  migration : Fin T → Bool
  completed : Fin 4 → ℤ
  coord : CoordPc
  threads : Fin T → ThreadPc
  migrateBuf : Fin T → β
  start : Store σ β
  calls : List MixKv
  counted : Fin T → Bool

variable {T : ℕ} {σ β : Type*}

namespace Machine

def goto (s : Machine T σ β) (t : Fin T) (pc : ThreadPc) : Machine T σ β :=
  { s with threads := Function.update s.threads t pc }

def setMetaData (s : Machine T σ β) (metaData : MixMetadata) :
    Machine T σ β :=
  { s with store := { s.store with metaData := metaData } }

def setDev (s : Machine T σ β) (dev : Devices σ β) : Machine T σ β :=
  { s with store := { s.store with dev := dev } }

def setStore (s : Machine T σ β) (store : Store σ β) : Machine T σ β :=
  { s with store := store }

/-- The counters are `atomic_int_fast8_t`. -/
def setCompleted (s : Machine T σ β) (idx : Fin 4) (n : ℤ) :
    Machine T σ β :=
  { s with completed := Function.update s.completed idx (Int.bmod n 256) }

end Machine

/-- Call `mix_migrate_segment(idx)`. -/
def callMigration (idx : Fin 4) (s : Machine T σ β) : Machine T σ β :=
  { s with
    coord := .storeIdx idx
    start := s.store
    calls := []
    counted := fun _ => false }

/-- One step of the coordinator; `none` while it spins. -/
def coordStep (s : Machine T σ β) : Option (Machine T σ β) :=
  match s.coord with
  | .idle => none
  | .storeIdx idx => some { s with segmentIdx := idx, coord := .zero idx }
  | .zero idx => some { s.setCompleted idx 0 with coord := .signal idx 0 }
  | .signal idx i =>
      if h : i < T then
        some { s with
          migration := Function.update s.migration ⟨i, h⟩ true
          coord := .signal idx (i + 1) }
      else
        some { s with coord := .wait idx }
  | .wait idx =>
      if s.completed idx < T then none
      else some { s with coord := .rezero idx }
  | .rezero idx =>
      some { s.setCompleted idx 0 with coord := .clearBitmap idx }
  | .clearBitmap idx =>
      some { s with
        store := mixSegmentMigrationEnd s.store idx
        coord := .returned idx }
  | .returned _ => some { s with coord := .idle }

variable [BlockDevice σ β]

/-- One step of migrate thread `t`; `none` while it spins. -/
def threadStep (t : Fin T) (s : Machine T σ β) : Option (Machine T σ β) :=
  match s.threads t with
  | .test => if s.migration t then some (s.goto t .fetch) else none
  | .fetch => some (s.goto t (.scan s.segmentIdx t.val))
  | .scan idx i =>
      if i < (s.store.metaData.hash idx).hashSize then
        some (s.goto t (.pop idx i))
      else
        some (s.goto t (.count idx))
  | .pop idx i =>
      let (kv, hash) :=
        mixHashGetEntryByIdx (s.store.metaData.hash idx) i
      let s := s.setMetaData (s.store.metaData.setHash idx hash)
      if IsSentinel kv then
        some (s.goto t (.scan idx (i + T)))
      else
        some { s.goto t (.read idx i kv) with calls := s.calls ++ [kv] }
  | .read idx i kv =>
      some { s.goto t (.ssdWrite idx i kv) with
        migrateBuf := Function.update s.migrateBuf t
          (mixBufferRead s.store.dev kv.2) }
  | .ssdWrite idx i kv =>
      let dev := mixSsdWrite s.store.dev (fun _ => s.migrateBuf t) 1 kv.1
      some ((s.setDev dev).goto t (.clear idx i kv))
  | .clear idx i kv =>
      some ((s.setDev (mixBufferClear s.store.dev kv.2)).goto t (.dec idx i))
  | .dec idx i =>
      some ((s.setMetaData (s.store.metaData.addUsed idx (-1))).goto t
        (.pop idx i))
  | .count idx =>
      some { (s.setCompleted idx (s.completed idx + 1)).goto t .reset with
        counted := Function.update s.counted t true }
  | .reset =>
      some { s.goto t .test with
        migration := Function.update s.migration t false }

/-- The steps of thread `t`. -/
inductive ThreadCases (t : Fin T) (s : Machine T σ β) :
    Machine T σ β → Prop
  | test (hpc : s.threads t = .test) (hflag : s.migration t = true) :
      ThreadCases t s (s.goto t .fetch)
  | fetch (hpc : s.threads t = .fetch) :
      ThreadCases t s (s.goto t (.scan s.segmentIdx t.val))
  | scan {idx : Fin 4} {i : ℕ} (hpc : s.threads t = .scan idx i)
      (hi : i < (s.store.metaData.hash idx).hashSize) :
      ThreadCases t s (s.goto t (.pop idx i))
  | scanEnd {idx : Fin 4} {i : ℕ} (hpc : s.threads t = .scan idx i)
      (hi : (s.store.metaData.hash idx).hashSize ≤ i) :
      ThreadCases t s (s.goto t (.count idx))
  | pop {idx : Fin 4} {i : ℕ} (hpc : s.threads t = .pop idx i)
      {kv : MixKv} {hash : MixHash}
      (hpop : mixHashGetEntryByIdx (s.store.metaData.hash idx) i =
        (kv, hash)) (hkv : ¬ IsSentinel kv) :
      ThreadCases t s
        { (s.setMetaData (s.store.metaData.setHash idx hash)).goto t
            (.read idx i kv) with calls := s.calls ++ [kv] }
  | popEnd {idx : Fin 4} {i : ℕ} (hpc : s.threads t = .pop idx i)
      {kv : MixKv} {hash : MixHash}
      (hpop : mixHashGetEntryByIdx (s.store.metaData.hash idx) i =
        (kv, hash)) (hkv : IsSentinel kv) :
      ThreadCases t s
        ((s.setMetaData (s.store.metaData.setHash idx hash)).goto t
          (.scan idx (i + T)))
  | read {idx : Fin 4} {i : ℕ} {kv : MixKv}
      (hpc : s.threads t = .read idx i kv) :
      ThreadCases t s
        { s.goto t (.ssdWrite idx i kv) with
          migrateBuf := Function.update s.migrateBuf t
            (mixBufferRead s.store.dev kv.2) }
  | ssdWrite {idx : Fin 4} {i : ℕ} {kv : MixKv}
      (hpc : s.threads t = .ssdWrite idx i kv) :
      ThreadCases t s ((s.setDev (mixSsdWrite s.store.dev
        (fun _ => s.migrateBuf t) 1 kv.1)).goto t (.clear idx i kv))
  | clear {idx : Fin 4} {i : ℕ} {kv : MixKv}
      (hpc : s.threads t = .clear idx i kv) :
      ThreadCases t s
        ((s.setDev (mixBufferClear s.store.dev kv.2)).goto t (.dec idx i))
  | dec {idx : Fin 4} {i : ℕ} (hpc : s.threads t = .dec idx i) :
      ThreadCases t s
        ((s.setMetaData (s.store.metaData.addUsed idx (-1))).goto t
          (.pop idx i))
  | count {idx : Fin 4} (hpc : s.threads t = .count idx) :
      ThreadCases t s
        { (s.setCompleted idx (s.completed idx + 1)).goto t .reset with
          counted := Function.update s.counted t true }
  | reset (hpc : s.threads t = .reset) :
      ThreadCases t s
        { s.goto t .test with
          migration := Function.update s.migration t false }

theorem threadStep_cases {s s' : Machine T σ β} {t : Fin T}
    (hstep : threadStep t s = some s') : ThreadCases t s s' := by
  unfold threadStep at hstep
  cases hpc : s.threads t with
  | test =>
      simp only [hpc] at hstep
      split at hstep
      · rename_i hflag
        cases hstep
        exact .test hpc hflag
      · cases hstep
  | fetch =>
      simp only [hpc, Option.some.injEq] at hstep
      subst hstep
      exact .fetch hpc
  | scan idx i =>
      simp only [hpc] at hstep
      split at hstep
      · rename_i hi
        cases hstep
        exact .scan hpc hi
      · rename_i hi
        cases hstep
        exact .scanEnd hpc (not_lt.mp hi)
  | pop idx i =>
      simp only [hpc] at hstep
      split at hstep
      · rename_i hkv
        cases hstep
        exact .popEnd hpc rfl hkv
      · rename_i hkv
        cases hstep
        exact .pop hpc rfl hkv
  | read idx i kv =>
      simp only [hpc, Option.some.injEq] at hstep
      subst hstep
      exact .read hpc
  | ssdWrite idx i kv =>
      simp only [hpc, Option.some.injEq] at hstep
      subst hstep
      exact .ssdWrite hpc
  | clear idx i kv =>
      simp only [hpc, Option.some.injEq] at hstep
      subst hstep
      exact .clear hpc
  | dec idx i =>
      simp only [hpc, Option.some.injEq] at hstep
      subst hstep
      exact .dec hpc
  | count idx =>
      simp only [hpc, Option.some.injEq] at hstep
      subst hstep
      exact .count hpc
  | reset =>
      simp only [hpc, Option.some.injEq] at hstep
      subst hstep
      exact .reset hpc

/-- A thread changes neither the coordinator nor the store of the start. -/
theorem threadStep_frame {s s' : Machine T σ β} {t : Fin T}
    (hstep : threadStep t s = some s') :
    s'.coord = s.coord ∧ s'.start = s.start := by
  cases threadStep_cases hstep
  all_goals exact ⟨rfl, rfl⟩

/-! ## Runs -/

/-- Events of a run: a call, a step of the coordinator, a step of a thread, or
any change of the store while no migration is running. -/
inductive MigrationEvent (T : ℕ) (σ β : Type*)
  | call (idx : Fin 4)
  | coord
  | thread (t : Fin T)
  | refill (store : Store σ β)

def migrationStep (s : Machine T σ β) :
    MigrationEvent T σ β → Option (Machine T σ β)
  | .call idx =>
      if s.coord = .idle then some (callMigration idx s) else none
  | .coord => coordStep s
  | .thread t => threadStep t s
  | .refill store =>
      if s.coord = .idle then some { s with store := store } else none

/-- The machine before the first migration.  `mix_metadata_init` writes none of
the flags `migration[]` of the threads; they are taken to be down, and each
thread has a flag and a row of `migrate_buf` of its own. -/
def Machine.initial (T : ℕ) (store : Store σ β) (segmentIdx : Fin 4)
    (migrateBuf : Fin T → β) : Machine T σ β where
  store := store
  segmentIdx := segmentIdx
  migration := fun _ => false
  completed := fun _ => 0
  coord := .idle
  threads := fun _ => .test
  migrateBuf := migrateBuf
  start := store
  calls := []
  counted := fun _ => false

/-! ## Busy threads -/

/-- The thread is past its flag test and has not yet counted. -/
def ThreadPc.Busy : ThreadPc → Prop
  | .test => False
  | .reset => False
  | _ => True

instance : DecidablePred ThreadPc.Busy
  | .test => isFalse fun h => h
  | .fetch => isTrue trivial
  | .scan _ _ => isTrue trivial
  | .pop _ _ => isTrue trivial
  | .read _ _ _ => isTrue trivial
  | .ssdWrite _ _ _ => isTrue trivial
  | .clear _ _ _ => isTrue trivial
  | .dec _ _ => isTrue trivial
  | .count _ => isTrue trivial
  | .reset => isFalse fun h => h

/-- The segment a thread works on. -/
def ThreadPc.segment : ThreadPc → Option (Fin 4)
  | .test => none
  | .fetch => none
  | .scan idx _ => some idx
  | .pop idx _ => some idx
  | .read idx _ _ => some idx
  | .ssdWrite idx _ _ => some idx
  | .clear idx _ _ => some idx
  | .dec idx _ => some idx
  | .count idx => some idx
  | .reset => none

/-- The pair a thread is copying out. -/
def ThreadPc.inHand : ThreadPc → Option MixKv
  | .read _ _ kv => some kv
  | .ssdWrite _ _ kv => some kv
  | .clear _ _ kv => some kv
  | _ => none

/-- Thread `t` has been signalled in the running migration of `idx`. -/
def CoordPc.Signalled (t : Fin T) (idx : Fin 4) : CoordPc → Prop
  | .signal idx' i => idx' = idx ∧ t.val < i
  | .wait idx' => idx' = idx
  | _ => False

/-- The migration of `idx` has been called and has not returned. -/
def CoordPc.Active (idx : Fin 4) : CoordPc → Prop
  | .storeIdx idx' => idx' = idx
  | .zero idx' => idx' = idx
  | .signal idx' _ => idx' = idx
  | .wait idx' => idx' = idx
  | .rezero idx' => idx' = idx
  | .clearBitmap idx' => idx' = idx
  | _ => False

end Uhs
