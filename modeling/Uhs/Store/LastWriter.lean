import Uhs.Store.Contents

/-!
# The last writer of an SSD block

Once the buffer has been emptied, every block of the SSD holds the data of the
write that was issued last, as long as no write went to the SSD under a
buffered block and every migration moved its data.
-/

namespace Uhs

open Support

variable {T : ℕ} {σ β : Type*} [BlockDevice σ β]

/-- No call is running, the buffer queues are empty, and all that was buffered
has been migrated. -/
structure System.Drained (s : System T σ β) : Prop where
  calls : ∀ c, ¬ s.Running c
  queues : ∀ i, s.bufferQueue i = []
  coord : s.machine.coord = .idle
  entries : ∀ j, (s.machine.store.metaData.hash j).entries = []

/-- A drained store has on the SSD what has been written last. -/
def System.LastWriterWins (s : System T σ β) : Prop :=
  s.Drained → ∀ lba,
    s.machine.store.dev.ssdBlock lba = s.latest (lba + nvmThreshold)

variable {s : System T σ β}

theorem ContentsInv.lastWriterWins (h : ContentsInv s) : s.LastWriterWins := by
  intro hdrained lba
  obtain ⟨b, hb⟩ : ∃ b, b = lba + nvmThreshold := ⟨_, rfl⟩
  have hholds := h.stored b fun c hover => hdrained.calls c hover.1
  have hssd : ¬ b < nvmThreshold := by omega
  have hlba : b - nvmThreshold = lba := by omega
  rw [System.holds_ssd hssd, hlba] at hholds
  rw [← hb]
  refine hholds.unbuffered ?_
  rintro p ⟨j, v, hv, -⟩
  have hactive : ¬ s.machine.coord.Active j := by
    rw [hdrained.coord]
    exact id
  rw [h.cache.machine.handshake.live_eq_entries hactive,
    hdrained.entries j] at hv
  exact List.not_mem_nil hv

/-- In every run of clients, workers and migrations in which writes to a block
do not overlap in time, no write goes to the SSD under a buffered block, and
migrations are called where they move the data, the last writer wins. -/
theorem lastWriterWins_allStates {blockNum : ℕ} (hsize : ValidSize blockNum)
    (migration : Fin 4 → Bool) (dev : Devices σ β) (segmentIdx : Fin 4)
    (migrateBuf : Fin T → β) (inflight : Fin 16 → ℤ) (dst : Fin 16 → ℕ → β)
    (request : Fin 16 → Request β) (hpos : 0 < T) (hT : T ≤ 127)
    {events : List (SystemEvent T β)}
    (hapart : AllSteps systemStep System.CallsApart
      (System.initial T (freshStore blockNum migration dev) segmentIdx
        migrateBuf inflight dst request) events)
    (hsafe : AllSteps systemStep System.MovesSafely
      (System.initial T (freshStore blockNum migration dev) segmentIdx
        migrateBuf inflight dst request) events) :
    AllStates systemStep System.LastWriterWins
      (System.initial T (freshStore blockNum migration dev) segmentIdx
        migrateBuf inflight dst request) events := by
  refine (allStates_of_allSteps (I := ContentsInv) ?_
    (initial_contentsInv hsize migration dev segmentIdx migrateBuf inflight
      dst request) (hapart.and hsafe)).mono fun s h => h.lastWriterWins
  intro s event s' h hevent hstep
  exact systemStep_contentsInv h hpos hT hevent.1 hevent.2 hstep

/-! ## Closed runs -/

instance (s : System T σ β) : Decidable s.Drained :=
  decidable_of_iff
    ((∀ c, ¬ s.Running c) ∧ (∀ i, s.bufferQueue i = []) ∧
      s.machine.coord = .idle ∧
      ∀ j, (s.machine.store.metaData.hash j).entries = [])
    ⟨fun h => ⟨h.1, h.2.1, h.2.2.1, h.2.2.2⟩,
      fun h => ⟨h.calls, h.queues, h.coord, h.entries⟩⟩

/-- The steps of migrate thread `t` from its flag test on, where thread `4`
finds one block. -/
def threadSteps (t : Fin 8) : List (SystemEvent 8 ℕ) :=
  List.replicate ((if t.val < 4 then 26 else 24) + if t.val = 4 then 10 else 5)
    (.thread t)

/-- A migration of segment `0`, in which block `0` is buffered. -/
def migrateSteps : List (SystemEvent 8 ℕ) :=
  [.migrate 0, .worker 0] ++ List.replicate 11 .coord ++
    (List.finRange 8).flatMap threadSteps ++ List.replicate 3 .coord ++
    [.worker 0]

/-- A buffered write to block `0`, a write to the blocks `lba` and `lba + 1`,
and a migration. -/
def lastWriterSteps (lba : ℕ) : List (SystemEvent 8 ℕ) :=
  bufferedCall 0 5 ++ .call 0 (writeRequest lba 2 7) :: largeSteps ++
    migrateSteps

theorem lastWriterWins_allStates_example :
    AllStates systemStep System.LastWriterWins freshSystem
      (lastWriterSteps 4) :=
  lastWriterWins_allStates (by decide) _ _ _ _ _ _ _ (by decide) (by decide)
    (by decide +kernel) (by decide +kernel)

/-- The state after the migration. -/
def overtakenSystem : System 8 (ℕ → ℕ) ℕ :=
  (runOps systemStep freshSystem (lastWriterSteps 0)).get (by decide +kernel)

/-- The write to the blocks `0` and `1` is overtaken by the migration of what
was buffered for block `0` before. -/
theorem lastWriterWins_fails :
    AllSteps systemStep System.CallsApart freshSystem (lastWriterSteps 0) ∧
      ¬ AllStates systemStep System.LastWriterWins freshSystem
        (lastWriterSteps 0) := by
  refine ⟨by decide +kernel, fun hall => ?_⟩
  have hfresh : System.LastWriterWins freshSystem :=
    (initial_contentsInv (by decide) _ _ _ _ _ _ _).lastWriterWins
  have hwins : overtakenSystem.LastWriterWins :=
    hall.of_runOps hfresh (Option.some_get _).symm
  exact absurd (hwins (by decide +kernel) 0) (by decide +kernel)

end Uhs
