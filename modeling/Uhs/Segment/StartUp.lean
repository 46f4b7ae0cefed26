import Uhs.Segment.Agreement
import Uhs.Segment.Recovery
import Uhs.Support.Counting

/-!
# Start-up

Model of `mix_rebuild` as `mix_init_scheduler` calls it, together with the four
`nvm_worker` threads that have just been created.  The caller clears every
record, raises the flag `rebuild`, broadcasts once and spins until four workers
have counted; a worker waits for the flag, reads the records of its segment and
counts.  The broadcast is made without the mutex of any worker, so it is lost
on a worker that has read the flag and not yet gone to sleep.

The four workers wait on one condition variable, each with a mutex of its own,
and the broadcast wakes all that sleep.  Spurious wake-ups of
`pthread_cond_wait` are left out.
-/

namespace Uhs

open Support

/-- Where `mix_rebuild` stands. -/
inductive RebuildPc
  /-- the segments left to clear, and the next slot of the first of them -/
  | clear (idxs : List (Fin 4)) (i : ℕ)
  | setFlag
  | broadcast
  | spin
  | returned
  deriving DecidableEq

/-- Where an `nvm_worker` stands in front of its main loop. -/
inductive StarterPc
  /-- about to read the flag, with its mutex -/
  | test
  /-- about to call `pthread_cond_wait` -/
  | wait
  | blocked
  /-- the next slot of `mix_buffer_rebuild` -/
  | scan (off : ℕ)
  | count
  | serving
  deriving DecidableEq

/-- The process during start-up. -/
structure StartUp (σ β : Type*) where
  store : Store σ β
  rebuild : Bool
  rebuildNum : ℕ
  main : RebuildPc
  workers : Fin 4 → StarterPc

variable {σ β : Type*}

/-- The process when `mix_init_scheduler` calls `mix_rebuild`. -/
def startUpInit (blockNum : ℕ) (migration : Fin 4 → Bool)
    (dev : Devices σ β) : StartUp σ β where
  store := { metaData := mixMetadataInit blockNum migration, dev := dev }
  rebuild := false
  rebuildNum := 0
  main := .clear (List.finRange 4) 0
  workers := fun _ => .test

/-- A sleeping worker wakes and reads the flag again. -/
def StarterPc.wake : StarterPc → StarterPc
  | .blocked => .test
  | pc => pc

/-- `mix_buffer_clear`. -/
def StartUp.clearBlock (s : StartUp σ β) (block : ℕ) : StartUp σ β :=
  { s with store := { s.store with dev := mixBufferClear s.store.dev block } }

/-- One step of `mix_rebuild`. -/
def mainStep (s : StartUp σ β) : Option (StartUp σ β) :=
  match s.main with
  | .clear [] _ => some { s with main := .setFlag }
  | .clear (idx :: idxs) i =>
      if i < s.store.metaData.perBlockNum then
        some { s.clearBlock (s.store.metaData.bufferBlock idx i) with
          main := .clear (idx :: idxs) (i + 1) }
      else some { s with main := .clear idxs 0 }
  | .setFlag => some { s with rebuild := true, main := .broadcast }
  | .broadcast =>
      some { s with workers := fun i => (s.workers i).wake, main := .spin }
  | .spin =>
      if s.rebuildNum < segmentNum then some s
      else some { s with main := .returned }
  | .returned => none

/-- The body of the loop of `mix_buffer_rebuild`. -/
def rebuildSlot (dev : Devices σ β) (idx : Fin 4) (off : ℕ)
    (metaData : MixMetadata) : Option MixMetadata :=
  let bufferMeta := mixBufferGetMeta dev (metaData.bufferBlock idx off)
  if bufferMeta.status % 2 = 1 then
    let metaData := metaData.setBitmap idx
      (mixBitmapSetBit (metaData.segments idx).bitmap off).2
    let metaData := metaData.addUsed idx 1
    (mixHashPut (metaData.hash idx) (bufferMeta.offset % 2 ^ 32) off).map
      (metaData.setHash idx)
  else
    some metaData

/-- Move worker `i`. -/
def StartUp.goto (s : StartUp σ β) (i : Fin 4) (pc : StarterPc) :
    StartUp σ β :=
  { s with workers := Function.update s.workers i pc }

theorem StartUp.goto_self (s : StartUp σ β) (i : Fin 4) (pc : StarterPc) :
    (s.goto i pc).workers i = pc := by
  simp [StartUp.goto]

/-- One step of worker `i`. -/
def starterStep (s : StartUp σ β) (i : Fin 4) : Option (StartUp σ β) :=
  match s.workers i with
  | .test => some (s.goto i (if s.rebuild then .scan 0 else .wait))
  | .wait => some (s.goto i .blocked)
  | .blocked => none
  | .scan off =>
      if off < s.store.metaData.perBlockNum then
        (rebuildSlot s.store.dev i off s.store.metaData).map fun metaData =>
          { s.goto i (.scan (off + 1)) with
            store := { s.store with metaData := metaData } }
      else some (s.goto i .count)
  | .count => some { s.goto i .serving with rebuildNum := s.rebuildNum + 1 }
  | .serving => none

/-- Whose turn it is. -/
inductive StartUpEvent
  | main
  | worker (i : Fin 4)
  deriving DecidableEq

def startUpStep (s : StartUp σ β) : StartUpEvent → Option (StartUp σ β)
  | .main => mainStep s
  | .worker i => starterStep s i

/-! ## What start-up should do -/

/-- A slot of the area of the records. -/
def MixMetadata.IsSlot (m : MixMetadata) (p : ℕ) : Prop :=
  ∃ (idx : Fin 4) (v : ℕ), v < m.perBlockNum ∧ m.bufferBlock idx v = p

/-- The index of every segment is that of the valid records of the image, and
the status words are those of the image. -/
structure Restored (image : Devices σ β) (s : Store σ β) : Prop where
  mapped : ∀ (idx : Fin 4), ∀ v < s.metaData.perBlockNum,
    s.metaData.ValidSlot image idx v →
      mixHashGet (s.metaData.hash idx)
        (lbaKey (mixBufferGetMeta image
          (s.metaData.bufferBlock idx v)).offset) = v
  missing : ∀ (idx : Fin 4) (key : ℕ),
    (∀ v < s.metaData.perBlockNum, s.metaData.ValidSlot image idx v →
      lbaKey (mixBufferGetMeta image
        (s.metaData.bufferBlock idx v)).offset ≠ key) →
    mixHashGet (s.metaData.hash idx) key = -1
  bit : ∀ (idx : Fin 4) (nr : ℕ),
    mixBitmapTestBit (s.metaData.segments idx).bitmap nr = true ↔
      nr < s.metaData.perBlockNum ∧ s.metaData.ValidSlot image idx nr
  used : ∀ idx : Fin 4, (s.metaData.segments idx).usedBlockNum =
    ((List.range s.metaData.perBlockNum).filter fun v =>
      s.metaData.ValidSlot image idx v).length
  status : ∀ p, s.metaData.IsSlot p →
    (s.dev.bufferMeta p).status = (image.bufferMeta p).status

/-- Start-up can still end, and whenever it ends the image is restored. -/
def KeepsImage (image : Devices σ β) (s : StartUp σ β) : Prop :=
  (∃ evs s', runOps startUpStep s evs = some s' ∧ s'.main = .returned) ∧
    ∀ evs s', runOps startUpStep s evs = some s' → s'.main = .returned →
      Restored image s'.store

/-- At the broadcast no worker stands between its test of the flag and its
wait. -/
def ReachesAll (s : StartUp σ β) (ev : StartUpEvent) : Prop :=
  ev = .main → s.main = .broadcast → ∀ i, s.workers i ≠ .wait

instance (s : StartUp σ β) : DecidablePred (ReachesAll s) := fun _ =>
  inferInstanceAs (Decidable (_ → _ → ∀ _, _))

/-- No record of the image has a status. -/
def NoStatus (m : MixMetadata) (image : Devices σ β) : Prop :=
  ∀ p, m.IsSlot p → (image.bufferMeta p).status = 0

/-! ## The invariant -/

/-- The segments left to clear, and the next slot of the first of them. -/
def RebuildPc.left : RebuildPc → List (Fin 4) × ℕ
  | .clear idxs i => (idxs, i)
  | _ => ([], 0)

/-- The flag has been raised. -/
def RebuildPc.Flagged : RebuildPc → Prop
  | .broadcast => True
  | .spin => True
  | .returned => True
  | _ => False

/-- The broadcast has been made. -/
def RebuildPc.Announced : RebuildPc → Prop
  | .spin => True
  | .returned => True
  | _ => False

/-- Waiting for a broadcast. -/
def StarterPc.Asleep (pc : StarterPc) : Prop := pc = .wait ∨ pc = .blocked

/-- A slot the clearing loop has passed. -/
def RebuildPc.Passed (pc : RebuildPc) (idx : Fin 4) (v : ℕ) : Prop :=
  idx ∉ pc.left.1 ∨ pc.left.1.head? = some idx ∧ v < pc.left.2

/-- Nothing is entered before all records are cleared, so nothing ever is. -/
structure StartInv (m : MixMetadata) (image : Devices σ β) (s : StartUp σ β) :
    Prop where
  metaData : s.store.metaData = m
  status : ∀ p, (s.store.dev.bufferMeta p).status =
    (image.bufferMeta p).status ∨
      m.IsSlot p ∧ (s.store.dev.bufferMeta p).status = 0
  cleared : ∀ (idx : Fin 4), ∀ v < m.perBlockNum, s.main.Passed idx v →
    (s.store.dev.bufferMeta (m.bufferBlock idx v)).status = 0
  flag : s.rebuild = true ↔ s.main.Flagged
  early : s.rebuild = false → ∀ i, s.workers i = .test ∨ (s.workers i).Asleep
  counted : s.rebuildNum = countWith (fun pc => pc = .serving) s.workers
  ended : s.main = .returned → ∀ i, s.workers i = .serving

variable {m : MixMetadata} {image : Devices σ β} {s s' : StartUp σ β}
  {i : Fin 4}

/-- Once the flag is raised no record has a status. -/
theorem StartInv.noStatus (h : StartInv m image s) (hflag : s.main.Flagged) :
    NoStatus m s.store.dev := by
  rintro p ⟨idx, v, hv, rfl⟩
  apply h.cleared idx v hv
  left
  cases hmain : s.main with
  | clear idxs i =>
      rw [hmain] at hflag
      exact hflag.elim
  | setFlag => simp [RebuildPc.left]
  | broadcast => simp [RebuildPc.left]
  | spin => simp [RebuildPc.left]
  | returned => simp [RebuildPc.left]

/-- A record without a status is passed over. -/
theorem rebuildSlot_of_noStatus {dev : Devices σ β} (h : NoStatus m dev)
    {off : ℕ} (hoff : off < m.perBlockNum) :
    rebuildSlot dev i off m = some m := by
  have hzero : (mixBufferGetMeta dev (m.bufferBlock i off)).status = 0 :=
    h _ ⟨i, off, hoff, rfl⟩
  simp [rebuildSlot, hzero]

theorem startUpInit_inv (blockNum : ℕ) (migration : Fin 4 → Bool)
    (image : Devices σ β) :
    StartInv (mixMetadataInit blockNum migration) image
      (startUpInit blockNum migration image) where
  metaData := rfl
  status := fun p => Or.inl rfl
  cleared := by
    rintro idx v - (hidx | ⟨-, hv⟩)
    · exact absurd (List.mem_finRange idx) hidx
    · exact absurd hv (Nat.not_lt_zero v)
  flag := by simp [startUpInit, RebuildPc.Flagged]
  early := fun _ i => Or.inl rfl
  counted := by
    symm
    rw [startUpInit, countWith_eq_zero_iff]
    simp
  ended := by simp [startUpInit]

/-! ## Steps of the caller -/

/-- What `mix_rebuild` does in one step. -/
theorem mainStep_cases (hstep : mainStep s = some s') :
    (∃ i, s.main = .clear [] i ∧ s' = { s with main := .setFlag }) ∨
    (∃ idx idxs i, s.main = .clear (idx :: idxs) i ∧
      i < s.store.metaData.perBlockNum ∧
      s' = { s.clearBlock (s.store.metaData.bufferBlock idx (i : ℕ)) with
        main := .clear (idx :: idxs) (i + 1) }) ∨
    (∃ idx idxs i, s.main = .clear (idx :: idxs) i ∧
      s.store.metaData.perBlockNum ≤ i ∧
      s' = { s with main := .clear idxs 0 }) ∨
    (s.main = .setFlag ∧
      s' = { s with rebuild := true, main := .broadcast }) ∨
    (s.main = .broadcast ∧
      s' = { s with workers := fun i => (s.workers i).wake, main := .spin }) ∨
    (s.main = .spin ∧ s' = s) ∨
    s.main = .spin ∧ segmentNum ≤ s.rebuildNum ∧
      s' = { s with main := .returned } := by
  unfold mainStep at hstep
  split at hstep
  · rename_i i hmain
    exact Or.inl ⟨i, hmain, (Option.some.inj hstep).symm⟩
  · rename_i idx idxs i hmain
    split at hstep
    · rename_i hi
      exact Or.inr (Or.inl ⟨idx, idxs, i, hmain, hi,
        (Option.some.inj hstep).symm⟩)
    · rename_i hi
      exact Or.inr (Or.inr (Or.inl ⟨idx, idxs, i, hmain, not_lt.mp hi,
        (Option.some.inj hstep).symm⟩))
  · rename_i hmain
    exact Or.inr (Or.inr (Or.inr (Or.inl
      ⟨hmain, (Option.some.inj hstep).symm⟩)))
  · rename_i hmain
    exact Or.inr (Or.inr (Or.inr (Or.inr (Or.inl
      ⟨hmain, (Option.some.inj hstep).symm⟩))))
  · rename_i hmain
    split at hstep
    · exact Or.inr (Or.inr (Or.inr (Or.inr (Or.inr (Or.inl
        ⟨hmain, (Option.some.inj hstep).symm⟩)))))
    · rename_i hnum
      exact Or.inr (Or.inr (Or.inr (Or.inr (Or.inr (Or.inr
        ⟨hmain, not_lt.mp hnum, (Option.some.inj hstep).symm⟩)))))
  · cases hstep

/-- The flag is down while records are left to clear. -/
theorem StartInv.rebuild_eq_false (h : StartInv m image s)
    (hflag : ¬ s.main.Flagged) : s.rebuild = false :=
  Bool.eq_false_iff.mpr (mt h.flag.mp hflag)

/-- Clearing one record. -/
theorem StartInv.clearRecord (h : StartInv m image s) {idx : Fin 4}
    {idxs : List (Fin 4)} {i : ℕ} (hmain : s.main = .clear (idx :: idxs) i)
    (hi : i < m.perBlockNum) :
    StartInv m image { s.clearBlock (m.bufferBlock idx (i : ℕ)) with
      main := .clear (idx :: idxs) (i + 1) } where
  metaData := h.metaData
  status := by
    intro p
    simp only [StartUp.clearBlock, mixBufferClear_status]
    split
    · rename_i hp
      exact Or.inr ⟨⟨idx, i, hi, hp.symm⟩, rfl⟩
    · exact h.status p
  cleared := by
    intro j v hv hpassed
    simp only [StartUp.clearBlock, mixBufferClear_status]
    split
    · rfl
    · rename_i hp
      apply h.cleared j v hv
      rw [hmain]
      rcases hpassed with hj | ⟨hj, hvi⟩
      · exact Or.inl hj
      · have hji : idx = j := Option.some.inj hj
        subst hji
        have hne : v ≠ i := by
          rintro rfl
          exact hp rfl
        exact Or.inr ⟨rfl, Nat.lt_of_le_of_ne (Nat.lt_succ_iff.mp hvi) hne⟩
  flag := by
    have hdown := h.rebuild_eq_false (by simp [hmain, RebuildPc.Flagged])
    simp [StartUp.clearBlock, hdown, RebuildPc.Flagged]
  early := h.early
  counted := h.counted
  ended := by simp

/-- Going on to the next segment. -/
theorem StartInv.nextSegment (h : StartInv m image s) {idx : Fin 4}
    {idxs : List (Fin 4)} {i : ℕ} (hmain : s.main = .clear (idx :: idxs) i)
    (hi : m.perBlockNum ≤ i) :
    StartInv m image { s with main := .clear idxs 0 } where
  metaData := h.metaData
  status := h.status
  cleared := by
    intro j v hv hpassed
    apply h.cleared j v hv
    rw [hmain]
    rcases hpassed with hj | ⟨-, hv'⟩
    · by_cases hji : j = idx
      · subst hji
        exact Or.inr ⟨rfl, lt_of_lt_of_le hv hi⟩
      · left
        intro hmem
        rcases List.mem_cons.mp hmem with heq | hmem
        · exact hji heq
        · exact hj hmem
    · exact absurd hv' (Nat.not_lt_zero v)
  flag := by
    have hdown := h.rebuild_eq_false (by simp [hmain, RebuildPc.Flagged])
    simp [hdown, RebuildPc.Flagged]
  early := h.early
  counted := h.counted
  ended := by simp

theorem StarterPc.wake_eq_serving_iff (pc : StarterPc) :
    pc.wake = .serving ↔ pc = .serving := by
  cases pc <;> simp [StarterPc.wake]

/-- All four workers have counted. -/
theorem StartInv.serving_of_le (h : StartInv m image s)
    (hnum : segmentNum ≤ s.rebuildNum) (i : Fin 4) :
    s.workers i = .serving := by
  have hall : Fintype.card (Fin 4) ≤
      countWith (fun pc => pc = .serving) s.workers := by
    rw [← h.counted, Fintype.card_fin]
    exact hnum
  exact forall_of_card_le_countWith hall i

theorem StartInv.of_mainStep (h : StartInv m image s)
    (hstep : mainStep s = some s') : StartInv m image s' := by
  rcases mainStep_cases hstep with ⟨i, hmain, rfl⟩ |
    ⟨idx, idxs, i, hmain, hi, rfl⟩ | ⟨idx, idxs, i, hmain, hi, rfl⟩ |
    ⟨hmain, rfl⟩ | ⟨hmain, rfl⟩ | ⟨hmain, rfl⟩ | ⟨hmain, hnum, rfl⟩
  · refine ⟨h.metaData, h.status, ?_, ?_, h.early, h.counted, by simp⟩
    · intro idx v hv _
      apply h.cleared idx v hv
      rw [hmain]
      exact Or.inl (by simp [RebuildPc.left])
    · have hdown := h.rebuild_eq_false (by simp [hmain, RebuildPc.Flagged])
      simp [hdown, RebuildPc.Flagged]
  · rw [h.metaData] at hi ⊢
    exact h.clearRecord hmain hi
  · rw [h.metaData] at hi
    exact h.nextSegment hmain hi
  · refine ⟨h.metaData, h.status, ?_, ?_, by simp, h.counted, by simp⟩
    · intro idx v hv _
      apply h.cleared idx v hv
      rw [hmain]
      exact Or.inl (by simp [RebuildPc.left])
    · simp [RebuildPc.Flagged]
  · have hflag := h.flag
    have hcleared := h.cleared
    rw [hmain] at hflag hcleared
    have hup : s.rebuild = true := hflag.mpr trivial
    refine ⟨h.metaData, h.status, hcleared, hflag, ?_, ?_, by simp⟩
    · intro hdown
      exact Bool.noConfusion (hup.symm.trans hdown)
    · rw [h.counted]
      simp only [countWith, StarterPc.wake_eq_serving_iff]
  · exact h
  · have hflag := h.flag
    have hcleared := h.cleared
    rw [hmain] at hflag hcleared
    exact ⟨h.metaData, h.status, hcleared, hflag, h.early, h.counted,
      fun _ => h.serving_of_le hnum⟩

/-! ## Steps of the workers -/

/-- A worker that has gone past its test has seen the flag up. -/
theorem StartInv.rebuild_of_past (h : StartInv m image s)
    (htest : s.workers i ≠ .test) (hawake : ¬ (s.workers i).Asleep) :
    s.rebuild = true := by
  by_contra hdown
  rcases h.early (Bool.eq_false_iff.mpr hdown) i with heq | hasleep
  · exact htest heq
  · exact hawake hasleep

/-- What a worker does in one step once the records are as they must be. -/
theorem StartInv.starterStep_cases (h : StartInv m image s)
    (hstep : starterStep s i = some s') :
    (s.workers i = .test ∧
      s' = s.goto i (if s.rebuild then .scan 0 else .wait)) ∨
    (s.workers i = .wait ∧ s' = s.goto i .blocked) ∨
    (∃ off, s.workers i = .scan off ∧ off < m.perBlockNum ∧
      s' = s.goto i (.scan (off + 1))) ∨
    (∃ off, s.workers i = .scan off ∧ m.perBlockNum ≤ off ∧
      s' = s.goto i .count) ∨
    s.workers i = .count ∧
      s' = { s.goto i .serving with rebuildNum := s.rebuildNum + 1 } := by
  cases hpc : s.workers i with
  | test =>
      simp only [starterStep, hpc, Option.some.injEq] at hstep
      exact Or.inl ⟨rfl, hstep.symm⟩
  | wait =>
      simp only [starterStep, hpc, Option.some.injEq] at hstep
      exact Or.inr (Or.inl ⟨rfl, hstep.symm⟩)
  | blocked => simp [starterStep, hpc] at hstep
  | scan off =>
      have hup := h.rebuild_of_past (i := i) (by simp [hpc])
        (by simp [StarterPc.Asleep, hpc])
      simp only [starterStep, hpc, h.metaData] at hstep
      split at hstep
      · rename_i hoff
        rw [rebuildSlot_of_noStatus (h.noStatus (h.flag.mp hup)) hoff,
          Option.map_some, Option.some.injEq] at hstep
        refine Or.inr (Or.inr (Or.inl ⟨off, rfl, hoff, ?_⟩))
        rw [← hstep, ← h.metaData]
        rfl
      · rename_i hoff
        exact Or.inr (Or.inr (Or.inr (Or.inl
          ⟨off, rfl, not_lt.mp hoff, (Option.some.inj hstep).symm⟩)))
  | count =>
      simp only [starterStep, hpc, Option.some.injEq] at hstep
      exact Or.inr (Or.inr (Or.inr (Or.inr ⟨rfl, hstep.symm⟩)))
  | serving => simp [starterStep, hpc] at hstep

/-- A worker that has not counted may go on to anything but its main loop. -/
theorem StartInv.goto (h : StartInv m image s) {pc : StarterPc}
    (hold : s.workers i ≠ .serving) (hnew : pc ≠ .serving)
    (hearly : s.rebuild = false → pc = .test ∨ pc.Asleep) :
    StartInv m image (s.goto i pc) where
  metaData := h.metaData
  status := h.status
  cleared := h.cleared
  flag := h.flag
  early := by
    intro hdown j
    by_cases hj : j = i
    · subst hj
      simpa [StartUp.goto] using hearly hdown
    · simpa [StartUp.goto, hj] using h.early hdown j
  counted := by
    have hcount := countWith_update (p := fun pc => pc = StarterPc.serving)
      s.workers i pc
    rw [if_neg hold, if_neg hnew] at hcount
    exact h.counted.trans hcount.symm
  ended := by
    intro hmain
    exact absurd (h.ended hmain i) hold

theorem StartInv.count (h : StartInv m image s)
    (hpc : s.workers i = .count) :
    StartInv m image
      { s.goto i .serving with rebuildNum := s.rebuildNum + 1 } where
  metaData := h.metaData
  status := h.status
  cleared := h.cleared
  flag := h.flag
  early := by
    have hup := h.rebuild_of_past (i := i) (by simp [hpc])
      (by simp [StarterPc.Asleep, hpc])
    intro hdown
    exact absurd hup (Bool.eq_false_iff.mp hdown)
  counted := by
    have hcount := countWith_update (p := fun pc => pc = StarterPc.serving)
      s.workers i .serving
    rw [if_neg (by simp [hpc]), if_pos rfl, Nat.add_zero] at hcount
    exact (congrArg (· + 1) h.counted).trans hcount.symm
  ended := by
    intro hmain
    have hserving := h.ended hmain i
    rw [hpc] at hserving
    cases hserving

theorem StartInv.of_starterStep (h : StartInv m image s)
    (hstep : starterStep s i = some s') : StartInv m image s' := by
  rcases h.starterStep_cases hstep with ⟨hpc, rfl⟩ | ⟨hpc, rfl⟩ |
    ⟨off, hpc, hoff, rfl⟩ | ⟨off, hpc, hoff, rfl⟩ | ⟨hpc, rfl⟩
  · apply h.goto (by simp [hpc])
    · split <;> simp
    · intro hdown
      right
      left
      simp [hdown]
  · apply h.goto (by simp [hpc]) (by simp)
    exact fun _ => Or.inr (Or.inr rfl)
  · have hup := h.rebuild_of_past (i := i) (by simp [hpc])
      (by simp [StarterPc.Asleep, hpc])
    apply h.goto (by simp [hpc]) (by simp)
    intro hdown
    exact absurd hup (Bool.eq_false_iff.mp hdown)
  · have hup := h.rebuild_of_past (i := i) (by simp [hpc])
      (by simp [StarterPc.Asleep, hpc])
    apply h.goto (by simp [hpc]) (by simp)
    intro hdown
    exact absurd hup (Bool.eq_false_iff.mp hdown)
  · exact h.count hpc

theorem StartInv.of_step (h : StartInv m image s) {ev : StartUpEvent}
    (hstep : startUpStep s ev = some s') : StartInv m image s' := by
  cases ev with
  | main => exact h.of_mainStep hstep
  | worker i => exact h.of_starterStep hstep

/-! ## Missing the broadcast -/

theorem RebuildPc.Announced.flagged {pc : RebuildPc} (h : pc.Announced) :
    pc.Flagged := by
  cases pc with
  | clear idxs i => exact h.elim
  | setFlag => exact h.elim
  | broadcast => exact h.elim
  | spin => trivial
  | returned => trivial

/-- A worker sleeps after the broadcast. -/
def StartUp.Missed (s : StartUp σ β) : Prop :=
  s.main.Announced ∧ ∃ i, (s.workers i).Asleep

theorem StarterPc.asleep_wake_iff (pc : StarterPc) :
    pc.wake.Asleep ↔ pc = .wait := by
  cases pc <;> simp [StarterPc.wake, StarterPc.Asleep]

/-- Which workers sleep changes only while the flag is down. -/
theorem StartInv.asleep_iff (h : StartInv m image s) (hup : s.rebuild = true)
    (hstep : starterStep s i = some s') (j : Fin 4) :
    (s'.workers j).Asleep ↔ (s.workers j).Asleep := by
  by_cases hj : j = i
  · subst hj
    rcases h.starterStep_cases hstep with ⟨hpc, rfl⟩ | ⟨hpc, rfl⟩ |
      ⟨off, hpc, hoff, rfl⟩ | ⟨off, hpc, hoff, rfl⟩ | ⟨hpc, rfl⟩
    all_goals simp [StartUp.goto, StarterPc.Asleep, hpc, hup]
  · rcases h.starterStep_cases hstep with ⟨hpc, rfl⟩ | ⟨hpc, rfl⟩ |
      ⟨off, hpc, hoff, rfl⟩ | ⟨off, hpc, hoff, rfl⟩ | ⟨hpc, rfl⟩
    all_goals simp [StartUp.goto, hj]

theorem StartInv.main_starterStep (h : StartInv m image s)
    (hstep : starterStep s i = some s') : s'.main = s.main := by
  rcases h.starterStep_cases hstep with ⟨hpc, rfl⟩ | ⟨hpc, rfl⟩ |
    ⟨off, hpc, hoff, rfl⟩ | ⟨off, hpc, hoff, rfl⟩ | ⟨hpc, rfl⟩
  all_goals rfl

/-- A worker misses the broadcast in the step that makes it, or never. -/
theorem StartInv.missed_iff (h : StartInv m image s) {ev : StartUpEvent}
    (hstep : startUpStep s ev = some s') :
    ¬ s'.Missed ↔ ¬ s.Missed ∧ ReachesAll s ev := by
  cases ev with
  | worker i =>
      have hstep : starterStep s i = some s' := hstep
      have hmain := h.main_starterStep hstep
      have hreaches : ReachesAll s (.worker i) := fun heq => by cases heq
      have hmissed : s'.Missed ↔ s.Missed := by
        rw [StartUp.Missed, StartUp.Missed, hmain]
        refine and_congr_right fun hannounced => ?_
        have hup := h.flag.mpr hannounced.flagged
        exact exists_congr (h.asleep_iff hup hstep)
      rw [hmissed]
      exact ⟨fun hnot => ⟨hnot, hreaches⟩, fun hnot => hnot.1⟩
  | main =>
      rcases mainStep_cases hstep with ⟨i, hmain, rfl⟩ |
        ⟨idx, idxs, i, hmain, hi, rfl⟩ | ⟨idx, idxs, i, hmain, hi, rfl⟩ |
        ⟨hmain, rfl⟩ | ⟨hmain, rfl⟩ | ⟨hmain, rfl⟩ | ⟨hmain, hnum, rfl⟩
      · simp [StartUp.Missed, ReachesAll, hmain, RebuildPc.Announced]
      · simp [StartUp.Missed, ReachesAll, hmain, RebuildPc.Announced]
      · simp [StartUp.Missed, ReachesAll, hmain, RebuildPc.Announced]
      · simp [StartUp.Missed, ReachesAll, hmain, RebuildPc.Announced]
      · simp [StartUp.Missed, ReachesAll, hmain, RebuildPc.Announced,
          StarterPc.asleep_wake_iff]
      · simp [StartUp.Missed, ReachesAll, hmain, RebuildPc.Announced]
      · simp [StartUp.Missed, ReachesAll, hmain, RebuildPc.Announced]

/-! ## Runs -/

theorem StartInv.of_runOps (h : StartInv m image s) {evs : List StartUpEvent}
    (hrun : runOps startUpStep s evs = some s') : StartInv m image s' :=
  inv_of_runOps (I := StartInv m image) (R := fun _ => True)
    (fun _ _ _ hinv _ hstep => hinv.of_step hstep) h (fun _ _ => trivial) hrun

/-- A run misses the broadcast exactly if one of its steps does. -/
theorem StartInv.not_missed_iff (h : StartInv m image s)
    {evs : List StartUpEvent} (hrun : runOps startUpStep s evs = some s') :
    ¬ s'.Missed ↔ ¬ s.Missed ∧ AllSteps startUpStep ReachesAll s evs := by
  induction evs generalizing s with
  | nil =>
      simp only [runOps, Option.some.injEq] at hrun
      subst hrun
      simp [AllSteps]
  | cons ev evs ih =>
      rw [runOps, Option.bind_eq_some_iff] at hrun
      obtain ⟨s₁, hstep, hrest⟩ := hrun
      have hsteps : AllSteps startUpStep ReachesAll s (ev :: evs) ↔
          ReachesAll s ev ∧ AllSteps startUpStep ReachesAll s₁ evs := by
        simp [AllSteps, hstep]
      rw [ih (h.of_step hstep) hrest, h.missed_iff hstep, hsteps, and_assoc]

/-- A run leads from one state to the other. -/
def StartUp.Reaches (s s' : StartUp σ β) : Prop :=
  ∃ evs, runOps startUpStep s evs = some s'

theorem StartUp.Reaches.refl (s : StartUp σ β) : s.Reaches s := ⟨[], rfl⟩

theorem StartUp.Reaches.trans {s₁ s₂ s₃ : StartUp σ β} (h : s₁.Reaches s₂)
    (h' : s₂.Reaches s₃) : s₁.Reaches s₃ := by
  obtain ⟨evs, hrun⟩ := h
  obtain ⟨evs', hrun'⟩ := h'
  refine ⟨evs ++ evs', ?_⟩
  rw [runOps_append, hrun, Option.bind_some, hrun']

theorem StartUp.Reaches.head {s₁ s₂ s₃ : StartUp σ β} {ev : StartUpEvent}
    (hstep : startUpStep s₁ ev = some s₂) (h : s₂.Reaches s₃) :
    s₁.Reaches s₃ := by
  obtain ⟨evs, hrun⟩ := h
  refine ⟨ev :: evs, ?_⟩
  rw [runOps, hstep, Option.bind_some, hrun]

/-! ## Start-up can end -/

/-- The invariant, and no worker has missed the broadcast. -/
structure Ready (m : MixMetadata) (image : Devices σ β) (s : StartUp σ β) :
    Prop where
  inv : StartInv m image s
  heard : ¬ s.Missed

theorem Ready.of_step (h : Ready m image s) {ev : StartUpEvent}
    (hreaches : ReachesAll s ev) (hstep : startUpStep s ev = some s') :
    Ready m image s' :=
  ⟨h.inv.of_step hstep, (h.inv.missed_iff hstep).mpr ⟨h.heard, hreaches⟩⟩

theorem reachesAll_of_ne {ev : StartUpEvent} (h : s.main ≠ .broadcast) :
    ReachesAll s ev := fun _ hmain => absurd hmain h

/-- The caller clears what is left. -/
theorem Ready.reaches_setFlag (h : Ready m image s) {idxs : List (Fin 4)}
    {i : ℕ} (hmain : s.main = .clear idxs i) :
    ∃ s', s.Reaches s' ∧ Ready m image s' ∧ s'.main = .setFlag := by
  induction idxs generalizing s i with
  | nil =>
      have hstep : startUpStep s .main = some { s with main := .setFlag } := by
        simp [startUpStep, mainStep, hmain]
      exact ⟨_, .head hstep (.refl _),
        h.of_step (reachesAll_of_ne (by simp [hmain])) hstep, rfl⟩
  | cons idx idxs ih =>
      -- the slots left in the first segment
      induction hleft : m.perBlockNum - i generalizing s i with
      | zero =>
          have hstep : startUpStep s .main =
              some { s with main := .clear idxs 0 } := by
            simp only [startUpStep, mainStep, hmain, h.inv.metaData]
            rw [if_neg (by omega)]
          obtain ⟨s', hrun, hready, hend⟩ := ih
            (h.of_step (reachesAll_of_ne (by simp [hmain])) hstep) rfl
          exact ⟨s', .head hstep hrun, hready, hend⟩
      | succ n ihn =>
          have hstep : startUpStep s .main =
              some { s.clearBlock (m.bufferBlock idx (i : ℕ)) with
                main := .clear (idx :: idxs) (i + 1) } := by
            simp only [startUpStep, mainStep, hmain, h.inv.metaData]
            rw [if_pos (by omega)]
          obtain ⟨s', hrun, hready, hend⟩ := ihn
            (h.of_step (reachesAll_of_ne (by simp [hmain])) hstep) rfl
            (by omega)
          exact ⟨s', .head hstep hrun, hready, hend⟩

/-- Before the broadcast workers on their way to sleep can be let sleep. -/
theorem Ready.reaches_asleep (h : Ready m image s)
    (hmain : s.main = .broadcast) (l : List (Fin 4)) :
    ∃ s', s.Reaches s' ∧ Ready m image s' ∧ s'.main = .broadcast ∧
      ∀ i ∈ l, s'.workers i ≠ .wait := by
  induction l with
  | nil => exact ⟨s, .refl s, h, hmain, by simp⟩
  | cons i l ih =>
      obtain ⟨s₁, hrun, hready, hmain₁, hl⟩ := ih
      by_cases hwait : s₁.workers i = .wait
      · have hstep : startUpStep s₁ (.worker i) =
            some (s₁.goto i .blocked) := by
          simp [startUpStep, starterStep, hwait]
        have hreaches : ReachesAll s₁ (.worker i) := fun heq => by cases heq
        refine ⟨_, hrun.trans (.head hstep (.refl _)),
          hready.of_step hreaches hstep, hmain₁, ?_⟩
        intro j hj
        by_cases hji : j = i
        · subst hji
          simp [StartUp.goto]
        · have hjl : j ∈ l := (List.mem_cons.mp hj).resolve_left hji
          simpa [StartUp.goto, hji] using hl j hjl
      · refine ⟨s₁, hrun, hready, hmain₁, ?_⟩
        intro j hj
        rcases List.mem_cons.mp hj with rfl | hj
        · exact hwait
        · exact hl j hj

theorem StartInv.starterStep_scan (h : StartInv m image s)
    (hflag : s.main.Flagged) {off : ℕ} (hpc : s.workers i = .scan off)
    (hoff : off < m.perBlockNum) :
    startUpStep s (.worker i) = some (s.goto i (.scan (off + 1))) := by
  simp only [startUpStep, starterStep, hpc, h.metaData]
  rw [if_pos hoff, rebuildSlot_of_noStatus (h.noStatus hflag) hoff,
    Option.map_some, ← h.metaData]
  rfl

/-- The worker has counted, and nothing else has moved. -/
structure Served (m : MixMetadata) (image : Devices σ β) (i : Fin 4)
    (s s' : StartUp σ β) : Prop extends Ready m image s' where
  reaches : s.Reaches s'
  main : s'.main = .spin
  workers : s'.workers = Function.update s.workers i .serving

/-- One step of the worker before it is served. -/
theorem Served.head {s₁ : StartUp σ β} {pc : StarterPc}
    (hstep : startUpStep s (.worker i) = some s₁)
    (hworkers : s₁.workers = Function.update s.workers i pc)
    (h : Served m image i s₁ s') : Served m image i s s' where
  toReady := h.toReady
  reaches := .head hstep h.reaches
  main := h.main
  workers := by
    rw [h.workers, hworkers, Function.update_idem]

theorem Ready.serve_count (h : Ready m image s) (hmain : s.main = .spin)
    (hpc : s.workers i = .count) : ∃ s', Served m image i s s' := by
  have hstep : startUpStep s (.worker i) =
      some { s.goto i .serving with rebuildNum := s.rebuildNum + 1 } := by
    simp [startUpStep, starterStep, hpc]
  have hready := h.of_step (reachesAll_of_ne (by simp [hmain])) hstep
  exact ⟨_, hready, .head hstep (.refl _), hmain, rfl⟩

/-- After the broadcast a worker can be let read its records and count. -/
theorem Ready.serve_scan (h : Ready m image s) (hmain : s.main = .spin)
    {off : ℕ} (hpc : s.workers i = .scan off) :
    ∃ s', Served m image i s s' := by
  induction hleft : m.perBlockNum - off generalizing s off with
  | zero =>
      have hstep : startUpStep s (.worker i) = some (s.goto i .count) := by
        simp only [startUpStep, starterStep, hpc, h.inv.metaData]
        rw [if_neg (by omega)]
      have hready := h.of_step (reachesAll_of_ne (by simp [hmain])) hstep
      obtain ⟨s', hserved⟩ := hready.serve_count hmain (s.goto_self i _)
      exact ⟨s', hserved.head hstep rfl⟩
  | succ n ih =>
      have hstep := h.inv.starterStep_scan (by simp [hmain, RebuildPc.Flagged])
        hpc (by omega)
      have hready := h.of_step (reachesAll_of_ne (by simp [hmain])) hstep
      obtain ⟨s', hserved⟩ := ih hready hmain (s.goto_self i _) (by omega)
      exact ⟨s', hserved.head hstep rfl⟩

/-- After the broadcast every worker can be let count. -/
theorem Ready.serve (h : Ready m image s) (hmain : s.main = .spin)
    (i : Fin 4) (hserving : s.workers i ≠ .serving) :
    ∃ s', Served m image i s s' := by
  have hawake : ¬ (s.workers i).Asleep := fun hasleep =>
    h.heard ⟨by simp [hmain, RebuildPc.Announced], i, hasleep⟩
  cases hpc : s.workers i with
  | test =>
      have hup : s.rebuild = true :=
        h.inv.flag.mpr (by simp [hmain, RebuildPc.Flagged])
      have hstep : startUpStep s (.worker i) = some (s.goto i (.scan 0)) := by
        simp [startUpStep, starterStep, hpc, hup]
      have hready := h.of_step (reachesAll_of_ne (by simp [hmain])) hstep
      obtain ⟨s', hserved⟩ := hready.serve_scan hmain (s.goto_self i _)
      exact ⟨s', hserved.head hstep rfl⟩
  | wait => exact absurd (Or.inl hpc) hawake
  | blocked => exact absurd (Or.inr hpc) hawake
  | scan off => exact h.serve_scan hmain hpc
  | count => exact h.serve_count hmain hpc
  | serving => exact absurd hpc hserving

/-- After the broadcast all workers of a list can be let count. -/
theorem Ready.serve_list (h : Ready m image s) (hmain : s.main = .spin)
    (l : List (Fin 4)) :
    ∃ s', s.Reaches s' ∧ Ready m image s' ∧ s'.main = .spin ∧
      ∀ i ∈ l, s'.workers i = .serving := by
  induction l with
  | nil => exact ⟨s, .refl s, h, hmain, by simp⟩
  | cons i l ih =>
      obtain ⟨s₁, hrun, hready, hmain₁, hl⟩ := ih
      by_cases hserving : s₁.workers i = .serving
      · refine ⟨s₁, hrun, hready, hmain₁, ?_⟩
        intro j hj
        rcases List.mem_cons.mp hj with rfl | hj
        · exact hserving
        · exact hl j hj
      · obtain ⟨s', hserved⟩ := hready.serve hmain₁ i hserving
        refine ⟨s', hrun.trans hserved.reaches, hserved.toReady, hserved.main,
          fun j hj => ?_⟩
        rw [hserved.workers]
        by_cases hji : j = i
        · subst hji
          exact Function.update_self _ _ _
        · rw [Function.update_of_ne hji]
          exact hl j ((List.mem_cons.mp hj).resolve_left hji)

theorem Ready.spin_reaches_returned (h : Ready m image s)
    (hmain : s.main = .spin) : ∃ s', s.Reaches s' ∧ s'.main = .returned := by
  obtain ⟨s₁, hrun, hready, hmain₁, hall⟩ :=
    h.serve_list hmain (List.finRange 4)
  have hnum : s₁.rebuildNum = 4 := by
    rw [hready.inv.counted]
    exact countWith_eq_card fun i => hall i (List.mem_finRange i)
  have hstep : startUpStep s₁ .main = some { s₁ with main := .returned } := by
    simp [startUpStep, mainStep, hmain₁, hnum, segmentNum]
  exact ⟨_, hrun.trans (.head hstep (.refl _)), rfl⟩

theorem Ready.broadcast_reaches_returned (h : Ready m image s)
    (hmain : s.main = .broadcast) :
    ∃ s', s.Reaches s' ∧ s'.main = .returned := by
  obtain ⟨s₁, hrun, hready, hmain₁, hnone⟩ :=
    h.reaches_asleep hmain (List.finRange 4)
  have hstep : startUpStep s₁ .main = some
      { s₁ with workers := fun i => (s₁.workers i).wake, main := .spin } := by
    simp [startUpStep, mainStep, hmain₁]
  have hreaches : ReachesAll s₁ .main :=
    fun _ _ i => hnone i (List.mem_finRange i)
  obtain ⟨s', hrest, hend⟩ :=
    (hready.of_step hreaches hstep).spin_reaches_returned rfl
  exact ⟨s', hrun.trans (.head hstep hrest), hend⟩

theorem Ready.setFlag_reaches_returned (h : Ready m image s)
    (hmain : s.main = .setFlag) :
    ∃ s', s.Reaches s' ∧ s'.main = .returned := by
  have hstep : startUpStep s .main =
      some { s with rebuild := true, main := .broadcast } := by
    simp [startUpStep, mainStep, hmain]
  have hready := h.of_step (reachesAll_of_ne (by simp [hmain])) hstep
  obtain ⟨s', hrest, hend⟩ := hready.broadcast_reaches_returned rfl
  exact ⟨s', .head hstep hrest, hend⟩

/-- As long as no worker has missed the broadcast start-up can end. -/
theorem Ready.reaches_returned (h : Ready m image s) :
    ∃ s', s.Reaches s' ∧ s'.main = .returned := by
  cases hmain : s.main with
  | clear idxs i =>
      obtain ⟨s₁, hrun, hready, hmain₁⟩ := h.reaches_setFlag hmain
      obtain ⟨s', hrest, hend⟩ := hready.setFlag_reaches_returned hmain₁
      exact ⟨s', hrun.trans hrest, hend⟩
  | setFlag => exact h.setFlag_reaches_returned hmain
  | broadcast => exact h.broadcast_reaches_returned hmain
  | spin => exact h.spin_reaches_returned hmain
  | returned => exact ⟨s, .refl s, hmain⟩

/-! ## What start-up keeps -/

/-- In a process that has started no worker has missed the broadcast. -/
theorem StartInv.not_missed_of_returned (h : StartInv m image s)
    (hmain : s.main = .returned) : ¬ s.Missed := by
  rintro ⟨-, i, hasleep⟩
  rw [h.ended hmain i] at hasleep
  rcases hasleep with hwait | hblocked
  · cases hwait
  · cases hblocked

/-- Of an image without a status a fresh index is all there is to restore. -/
theorem StartInv.restored (h : StartInv m image s)
    (hfresh : ∀ idx, FreshSegment idx m) (hnone : NoStatus m image) :
    Restored image s.store := by
  have hinvalid : ∀ (idx : Fin 4), ∀ v < m.perBlockNum,
      ¬ m.ValidSlot image idx v := by
    intro idx v hv hvalid
    have hzero : (mixBufferGetMeta image (m.bufferBlock idx v)).status = 0 :=
      hnone _ ⟨idx, v, hv, rfl⟩
    rw [MixMetadata.ValidSlot, hzero] at hvalid
    exact absurd hvalid (by decide)
  rw [← h.metaData] at hinvalid hfresh
  refine
    { mapped := fun idx v hv hvalid => absurd hvalid (hinvalid idx v hv)
      missing := fun idx key _ => (hfresh idx).missing key
      bit := fun idx nr => ?_
      used := fun idx => ?_
      status := fun p hp => ?_ }
  · rw [(hfresh idx).bit nr]
    simp only [Bool.false_eq_true, false_iff, not_and]
    exact hinvalid idx nr
  · rw [(hfresh idx).used, List.filter_eq_nil_iff.mpr]
    · rfl
    · intro v hv
      simpa using hinvalid idx v (List.mem_range.mp hv)
  · rw [h.metaData] at hp
    rcases h.status p with hsame | ⟨-, hzero⟩
    · exact hsame
    · rw [hzero, hnone p hp]

/-- After every run of start-up on every image, start-up can still end and
keeps the image whenever it ends exactly if no worker has missed the broadcast
and no record of the image has a status. -/
theorem startUp_keepsImage_iff {blockNum : ℕ} (hsize : ValidSize blockNum)
    (migration : Fin 4 → Bool) (image : Devices σ β)
    {evs : List StartUpEvent} {s : StartUp σ β}
    (hrun : runOps startUpStep (startUpInit blockNum migration image) evs =
      some s) :
    KeepsImage image s ↔
      AllSteps startUpStep ReachesAll (startUpInit blockNum migration image)
        evs ∧
      NoStatus (mixMetadataInit blockNum migration) image := by
  have hinit := startUpInit_inv blockNum migration image
  have hinv := hinit.of_runOps hrun
  have hheard : ¬ (startUpInit blockNum migration image).Missed :=
    fun hmissed => hmissed.1
  have hmissed := hinit.not_missed_iff hrun
  constructor
  · rintro ⟨⟨evs', s', hrest, hend⟩, hkeeps⟩
    have hinv' := hinv.of_runOps hrest
    refine ⟨?_, ?_⟩
    · have hnot := hinv'.not_missed_of_returned hend
      have hbefore := ((hinv.not_missed_iff hrest).mp hnot).1
      exact (hmissed.mp hbefore).2
    · intro p hp
      have hrestored := hkeeps evs' s' hrest hend
      have hcleared := hinv'.noStatus (by simp [hend, RebuildPc.Flagged]) p hp
      rw [← hrestored.status p (by rwa [hinv'.metaData])]
      exact hcleared
  · rintro ⟨hreaches, hnone⟩
    have hready : Ready (mixMetadataInit blockNum migration) image s :=
      ⟨hinv, hmissed.mpr ⟨hheard, hreaches⟩⟩
    obtain ⟨s', ⟨evs', hrest⟩, hend⟩ := hready.reaches_returned
    refine ⟨⟨evs', s', hrest, hend⟩, fun evs₂ s₂ hrest₂ _ => ?_⟩
    exact (hinv.of_runOps hrest₂).restored
      (fun idx => mixMetadataInit_freshSegment migration idx hsize) hnone

/-- A start in which the workers sleep when the broadcast is made. -/
def quietStart : List StartUpEvent :=
  ((List.finRange 4).flatMap fun i => [.worker i, .worker i]) ++
    List.replicate 39 .main

/-- An image whose only valid record is that of block `5` in slot `0` of
segment `0`. -/
def oneRecord : Devices (ℕ → ℕ) ℕ where
  nvm := fun _ => 0
  buffer := fun _ => 0
  bufferMeta := fun p => if p = 0 then ⟨1, 0, 5, 0⟩ else ⟨0, 0, 0, 0⟩
  ssd := fun _ => 0

/-- An image with data everywhere and a record of each slot that was once
valid. -/
def clearedRecords : Devices (ℕ → ℕ) ℕ where
  nvm := fun b => b + 1
  buffer := fun p => p + 2
  bufferMeta := fun p => ⟨0, 0, p + 5, mixWrite⟩
  ssd := fun b => b + 3

/-- Such a start keeps the image without a valid record, and not the one with
a valid record. -/
theorem startUp_keepsImage_iff_example :
    KeepsImage clearedRecords ((runOps startUpStep
        (startUpInit 32 (fun _ => false) clearedRecords) quietStart).get
          (by decide +kernel)) ∧
      ¬ KeepsImage oneRecord ((runOps startUpStep
        (startUpInit 32 (fun _ => false) oneRecord) quietStart).get
          (by decide +kernel)) := by
  constructor
  · exact (startUp_keepsImage_iff (by decide) _ _ (Option.some_get _).symm).mpr
      ⟨by decide +kernel, fun _ _ => rfl⟩
  · intro hkeeps
    have hslot : (mixMetadataInit 32 fun _ => false).IsSlot 0 :=
      ⟨0, 0, by decide, by decide +kernel⟩
    have hnone := ((startUp_keepsImage_iff (by decide) _ _
      (Option.some_get _).symm).mp hkeeps).2 0 hslot
    exact absurd hnone (by decide)

/-- Start-up on that image can end, and every start-up that ends has cleared
the record. -/
theorem startUp_keepsImage_fails :
    (∃ s, (startUpInit 32 (fun _ => false) oneRecord).Reaches s ∧
      s.main = .returned) ∧
    ∀ s, (startUpInit 32 (fun _ => false) oneRecord).Reaches s →
      s.main = .returned → ¬ Restored oneRecord s.store := by
  have hinit := startUpInit_inv 32 (fun _ => false) oneRecord
  constructor
  · have hready : Ready (mixMetadataInit 32 fun _ => false) oneRecord
        (startUpInit 32 (fun _ => false) oneRecord) :=
      ⟨hinit, fun hmissed => hmissed.1⟩
    exact hready.reaches_returned
  · rintro s ⟨evs, hrun⟩ hend hrestored
    have hinv := hinit.of_runOps hrun
    have hslot : (mixMetadataInit 32 fun _ => false).IsSlot 0 :=
      ⟨0, 0, by decide, by decide +kernel⟩
    have hcleared := hinv.noStatus (by simp [hend, RebuildPc.Flagged]) 0 hslot
    have hkept := hrestored.status 0 (by rwa [hinv.metaData])
    rw [hcleared] at hkept
    exact absurd hkept (by decide)

end Uhs
