import Uhs.Segment.StartUp
import Uhs.Store.Durable

/-!
# Restarts

A process that crashes is started again on the devices it leaves.  Start-up
clears every record before the workers read them, so a block that the buffer
held falls back to the data of the SSD.  The model runs any number of processes
one after another; each of them may crash at any time, start-up included.
-/

namespace Uhs

open Support

variable {T : ℕ} {σ β : Type*} [BlockDevice σ β]

/-- The migration flags of a new process, and what it finds in memory that it
does not initialise. -/
structure Boot (T : ℕ) (β : Type*) where
  migration : Fin 4 → Bool
  segmentIdx : Fin 4
  migrateBuf : Fin T → β
  inflight : Fin 16 → ℤ
  dst : Fin 16 → ℕ → β
  request : Fin 16 → Request β

/-- A process that starts, or that serves its clients. -/
inductive Process (T : ℕ) (σ β : Type*)
  | starting (boot : Boot T β) (up : StartUp σ β)
  | serving (s : Committed T σ β)

def Process.dev : Process T σ β → Devices σ β
  | .starting _ up => up.store.dev
  | .serving s => s.system.machine.store.dev

/-- A new process on the devices, when `mix_init_scheduler` calls
`mix_rebuild`. -/
def Boot.start (boot : Boot T β) (blockNum : ℕ) (dev : Devices σ β) :
    Process T σ β :=
  .starting boot (startUpInit blockNum boot.migration dev)

/-- The store of a process whose start-up has ended. -/
def Boot.serve (boot : Boot T β) (store : Store σ β) : Committed T σ β :=
  .initial (System.initial T store boot.segmentIdx boot.migrateBuf
    boot.inflight boot.dst boot.request)

inductive ProcessEvent (T : ℕ) (β : Type*)
  | startUp (event : StartUpEvent)
  /-- `mix_rebuild` has returned. -/
  | serve
  | step (event : SystemEvent T β)
  | crash (boot : Boot T β)

def processStep (blockNum : ℕ) (process : Process T σ β) :
    ProcessEvent T β → Option (Process T σ β)
  | .startUp event =>
      match process with
      | .starting boot up => (startUpStep up event).map (.starting boot)
      | .serving _ => none
  | .serve =>
      match process with
      | .starting boot up =>
          match up.main with
          | .returned => some (.serving (boot.serve up.store))
          | _ => none
      | .serving _ => none
  | .step event =>
      match process with
      | .starting _ _ => none
      | .serving s => (committedStep s event).map .serving
  | .crash boot => some (boot.start blockNum process.dev)

/-! ## What should be left of the data -/

/-- The processes with a history that no step reads: the data that each
logical block may hold. -/
structure Lifetime (T : ℕ) (σ β : Type*) where
  process : Process T σ β
  current : ℕ → Set β

/-- A write that returns settles its blocks. -/
def Committed.settled (s s' : Committed T σ β) (current : ℕ → Set β) (b : ℕ) :
    Set β :=
  {x | (∃ c, s.system.Returns s'.system c ∧ (s.system.request c).Writes b ∧
      x = (s.system.request c).buf (b - (s.system.request c).offset)) ∨
    (∀ c, s.system.Returns s'.system c → ¬ (s.system.request c).Writes b) ∧
      x ∈ current b}

/-- Block `b` has a valid record. -/
def Committed.Recorded (s : Committed T σ β) (b : ℕ) : Prop :=
  nvmThreshold ≤ b ∧ ∃ p, s.system.machine.cells.record p =
    some (b - nvmThreshold)

/-- At a crash a recorded block falls back to the data of the SSD, and any
other block may hold the data of a write that was running. -/
def Committed.surviving (s : Committed T σ β) (current : ℕ → Set β) (b : ℕ) :
    Set β :=
  {x | s.Recorded b ∧
      x = s.system.machine.store.dev.ssdBlock (b - nvmThreshold) ∨
    ¬ s.Recorded b ∧ (x ∈ current b ∨
      ∃ c, s.system.Running c ∧ (s.system.request c).Writes b ∧
        x = (s.system.request c).buf (b - (s.system.request c).offset))}

/-- What the logical blocks may hold after a step. -/
def currentAfter (current : ℕ → Set β) (event : ProcessEvent T β) :
    Process T σ β → Process T σ β → ℕ → Set β
  | .serving s, .serving s' => s.settled s' current
  | .serving s, .starting _ _ =>
      match event with
      | .crash _ => s.surviving current
      | _ => current
  | .starting _ _, _ => current

def lifetimeStep (blockNum : ℕ) (l : Lifetime T σ β)
    (event : ProcessEvent T β) : Option (Lifetime T σ β) :=
  (processStep blockNum l.process event).map fun process =>
    { process := process
      current := currentAfter l.current event l.process process }

/-- The data of block `b` on the NVM zone or on the SSD. -/
def Devices.atRest (dev : Devices σ β) (b : ℕ) : β :=
  if b < nvmThreshold then dev.nvm b else dev.ssdBlock (b - nvmThreshold)

/-- The first process. -/
def Lifetime.initial (blockNum : ℕ) (boot : Boot T β) (dev : Devices σ β) :
    Lifetime T σ β where
  process := boot.start blockNum dev
  current := fun b => {dev.atRest b}

/-- The blocks hold what they may hold, and while clients are served a rebuild
of the index that clears no record would lose no write that has returned. -/
def Lifetime.Keeps (blockNum : ℕ) (rebuilt : Fin 4 → Bool)
    (l : Lifetime T σ β) : Prop :=
  match l.process with
  | .starting _ up => ∀ b, up.store.dev.atRest b ∈ l.current b
  | .serving s => s.Durable blockNum rebuilt ∧
      ∀ b, (∀ c, s.system.Running c → ¬ (s.system.request c).Writes b) →
        ∃ x ∈ l.current b, s.system.Holds b x

/-- A property of the steps of the clients, the workers and the migrations. -/
def Process.Meets (P : System T σ β → SystemEvent T β → Prop) :
    Process T σ β → ProcessEvent T β → Prop
  | .serving s, .step event => P s.system event
  | _, _ => True

instance (P : System T σ β → SystemEvent T β → Prop)
    [∀ s, DecidablePred (P s)] (process : Process T σ β) :
    DecidablePred (process.Meets P)
  | .startUp _ => isTrue (by cases process <;> trivial)
  | .serve => isTrue (by cases process <;> trivial)
  | .crash _ => isTrue (by cases process <;> trivial)
  | .step event =>
      match process with
      | .starting _ _ => isTrue trivial
      | .serving s => inferInstanceAs (Decidable (P s.system event))

variable {s s' : StartUp σ β} {m : MixMetadata} {image dev : Devices σ β}
  {blockNum : ℕ} {boot : Boot T β} {b : ℕ} {x : β}

/-! ## Start-up -/

/-- Start-up leaves the NVM zone and the SSD alone. -/
theorem StartInv.atRest_step (h : StartInv m image s) {event : StartUpEvent}
    (hstep : startUpStep s event = some s') (b : ℕ) :
    s'.store.dev.atRest b = s.store.dev.atRest b := by
  cases event with
  | main =>
      rcases mainStep_cases hstep with ⟨i, -, rfl⟩ |
        ⟨idx, idxs, i, -, -, rfl⟩ | ⟨idx, idxs, i, -, -, rfl⟩ | ⟨-, rfl⟩ |
        ⟨-, rfl⟩ | ⟨-, rfl⟩ | ⟨-, -, rfl⟩
      all_goals rfl
  | worker i =>
      rcases h.starterStep_cases hstep with ⟨-, rfl⟩ | ⟨-, rfl⟩ |
        ⟨off, -, -, rfl⟩ | ⟨off, -, -, rfl⟩ | ⟨-, rfl⟩
      all_goals rfl

/-- All valid records are in slots. -/
def Devices.RecordsIn (dev : Devices σ β) (m : MixMetadata) : Prop :=
  ∀ p, (dev.bufferMeta p).status % 2 = 1 → m.IsSlot p

omit [BlockDevice σ β] in
/-- Start-up makes no record valid. -/
theorem StartInv.recordsIn (h : StartInv m image s)
    (himage : image.RecordsIn m) : s.store.dev.RecordsIn m := by
  intro p hvalid
  rcases h.status p with hsame | ⟨hslot, -⟩
  · rw [hsame] at hvalid
    exact himage p hvalid
  · exact hslot

omit [BlockDevice σ β] in
/-- After start-up no record is valid. -/
theorem StartInv.clean (h : StartInv m image s) (himage : image.RecordsIn m)
    (hmain : s.main = .returned) : s.store.dev.Clean := by
  intro p hvalid
  have hzero := h.noStatus (by simp [hmain, RebuildPc.Flagged]) p
    (h.recordsIn himage p hvalid)
  rw [hzero] at hvalid
  exact absurd hvalid (by decide)

omit [BlockDevice σ β] in
/-- Which slots there are does not depend on the migration flags. -/
theorem Devices.RecordsIn.congr {m' : MixMetadata} (h : dev.RecordsIn m)
    (hcap : m.perBlockNum = m'.perBlockNum) : dev.RecordsIn m' := by
  intro p hvalid
  obtain ⟨idx, v, hv, rfl⟩ := h p hvalid
  exact ⟨idx, v, hcap ▸ hv, (MixMetadata.bufferBlock_congr hcap idx v).symm⟩

/-! ## Crashes -/

/-- The valid records of a running store are in slots. -/
theorem DurableInv.recordsIn {s : System T σ β} {written : ℕ → β} {cap : ℕ}
    (h : DurableInv cap s written) :
    s.machine.store.dev.RecordsIn s.machine.store.metaData := by
  intro p hvalid
  have hrecord : s.machine.cells.record p =
      some (s.machine.store.dev.bufferMeta p).offset := if_pos hvalid
  obtain ⟨idx, v, hv, rfl⟩ := h.records.recorded _ _ hrecord
  exact ⟨idx, v, h.contents.cache.machine.live_lt hv, rfl⟩

/-- After a crash each block has data that it may hold. -/
theorem DurableInv.surviving {s : Committed T σ β} {cap : ℕ}
    (h : DurableInv cap s.system s.written) {current : ℕ → Set β}
    (hcurrent : ∀ b, s.written b ∈ current b) (b : ℕ) :
    s.system.machine.store.dev.atRest b ∈ s.surviving current b := by
  have haccounts : ∀ x, s.Accounts b x → x ∈ current b ∨
      ∃ c, s.system.Running c ∧ (s.system.request c).Writes b ∧
        x = (s.system.request c).buf (b - (s.system.request c).offset) := by
    rintro x (rfl | hrunning)
    · exact Or.inl (hcurrent b)
    · exact Or.inr hrunning
  obtain ⟨x, hshows, hx⟩ := h.accounts b
  by_cases hb : b < nvmThreshold
  · have hnot : ¬ s.Recorded b := fun hrecorded =>
      absurd hb (not_lt.mpr hrecorded.1)
    have hx' : s.system.machine.store.dev.nvm b = x :=
      (System.shows_nvm hb).mp hshows
    rw [Devices.atRest, if_pos hb, hx']
    exact Or.inr ⟨hnot, haccounts x hx⟩
  · rw [Devices.atRest, if_neg hb]
    by_cases hrecorded : s.Recorded b
    · exact Or.inl ⟨hrecorded, rfl⟩
    · have hx' : s.system.machine.store.dev.ssdBlock (b - nvmThreshold) = x :=
        ((System.shows_ssd hb).mp hshows).unbuffered fun p hp =>
          hrecorded ⟨not_lt.mp hb, p, hp⟩
      rw [hx']
      exact Or.inr ⟨hrecorded, haccounts x hx⟩

/-! ## The invariant -/

/-- What holds of a process on the devices. -/
inductive LifetimeInv (blockNum : ℕ) (current : ℕ → Set β) :
    Process T σ β → Prop
  | starting {boot : Boot T β} {up : StartUp σ β} (image : Devices σ β)
      (inv : StartInv (mixMetadataInit blockNum boot.migration) image up)
      (himage : image.RecordsIn (mixMetadataInit blockNum boot.migration))
      (hcurrent : ∀ b, up.store.dev.atRest b ∈ current b) :
      LifetimeInv blockNum current (.starting boot up)
  | serving {s : Committed T σ β}
      (inv : DurableInv (blockNum / segmentNum) s.system s.written)
      (hcurrent : ∀ b, s.written b ∈ current b) :
      LifetimeInv blockNum current (.serving s)

theorem Boot.start_lifetimeInv (boot : Boot T β) {current : ℕ → Set β}
    (hrecords : dev.RecordsIn (mixMetadataInit blockNum boot.migration))
    (hcurrent : ∀ b, dev.atRest b ∈ current b) :
    LifetimeInv blockNum current (boot.start blockNum dev) :=
  .starting dev (startUpInit_inv blockNum boot.migration dev) hrecords hcurrent

/-- The crash of a process and the start of the next one. -/
theorem LifetimeInv.crash {process : Process T σ β} {current : ℕ → Set β}
    (h : LifetimeInv blockNum current process) (boot : Boot T β) :
    LifetimeInv blockNum (currentAfter current (.crash boot) process
      (boot.start blockNum process.dev)) (boot.start blockNum process.dev) := by
  cases h with
  | starting image inv himage hcurrent =>
      exact boot.start_lifetimeInv ((inv.recordsIn himage).congr rfl) hcurrent
  | serving inv hcurrent =>
      exact boot.start_lifetimeInv (inv.recordsIn.congr inv.cap_eq)
        (inv.surviving hcurrent)

/-- The start-up that ends. -/
theorem LifetimeInv.serve {up : StartUp σ β} {current : ℕ → Set β}
    (hsize : ValidSize blockNum)
    (h : LifetimeInv blockNum current (.starting boot up))
    (hmain : up.main = .returned) :
    LifetimeInv blockNum current (.serving (boot.serve up.store)) := by
  cases h with
  | starting image inv himage hcurrent =>
      have hstore : up.store =
          freshStore blockNum boot.migration up.store.dev := by
        rw [freshStore, ← inv.metaData]
      refine .serving ?_ hcurrent
      rw [hstore]
      exact initial_durableInv hsize boot.migration (inv.clean himage hmain)
        _ _ _ _ _

/-- A step of a process that serves its clients. -/
theorem LifetimeInv.step {s s' : Committed T σ β} {current : ℕ → Set β}
    {event : SystemEvent T β}
    (h : LifetimeInv blockNum current (.serving s)) (hpos : 0 < T)
    (hT : T ≤ 127) (hapart : s.system.CallsApart event)
    (hsafe : s.system.MovesSafely event)
    (hstep : committedStep s event = some s') :
    LifetimeInv blockNum (s.settled s' current) (.serving s') := by
  cases h with
  | serving inv hcurrent =>
      refine .serving (committedStep_durableInv inv hpos hT hapart hsafe hstep)
        fun b => ?_
      have hcommitted := hstep
      simp only [committedStep, Option.map_eq_some_iff] at hcommitted
      obtain ⟨system, hsystem, rfl⟩ := hcommitted
      by_cases hreturns : ∃ c, s.system.Returns system c ∧
          (s.system.request c).Writes b
      · obtain ⟨c, hreturns, hwrites⟩ := hreturns
        obtain rfl := hreturns.event_eq hsystem
        exact Or.inl ⟨c, hreturns, hwrites, returned_of_writes hreturns hwrites⟩
      · have hnone : ∀ c, s.system.Returns system c →
            ¬ (s.system.request c).Writes b := fun c hc hwrites =>
          hreturns ⟨c, hc, hwrites⟩
        refine Or.inr ⟨hnone, ?_⟩
        change returned s.system system s.written event b ∈ current b
        rw [returned_of_not_writes hnone]
        exact hcurrent b

theorem lifetimeStep_inv {l l' : Lifetime T σ β} {event : ProcessEvent T β}
    (hsize : ValidSize blockNum)
    (h : LifetimeInv blockNum l.current l.process) (hpos : 0 < T)
    (hT : T ≤ 127) (hapart : l.process.Meets System.CallsApart event)
    (hsafe : l.process.Meets System.MovesSafely event)
    (hstep : lifetimeStep blockNum l event = some l') :
    LifetimeInv blockNum l'.current l'.process := by
  simp only [lifetimeStep, Option.map_eq_some_iff] at hstep
  obtain ⟨process', hprocess, rfl⟩ := hstep
  obtain ⟨process, current⟩ := l
  cases event with
  | crash boot =>
      cases hprocess
      exact h.crash boot
  | startUp event =>
      cases process with
      | serving s => cases hprocess
      | starting boot up =>
          simp only [processStep, Option.map_eq_some_iff] at hprocess
          obtain ⟨up', hup, rfl⟩ := hprocess
          cases h with
          | starting image inv himage hcurrent =>
              refine .starting image (inv.of_step hup) himage fun b => ?_
              rw [inv.atRest_step hup]
              exact hcurrent b
  | serve =>
      cases process with
      | serving s => cases hprocess
      | starting boot up =>
          simp only [processStep] at hprocess
          split at hprocess
          · rename_i hmain
            cases hprocess
            exact h.serve hsize hmain
          · cases hprocess
  | step event =>
      cases process with
      | starting boot up => cases hprocess
      | serving s =>
          simp only [processStep, Option.map_eq_some_iff] at hprocess
          obtain ⟨s', hcommitted, rfl⟩ := hprocess
          exact h.step hpos hT hapart hsafe hcommitted

/-! ## Runs -/

theorem LifetimeInv.keeps (hsize : ValidSize blockNum)
    (rebuilt : Fin 4 → Bool) {l : Lifetime T σ β}
    (h : LifetimeInv blockNum l.current l.process) :
    l.Keeps blockNum rebuilt := by
  obtain ⟨process, current⟩ := l
  cases h with
  | starting image inv himage hcurrent => exact hcurrent
  | @serving s inv hcurrent =>
      refine ⟨inv.durable hsize rebuilt, fun b hnone => ⟨s.written b,
        hcurrent b, ?_⟩⟩
      rw [inv.settled b hnone]
      exact inv.contents.stored b fun c hover =>
        hnone c hover.1 hover.2.1

/-- In every run of processes one after another, started on an image whose
valid records are in slots, of which any may crash at any time and each serves
its clients under the conditions of `durable_allStates`, each block holds the
data of the write that has returned last or of a write that a crash has cut
off since then, unless a crash has found the block in the buffer: then it
holds what was on the SSD. -/
theorem lifetime_keeps (hsize : ValidSize blockNum) (rebuilt : Fin 4 → Bool)
    (boot : Boot T β)
    (hrecords : dev.RecordsIn (mixMetadataInit blockNum boot.migration))
    (hpos : 0 < T) (hT : T ≤ 127) {events : List (ProcessEvent T β)}
    (hapart : AllSteps (lifetimeStep blockNum)
      (fun l => l.process.Meets System.CallsApart)
      (.initial blockNum boot dev) events)
    (hsafe : AllSteps (lifetimeStep blockNum)
      (fun l => l.process.Meets System.MovesSafely)
      (.initial blockNum boot dev) events) :
    AllStates (lifetimeStep blockNum) (Lifetime.Keeps blockNum rebuilt)
      (.initial blockNum boot dev) events := by
  refine (allStates_of_allSteps
    (I := fun l => LifetimeInv blockNum l.current l.process)
    (fun l event l' h hP hstep =>
      lifetimeStep_inv hsize h hpos hT hP.1 hP.2 hstep)
    (boot.start_lifetimeInv hrecords fun b => Set.mem_singleton _)
    (hapart.and hsafe)).mono fun l h => h.keeps hsize rebuilt

/-- What a process finds when all memory is zero. -/
def zeroBoot : Boot 8 ℕ where
  migration := fun _ => false
  segmentIdx := 0
  migrateBuf := fun _ => 0
  inflight := fun _ => 0
  dst := fun _ _ => 0
  request := fun _ => ⟨false, fun _ => 0, 0, 0, 0⟩

/-- A start-up in which the workers read the flag after the broadcast. -/
def startSteps : List (ProcessEvent 8 ℕ) :=
  List.replicate 39 (.startUp .main) ++
    ((List.finRange 4).flatMap fun i =>
      List.replicate 11 (.startUp (.worker i))) ++
    [.startUp .main, .serve]

/-- Block `0` is buffered before the crash. -/
def restartSteps : List (ProcessEvent 8 ℕ) :=
  startSteps ++ (bufferedCall 0 5).map .step ++ .crash zeroBoot :: startSteps ++
    (bufferedCall 4 6).map .step

theorem lifetime_keeps_example :
    AllStates (lifetimeStep 32) (Lifetime.Keeps 32 fun _ => false)
      (.initial 32 zeroBoot zeroDevices) restartSteps :=
  lifetime_keeps (by decide) _ _ (fun _ h => absurd h (by decide : ¬ 0 % 2 = 1))
    (by decide) (by decide) (by decide +kernel) (by decide +kernel)

end Uhs
