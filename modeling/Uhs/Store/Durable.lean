import Uhs.Store.LastWriter
import Uhs.Store.ReadAfterWrite
import Uhs.Store.Records
import Uhs.Store.SmallWrite

/-!
# Crashes of the whole store

A crash between two steps of the clients, the workers and a migration leaves
the devices.  Each logical block is then recovered with the data of the write
to it that has returned last, or of a write that had not returned.
-/

namespace Uhs

open Support

variable {T : ℕ} {σ β : Type*} [BlockDevice σ β]

/-- The store with a history that no step reads: the data of the write to each
logical block that has returned last. -/
structure Committed (T : ℕ) (σ β : Type*) where
  system : System T σ β
  written : ℕ → β

/-- The call of client `c` returns from `s` to `s'`. -/
def System.Returns (s s' : System T σ β) (c : Fin 16) : Prop :=
  s.Running c ∧ ¬ s'.Running c

instance (s s' : System T σ β) (c : Fin 16) : Decidable (s.Returns s' c) :=
  inferInstanceAs (Decidable (_ ∧ ¬ _))

/-- The data of the writes that have returned after a step. -/
def returned (s s' : System T σ β) (written : ℕ → β) :
    SystemEvent T β → ℕ → β
  | .client c =>
      if s.Returns s' c then issued written (s.request c) else written
  | _ => written

def committedStep (s : Committed T σ β) (event : SystemEvent T β) :
    Option (Committed T σ β) :=
  (systemStep s.system event).map fun system =>
    { system := system, written := returned s.system system s.written event }

/-- Before the first call nothing but the contents of the devices has been
written. -/
def Committed.initial (system : System T σ β) : Committed T σ β :=
  { system := system, written := system.latest }

/-- The contents of logical block `b` after a crash that leaves `dev`: a block
of the NVM zone is read in place, and a block of the SSD through the rebuilt
index of its segment. -/
def recoveredLogical (blockNum : ℕ) (migration : Fin 4 → Bool)
    (dev : Devices σ β) (b : ℕ) : Option β :=
  if b < nvmThreshold then some (dev.nvm b)
  else
    let lba := b - nvmThreshold
    recoveredBlock blockNum migration dev (segmentOf lba) lba

/-- `x` are the data of the write to block `b` that has returned last, or of a
write to it that is running. -/
def Committed.Accounts (s : Committed T σ β) (b : ℕ) (x : β) : Prop :=
  x = s.written b ∨
    ∃ c, s.system.Running c ∧ (s.system.request c).Writes b ∧
      x = (s.system.request c).buf (b - (s.system.request c).offset)

/-- What is recovered of each block are such data. -/
def Committed.Recovers (s : Committed T σ β) (recovered : ℕ → Option β) :
    Prop :=
  ∀ b < nvmThreshold + 2 ^ 32, ∃ x, recovered b = some x ∧ s.Accounts b x

/-- A crash in this state loses no write that has returned. -/
def Committed.Durable (blockNum : ℕ) (migration : Fin 4 → Bool)
    (s : Committed T σ β) : Prop :=
  s.Recovers (recoveredLogical blockNum migration s.system.machine.store.dev)

variable {s s' : System T σ β} {written : ℕ → β} {c : Fin 16} {i : Fin 4}
  {event : SystemEvent T β} {b : ℕ} {x : β}

/-- There is no valid record. -/
def Devices.Clean (dev : Devices σ β) : Prop :=
  ∀ p, (dev.bufferMeta p).status % 2 ≠ 1

/-! ## What the devices show -/

/-- What the devices show of logical block `b` is `x`. -/
def System.Shows (s : System T σ β) (b : ℕ) (x : β) : Prop :=
  if b < nvmThreshold then s.nvm b = x
  else s.machine.cells.Persistent (b - nvmThreshold) x

/-- The data of client `c` is in its slot, which may not be recorded yet. -/
def System.Recording (s : System T σ β) (c : Fin 16) : Prop :=
  ∃ i task slot, s.workers i = .record task slot ∧ task.inflightBuffer = c

theorem System.shows_nvm (hb : b < nvmThreshold) :
    s.Shows b x ↔ s.nvm b = x := by
  rw [System.Shows, if_pos hb]

theorem System.shows_ssd (hb : ¬ b < nvmThreshold) :
    s.Shows b x ↔ s.machine.cells.Persistent (b - nvmThreshold) x := by
  rw [System.Shows, if_neg hb]

theorem System.Shows.congr (h : s.Shows b x)
    (hmachine : s'.machine = s.machine) : s'.Shows b x := by
  rw [System.Shows, System.nvm, hmachine]
  exact h

omit [BlockDevice σ β] in
theorem System.Recording.congr (h : s.Recording c)
    (hworkers : s'.workers = s.workers) : s'.Recording c := by
  rw [System.Recording, hworkers]
  exact h

omit [BlockDevice σ β] in
theorem dispatch_record {task task' : IoTask β} {j : Fin 4} {slot : ℤ}
    (hpc : (dispatch s i task).workers j = .record task' slot) :
    s.workers j = .record task' slot := by
  have hset : ∀ pc : WorkerPc β, (∀ task slot, pc ≠ .record task slot) →
      (s.setWorker i pc).workers j = .record task' slot →
      s.workers j = .record task' slot := by
    intro pc hne hpc
    by_cases hj : j = i
    · rw [hj, System.setWorker_self] at hpc
      exact absurd hpc (hne _ _)
    · rwa [System.setWorker_of_ne s hj] at hpc
  unfold dispatch at hpc
  split at hpc
  · exact hset _ (by simp) hpc
  · exact hset _ (by simp) hpc
  · exact hpc
  · exact hpc
  · exact hset _ (by simp) hpc
  · exact hpc

omit [BlockDevice σ β] in
/-- A worker records the data that it has just copied. -/
theorem redirectStep_record {m m' : Machine T σ β} {pc : WorkerPc β}
    {task : IoTask β} {slot : ℤ}
    (hstep : redirectStep i m pc = some (m', .record task slot)) :
    pc = .data task slot := by
  generalize hpc' : WorkerPc.record task slot = pc' at hstep
  cases redirectStep_moves hstep with
  | start hdev hpc =>
      rcases hpc with rfl | ⟨slot', rfl⟩ <;> cases hpc'
  | call _ | release _ | resume _ _ | record => cases hpc'
  | data =>
      cases hpc'
      rfl

theorem systemStep_record {task : IoTask β} {slot : ℤ}
    (hstep : systemStep s event = some s')
    (hpc' : s'.workers i = .record task slot) :
    s.workers i = .record task slot ∨ s.workers i = .data task slot := by
  -- a worker that goes on with something else
  have hset : ∀ {r : System T σ β} {j : Fin 4} {pc : WorkerPc β},
      (r.setWorker j pc).workers i = .record task slot →
      r.workers = s.workers →
      (pc = .record task slot → s.workers j = .data task slot) →
      s.workers i = .record task slot ∨ s.workers i = .data task slot := by
    intro r j pc hpc hworkers hnew
    by_cases hij : i = j
    · rw [hij, System.setWorker_self] at hpc
      exact Or.inr (hij ▸ hnew hpc)
    · rw [System.setWorker_of_ne r hij, hworkers] at hpc
      exact Or.inl hpc
  cases event with
  | call c request =>
      obtain ⟨-, rfl⟩ := systemStep_call_eq hstep
      exact Or.inl hpc'
  | client c =>
      have hworkers : s'.workers = s.workers := by
        cases clientStep_moves hstep with
        | ssd hpc => exact (ssdTransfer_fields s c _).2.2.2.1
        | _ => rfl
      rw [hworkers] at hpc'
      exact Or.inl hpc'
  | worker j =>
      cases workerStep_moves hstep with
      | poll _ _ => exact Or.inl hpc'
      | takeNvm _ _ _ | takeBuffer _ _ _ =>
          exact Or.inl ((dispatch_record hpc' :))
      | nvmRead _ _ | nvmWrite _ _ | nvmReadEnd _ _ | nvmWriteEnd _ _
      | finish _ => exact hset hpc' rfl (by simp)
      | @redirect m pc hredirect =>
          refine hset hpc' rfl fun hnew => ?_
          rw [hnew] at hredirect
          exact redirectStep_record hredirect
  | migrate j =>
      obtain ⟨-, rfl⟩ := systemStep_migrate_eq hstep
      exact hset hpc' rfl (by simp)
  | coord | thread t =>
      simp only [systemStep, Option.map_eq_some_iff] at hstep
      obtain ⟨m, -, rfl⟩ := hstep
      exact Or.inl hpc'

/-! ## The writes that have returned -/

omit [BlockDevice σ β] in
theorem returned_of_writes (hreturns : s.Returns s' c)
    (hwrites : (s.request c).Writes b) :
    returned s s' written (.client c) b =
      (s.request c).buf (b - (s.request c).offset) := by
  rw [returned, if_pos hreturns]
  exact issued_of_writes hwrites

omit [BlockDevice σ β] in
/-- Only a write that returns changes what has been written. -/
theorem returned_of_not_writes
    (hnone : ∀ c, s.Returns s' c → ¬ (s.request c).Writes b) :
    returned s s' written event b = written b := by
  cases event with
  | client c =>
      rw [returned]
      split
      · rename_i hreturns
        exact issued_of_not_writes (hnone c hreturns)
      · rfl
  | call _ _ | worker _ | migrate _ | coord | thread _ => rfl

/-- A call returns in a step of its client. -/
theorem System.Returns.event_eq (h : s.Returns s' c)
    (hstep : systemStep s event = some s') : event = .client c := by
  by_contra hne
  have hcall : ∀ request, event ≠ .call c request := by
    rintro request rfl
    exact h.1.1 (systemStep_call_eq hstep).1
  have hclient := systemStep_client hcall hne hstep
  refine h.2 ?_
  rw [System.Running, hclient]
  exact h.1

/-! ## The invariant -/

/-- The devices show of each block the data of the last write that has
returned, or those of the write that is running. -/
structure DurableInv (cap : ℕ) (s : System T σ β) (written : ℕ → β) :
    Prop where
  contents : ContentsInv s
  records : RecordsInv s
  cap_eq : s.perBlockNum = cap
  settled : ∀ b, (∀ c, s.Running c → ¬ (s.request c).Writes b) →
    written b = s.latest b
  kept : ∀ b c, s.Running c → (s.request c).Writes b →
    (s.Executed c (b - (s.request c).offset) → s.Recording c) →
    s.Shows b (written b) ∨
      s.Shows b ((s.request c).buf (b - (s.request c).offset))

variable {cap : ℕ}

/-- The devices show the data of a write that has executed the block and
recorded it. -/
theorem DurableInv.shows_latest (h : DurableInv cap s written)
    (hall : ∀ c, s.Running c → (s.request c).Writes b →
      s.Executed c (b - (s.request c).offset) ∧ ¬ s.Recording c) :
    s.Shows b (s.latest b) := by
  have htasks := h.contents.tasks
  have hholds := h.contents.stored b fun c hover =>
    hover.2.2 (hall c hover.1 hover.2.1).1
  by_cases hb : b < nvmThreshold
  · exact (System.shows_nvm hb).mpr ((System.holds_nvm hb).mp hholds)
  · rw [System.holds_ssd hb] at hholds
    refine (System.shows_ssd hb).mpr
      (h.records.persistent h.contents.cache hholds ?_)
    -- the worker of a claim runs a write of the block
    rintro ⟨i, hclaiming⟩
    obtain ⟨task, slot, hpc, hk⟩ := WorkerPc.claiming_eq_some hclaiming
    obtain ⟨hcurrent, hbranch⟩ := htasks.redirects hpc
    have hposted := htasks.posted (System.mem_pending_of_worker hcurrent)
    obtain ⟨hexec, hrecording⟩ := hall task.inflightBuffer
      (System.running_of_wait hposted.client)
      ((htasks.buffers hcurrent hbranch).writes_iff.mpr (by omega))
    rcases hpc with hpc | hpc
    · refine htasks.not_executed_of_worker hcurrent ?_ hexec
      rw [hpc]
      exact id
    · exact hrecording ⟨i, task, slot, hpc, rfl⟩

/-- What the devices show of a block stays, unless a write to it puts its data
there, is recorded or returns. -/
theorem DurableInv.shows_step (h : DurableInv cap s written)
    (hpost : PostInv s') (hmoves : RecordMoves s s')
    (hstep : systemStep s event = some s') (hshows : s.Shows b x) :
    s'.Shows b x ∨ ∃ c, s.Running c ∧ (s.request c).Writes b ∧
      (s'.Shows b ((s.request c).buf (b - (s.request c).offset)) ∨
        s'.Executed c (b - (s.request c).offset) ∧ ¬ s'.Recording c ∨
        ¬ s'.Running c) := by
  have htasks := h.contents.tasks
  by_cases hb : b < nvmThreshold
  · rw [System.shows_nvm hb] at hshows ⊢
    rcases htasks.nvm_step hstep b with hsame | ⟨c, hrunning, hwrites, hnew⟩
    · exact Or.inl (hsame.trans hshows)
    · exact Or.inr ⟨c, hrunning, hwrites,
        Or.inl ((System.shows_nvm hb).mpr hnew)⟩
  · rw [System.shows_ssd hb] at hshows ⊢
    -- a worker that buffers the block
    have howner : ∀ {i : Fin 4} {task : IoTask β},
        (s.workers i).current = some task →
        workerBranch task = .redirectWrite →
        task.offset = b - nvmThreshold →
        s.Running task.inflightBuffer ∧
          (s.request task.inflightBuffer).Writes b ∧
          task.buf 0 = (s.request task.inflightBuffer).buf
            (b - (s.request task.inflightBuffer).offset) := by
      intro i task hcurrent hbranch hk
      have hposted := htasks.posted (System.mem_pending_of_worker hcurrent)
      have hbuffers := htasks.buffers hcurrent hbranch
      have hoffset := hbuffers.offset
      have hfirst : b - (s.request task.inflightBuffer).offset = 0 := by
        omega
      refine ⟨System.running_of_wait hposted.client,
        hbuffers.writes_iff.mpr (by omega), ?_⟩
      rw [hfirst, hbuffers.buf]
    rcases hmoves.persistent h.records h.contents.cache hshows with hsame |
      ⟨i, task, slot, hpc, hk, hnew⟩ | ⟨i, task, slot, ret, hpc, hk, hpc'⟩ |
      ⟨c, task, hpc, hop, hcovers, hpc'⟩
    · exact Or.inl hsame
    · have hfits := htasks.fits i
      rw [hpc] at hfits
      obtain ⟨hrunning, hwrites, hbuf⟩ :=
        howner (i := i) (by rw [hpc]; rfl) hfits hk
      exact Or.inr ⟨_, hrunning, hwrites,
        Or.inl ((System.shows_ssd hb).mpr (hbuf ▸ hnew))⟩
    · have hfits := htasks.fits i
      rw [hpc] at hfits
      obtain ⟨hrunning, hwrites, -⟩ :=
        howner (i := i) (by rw [hpc]; rfl) hfits hk
      refine Or.inr ⟨_, hrunning, hwrites, Or.inr (Or.inl ⟨?_, ?_⟩)⟩
      · refine .worker (i := i) ?_
        rw [hpc']
        exact rfl
      · -- its worker is past the record, and no other has its task
        rintro ⟨j, task', slot', hpc'', hsame⟩
        have hmem : task ∈ s'.pending i :=
          System.mem_pending_of_worker (by rw [hpc']; rfl)
        have hmem' : task' ∈ s'.pending j :=
          System.mem_pending_of_worker (by rw [hpc'']; rfl)
        obtain ⟨-, rfl⟩ := hpost.tickets.owner_inj hmem hmem' hsame.symm
        rw [hpc'] at hpc''
        cases hpc''
    · have htransfer := htasks.transferring hpc
      refine Or.inr ⟨c, ?_, ⟨htransfer.isWrite_iff.mp hop,
        (htransfer.covers_iff hb).mp hcovers⟩, Or.inr (Or.inr ?_)⟩
      · rw [System.Running, hpc]
        simp
      · intro hrunning
        exact hrunning.2 task hpc'

/-! ## Steps -/

/-- The call of a request that meets no running write. -/
theorem DurableInv.call {R : Request β} (h : DurableInv cap s written)
    (hposts : R.Posts)
    (hmeets : ∀ d, s.Running d → ¬ R.Meets (s.request d))
    (hstep : systemStep s (.call c R) = some s') (hcontents : ContentsInv s')
    (hrecords : RecordsInv s') (hcap : s'.perBlockNum = s.perBlockNum) :
    DurableInv cap s' written := by
  have hevent : (SystemEvent.call c R : SystemEvent T β).Posts := hposts
  obtain ⟨hidle, hs'⟩ := systemStep_call_eq hstep
  have hmachine : s'.machine = s.machine := by rw [hs']; rfl
  have hworkers : s'.workers = s.workers := by rw [hs']; rfl
  have hlatest : s'.latest = issued s.latest R := by rw [hs']; rfl
  have hnew : s'.request c = R := by
    rw [hs']
    exact Function.update_self _ _ _
  have hrequest : ∀ d, d ≠ c → s'.request d = s.request d := by
    intro d hd
    rw [hs']
    exact Function.update_of_ne hd _ _
  have hrunning : ∀ d, d ≠ c → (s'.Running d ↔ s.Running d) := by
    intro d hd
    have hclient : s'.clients d = s.clients d := by
      rw [hs']
      exact Function.update_of_ne hd _ _
    rw [System.Running, hclient]
    rfl
  have hcalling : s'.Running c := by
    by_contra hended
    have hnot : ¬ s'.Executed c 0 := hcontents.tasks.not_executed hposts
      (by rw [hs']; exact Function.update_self _ _ _)
    exact hnot (.ended hended)
  refine ⟨hcontents, hrecords, hcap.trans h.cap_eq, fun b hnone => ?_,
    fun b d hd hwrites hexec => ?_⟩
  · have hR : ¬ R.Writes b := hnew ▸ hnone c hcalling
    rw [hlatest, issued_of_not_writes hR]
    refine h.settled b fun d hd hwrites => ?_
    have hdc : d ≠ c := by
      rintro rfl
      exact hd.1 hidle
    exact hnone d ((hrunning d hdc).mpr hd) (by rwa [hrequest d hdc])
  · by_cases hdc : d = c
    · -- no other write of the block is running
      rw [hdc, hnew] at hwrites
      have hnone : ∀ e, s.Running e → ¬ (s.request e).Writes b :=
        fun e he hwrites' => hmeets e he (hwrites.meets hwrites')
      left
      rw [h.settled b hnone]
      exact (h.shows_latest fun e he hwrites' =>
        absurd hwrites' (hnone e he)).congr hmachine
    · rw [hrequest d hdc] at hwrites hexec ⊢
      refine (h.kept b d ((hrunning d hdc).mp hd) hwrites
        fun hbefore => ?_).imp (·.congr hmachine) (·.congr hmachine)
      refine (hexec ?_).congr hworkers.symm
      exact h.contents.tasks.executed_step hevent
        (fun R' heq => hdc (SystemEvent.call.inj heq).1.symm) hstep hbefore

/-- A step that is no call. -/
theorem DurableInv.move (h : DurableInv cap s written)
    (hcall : ∀ c request, event ≠ .call c request)
    (hstep : systemStep s event = some s') (hcontents : ContentsInv s')
    (hmoves : RecordMoves s s') (hcap : s'.perBlockNum = s.perBlockNum) :
    DurableInv cap s' (returned s s' written event) := by
  have htasks := h.contents.tasks
  have hposts : event.Posts := by
    cases event with
    | call c request => exact absurd rfl (hcall c request)
    | client c | worker i | migrate i | coord | thread t => trivial
  have htaskMoves := htasks.systemStep_moves hposts hstep
  have hlatest := systemStep_latest hstep hcall
  have hrequest : ∀ c, s'.request c = s.request c := fun c =>
    htaskMoves.request_eq fun request hmem =>
      hcall c request (eq_call_of_mem_callEvents hmem)
  have hrunning : ∀ c, s'.Running c → s.Running c := by
    intro c hrun
    rcases htaskMoves.running hrun with ⟨hbefore, -⟩ | hcalled
    · exact hbefore
    · exact absurd (eq_call_of_mem_callEvents hcalled) (hcall c _)
  refine ⟨hcontents, hmoves.recordsInv h.records h.contents.cache,
    hcap.trans h.cap_eq, fun b hnone => ?_, fun b c hc hwrites hexec => ?_⟩
  · rw [hlatest]
    by_cases hall : ∃ c, s.Running c ∧ (s.request c).Writes b
    · -- the write that was running has returned
      obtain ⟨c, hc, hwrites⟩ := hall
      have hreturns : s.Returns s' c :=
        ⟨hc, fun hafter => hnone c hafter (by rwa [hrequest])⟩
      obtain rfl := hreturns.event_eq hstep
      rw [returned_of_writes hreturns hwrites, h.contents.fresh b c hc hwrites]
    · have hnone' : ∀ c, s.Running c → ¬ (s.request c).Writes b :=
        fun c hc hwrites => hall ⟨c, hc, hwrites⟩
      rw [returned_of_not_writes fun c hreturns => hnone' c hreturns.1]
      exact h.settled b hnone'
  · have hbefore := hrunning c hc
    rw [hrequest] at hwrites hexec ⊢
    rw [returned_of_not_writes fun d hreturns hwrites' => hreturns.2
      (h.contents.alone b c d hbefore hreturns.1 hwrites hwrites' ▸ hc)]
    have hkept := h.kept b c hbefore hwrites fun hexecuted => by
      -- a worker that records now did not execute the block just before
      obtain ⟨i, task, slot, hpc', howner⟩ := hexec
        (htasks.executed_step hposts (hcall c) hstep hexecuted)
      rcases systemStep_record hstep hpc' with hpc | hpc
      · exact ⟨i, task, slot, hpc, howner⟩
      · subst howner
        have hcurrent : (s.workers i).current = some task := by
          rw [hpc]
          rfl
        refine absurd hexecuted (htasks.not_executed_of_worker hcurrent ?_)
        rw [hpc]
        exact id
    -- the write of the block is that of client `c`, which goes on
    have hkeep : ∀ x, s.Shows b x → s'.Shows b x ∨ s'.Shows b
        ((s.request c).buf (b - (s.request c).offset)) := by
      intro x hshows
      rcases h.shows_step hcontents.tasks.toPostInv hmoves hstep hshows with
        hsame | ⟨d, hd, hwrites', hdone⟩
      · exact Or.inl hsame
      · obtain rfl := h.contents.alone b c d hbefore hd hwrites hwrites'
        rcases hdone with hnew | ⟨hafter, hrecording⟩ | hended
        · exact Or.inr hnew
        · exact absurd (hexec hafter) hrecording
        · exact absurd hc hended
    rcases hkept with hold | hnew
    · exact hkeep _ hold
    · exact Or.inr ((hkeep _ hnew).elim id id)

theorem committedStep_durableInv {s s' : Committed T σ β}
    (h : DurableInv cap s.system s.written) (hpos : 0 < T) (hT : T ≤ 127)
    (hapart : s.system.CallsApart event)
    (hsafe : s.system.MovesSafely event)
    (hstep : committedStep s event = some s') :
    DurableInv cap s'.system s'.written := by
  simp only [committedStep, Option.map_eq_some_iff] at hstep
  obtain ⟨system, hsystem, rfl⟩ := hstep
  have hcontents :=
    systemStep_contentsInv h.contents hpos hT hapart hsafe hsystem
  obtain ⟨hmoves, hcap⟩ := systemStep_recordMoves h.contents.cache
    h.contents.tasks hpos hT hsafe hsystem
  have hrecords := hmoves.recordsInv h.records h.contents.cache
  cases event with
  | call c R =>
      exact h.call hapart.1.posts hapart.2 hsystem hcontents hrecords hcap
  | client c | worker i | migrate i | coord | thread t =>
      exact h.move (fun _ _ heq => by cases heq) hsystem hcontents hmoves hcap

/-! ## What is recovered -/

/-- The valid records of a segment are those of its blocks. -/
theorem DurableInv.mem_recordPairs_iff (h : DurableInv cap s written)
    {m : MixMetadata} (hm : m.perBlockNum = cap) {lba v : ℕ} :
    (lba, v) ∈ recordPairs m s.machine.store.dev i m.perBlockNum ↔
      v < cap ∧ s.machine.cells.record
        (s.machine.store.metaData.bufferBlock i v) = some lba := by
  have hblock : m.bufferBlock i v =
      s.machine.store.metaData.bufferBlock i v :=
    MixMetadata.bufferBlock_congr (hm.trans h.cap_eq.symm) i v
  rw [mem_recordPairs, hm]
  refine and_congr_right fun _ => ?_
  simp only [recordPair, mixBufferGetMeta, hblock]
  constructor
  · intro hpair
    split at hpair
    · rename_i hvalid
      have hrecord : s.machine.cells.record
          (s.machine.store.metaData.bufferBlock i v) = some
            (s.machine.store.dev.bufferMeta
              (s.machine.store.metaData.bufferBlock i v)).offset := by
        simp only [Machine.cells, hvalid, if_true]
      have hlt := h.records.key_lt _ _ (h.records.recorded _ _ hrecord)
      have hlba := congrArg Prod.fst (Option.some.inj hpair)
      rw [hrecord]
      exact congrArg some ((Nat.mod_eq_of_lt hlt).symm.trans hlba)
    · cases hpair
  · intro hrecord
    have hlt := h.records.key_lt _ _ (h.records.recorded _ _ hrecord)
    simp only [Machine.cells] at hrecord
    split at hrecord
    · rename_i hvalid
      rw [Option.some.injEq] at hrecord
      rw [if_pos hvalid, hrecord, Nat.mod_eq_of_lt hlt]
    · cases hrecord

/-- The valid records of a segment are of different blocks. -/
theorem DurableInv.records_nodup (h : DurableInv cap s written)
    {m : MixMetadata} (hm : m.perBlockNum = cap) (i : Fin 4) :
    ((recordPairs m s.machine.store.dev i m.perBlockNum).map
      Prod.fst).Nodup := by
  refine List.Nodup.map_on ?_
    (List.Nodup.of_map _ (recordPairs_values_nodup m.perBlockNum))
  rintro ⟨k, u⟩ hu ⟨k', v⟩ hv rfl
  obtain ⟨hult, hurecord⟩ := (h.mem_recordPairs_iff hm).mp hu
  obtain ⟨hvlt, hvrecord⟩ := (h.mem_recordPairs_iff hm).mp hv
  rw [← h.cap_eq] at hult hvlt
  have hplace := h.contents.cache.placed.unique_place k _ _
    (h.records.recorded _ _ hurecord) (h.records.recorded _ _ hvrecord)
  have huv := (MixMetadata.bufferBlock_inj
    (h.contents.cache.machine.segment i).shape.per_lt hult hvlt hplace).2
  rw [huv]

/-- What is recovered of a block depends on the slots of its segment and on
the SSD. -/
theorem recoveredBlock_congr {blockNum : ℕ} (hsize : ValidSize blockNum)
    (migration : Fin 4 → Bool) {dev dev' : Devices σ β} {m : MixMetadata}
    (hm : m = mixMetadataInit blockNum migration)
    (hdistinct : ((recordPairs m dev i m.perBlockNum).map Prod.fst).Nodup)
    (hmeta : ∀ v < m.perBlockNum, dev'.bufferMeta (m.bufferBlock i v) =
      dev.bufferMeta (m.bufferBlock i v))
    (hbuffer : ∀ v < m.perBlockNum, dev'.buffer (m.bufferBlock i v) =
      dev.buffer (m.bufferBlock i v))
    (hssd : dev'.ssd = dev.ssd) {lba : ℕ} (hlba : lba < 2 ^ 32) :
    recoveredBlock blockNum migration dev' i lba =
      recoveredBlock blockNum migration dev i lba := by
  have hpairs : recordPairs m dev' i m.perBlockNum =
      recordPairs m dev i m.perBlockNum := by
    refine List.filterMap_congr fun v hv => ?_
    have hrecord : mixBufferGetMeta dev' (m.bufferBlock i v) =
        mixBufferGetMeta dev (m.bufferBlock i v) :=
      hmeta v (List.mem_range.mp hv)
    rw [recordPair, hrecord, recordPair]
  obtain ⟨hbuffered, hunbuffered⟩ :=
    recoveredBlock_spec hsize migration hm hdistinct hlba
  rw [← hpairs] at hdistinct hbuffered hunbuffered
  obtain ⟨hbuffered', hunbuffered'⟩ :=
    recoveredBlock_spec hsize migration hm hdistinct hlba
  by_cases hmem : ∃ v, (lba, v) ∈ recordPairs m dev' i m.perBlockNum
  · obtain ⟨v, hv⟩ := hmem
    rw [hbuffered v hv, hbuffered' v hv, hbuffer v (mem_recordPairs.mp hv).1]
  · rw [not_exists] at hmem
    rw [hunbuffered hmem, hunbuffered' hmem, Devices.ssdBlock, hssd,
      Devices.ssdBlock]

/-- What the devices show of a block of the SSD is recovered. -/
theorem DurableInv.recovered_ssd {blockNum : ℕ} (hsize : ValidSize blockNum)
    (migration : Fin 4 → Bool)
    (h : DurableInv (blockNum / segmentNum) s written) {lba : ℕ}
    (hlba : lba < 2 ^ 32) (hx : s.machine.cells.Persistent lba x) :
    recoveredBlock blockNum migration s.machine.store.dev (segmentOf lba)
      lba = some x := by
  set m := mixMetadataInit blockNum migration with hm
  have hcap : m.perBlockNum = blockNum / segmentNum := rfl
  have hdistinct := h.records_nodup hcap (segmentOf lba)
  obtain ⟨hbuffered, hunbuffered⟩ :=
    recoveredBlock_spec hsize migration hm hdistinct hlba
  by_cases hmem : ∃ v, (lba, v) ∈ recordPairs m s.machine.store.dev
      (segmentOf lba) m.perBlockNum
  · obtain ⟨v, hv⟩ := hmem
    rw [hbuffered v hv, MixMetadata.bufferBlock_congr
      (hcap.trans h.cap_eq.symm)]
    exact congrArg some
      (hx.buffered _ ((h.mem_recordPairs_iff hcap).mp hv).2)
  · rw [not_exists] at hmem
    rw [hunbuffered hmem]
    refine congrArg some (hx.unbuffered fun p hp => ?_)
    -- a record of the block lies in its segment
    obtain ⟨j, v, hv, rfl⟩ := h.records.recorded _ _ hp
    have hroute : lba % 4 = j.val := h.contents.cache.routed j _ hv
    obtain rfl : segmentOf lba = j := Fin.ext hroute
    refine hmem v ((h.mem_recordPairs_iff hcap).mpr ⟨?_, hp⟩)
    rw [← h.cap_eq]
    exact h.contents.cache.machine.live_lt hv

theorem DurableInv.recovered {blockNum : ℕ} (hsize : ValidSize blockNum)
    (migration : Fin 4 → Bool)
    (h : DurableInv (blockNum / segmentNum) s written)
    (hb : b < nvmThreshold + 2 ^ 32) (hx : s.Shows b x) :
    recoveredLogical blockNum migration s.machine.store.dev b = some x := by
  by_cases hnvm : b < nvmThreshold
  · rw [recoveredLogical, if_pos hnvm]
    exact congrArg some ((System.shows_nvm hnvm).mp hx)
  · rw [recoveredLogical, if_neg hnvm]
    exact h.recovered_ssd hsize migration (by omega)
      ((System.shows_ssd hnvm).mp hx)

/-- The devices show of each block the data of the last write, or of a write
that is running. -/
theorem DurableInv.accounts {s : Committed T σ β}
    (h : DurableInv cap s.system s.written) (b : ℕ) :
    ∃ x, s.system.Shows b x ∧ s.Accounts b x := by
  by_cases hdone : ∀ c, s.system.Running c → (s.system.request c).Writes b →
      s.system.Executed c (b - (s.system.request c).offset) ∧
        ¬ s.system.Recording c
  · refine ⟨_, h.shows_latest hdone, ?_⟩
    by_cases hall : ∃ c, s.system.Running c ∧ (s.system.request c).Writes b
    · obtain ⟨c, hc, hwrites⟩ := hall
      exact Or.inr ⟨c, hc, hwrites, h.contents.fresh b c hc hwrites⟩
    · exact Or.inl (h.settled b fun c hc hwrites =>
        hall ⟨c, hc, hwrites⟩).symm
  · simp only [not_forall] at hdone
    obtain ⟨c, hc, hwrites, hnot⟩ := hdone
    rcases h.kept b c hc hwrites fun hexec =>
        by_contra fun hrecording => hnot ⟨hexec, hrecording⟩ with hold | hnew
    · exact ⟨_, hold, Or.inl rfl⟩
    · exact ⟨_, hnew, Or.inr ⟨c, hc, hwrites, rfl⟩⟩

theorem DurableInv.durable {blockNum : ℕ} (hsize : ValidSize blockNum)
    (migration : Fin 4 → Bool) {s : Committed T σ β}
    (h : DurableInv (blockNum / segmentNum) s.system s.written) :
    s.Durable blockNum migration := by
  intro b hb
  obtain ⟨x, hshows, hx⟩ := h.accounts b
  exact ⟨x, h.recovered hsize migration hb hshows, hx⟩

theorem initial_durableInv {blockNum : ℕ} (hsize : ValidSize blockNum)
    (migration : Fin 4 → Bool) {dev : Devices σ β}
    (hclean : dev.Clean) (segmentIdx : Fin 4)
    (migrateBuf : Fin T → β) (inflight : Fin 16 → ℤ) (dst : Fin 16 → ℕ → β)
    (request : Fin 16 → Request β) :
    DurableInv (blockNum / segmentNum)
      (System.initial T (freshStore blockNum migration dev) segmentIdx
        migrateBuf inflight dst request)
      (System.initial T (freshStore blockNum migration dev) segmentIdx
        migrateBuf inflight dst request).latest := by
  have hlive := initial_live (T := T) blockNum migration dev
    segmentIdx migrateBuf
  have hnolive : ∀ k p, ¬ (Machine.initial T
      (freshStore blockNum migration dev) segmentIdx
        migrateBuf).cells.live k p := by
    rintro k p ⟨j, v, hv, -⟩
    rw [hlive j] at hv
    exact List.not_mem_nil hv
  refine ⟨initial_contentsInv hsize migration dev segmentIdx migrateBuf
    inflight dst request, ⟨fun k p hrecord => ?_, fun k p hlive' => ?_,
    fun k p hlive' => ?_⟩, rfl, fun b _ => rfl,
    fun b c hc => absurd rfl hc.1⟩
  · simp [Machine.cells, System.initial, Machine.initial, freshStore,
      hclean p] at hrecord
  · exact absurd hlive' (hnolive k p)
  · exact absurd hlive' (hnolive k p)

/-- In every run from clear records in which the calls are valid, writes to a
block do not overlap in time, no write goes to the SSD under a buffered block,
and migrations are called where they move the data, a crash after any step
loses no write that has returned. -/
theorem durable_allStates {blockNum : ℕ} (hsize : ValidSize blockNum)
    (migration rebuilt : Fin 4 → Bool) (dev : Devices σ β)
    (hclean : dev.Clean) (segmentIdx : Fin 4)
    (migrateBuf : Fin T → β) (inflight : Fin 16 → ℤ) (dst : Fin 16 → ℕ → β)
    (request : Fin 16 → Request β) (hpos : 0 < T) (hT : T ≤ 127)
    {events : List (SystemEvent T β)}
    (hapart : AllSteps committedStep (fun s => s.system.CallsApart)
      (.initial (System.initial T (freshStore blockNum migration dev)
        segmentIdx migrateBuf inflight dst request)) events)
    (hsafe : AllSteps committedStep (fun s => s.system.MovesSafely)
      (.initial (System.initial T (freshStore blockNum migration dev)
        segmentIdx migrateBuf inflight dst request)) events) :
    AllStates committedStep (Committed.Durable blockNum rebuilt)
      (.initial (System.initial T (freshStore blockNum migration dev)
        segmentIdx migrateBuf inflight dst request)) events := by
  refine (allStates_of_allSteps
    (I := fun s => DurableInv (blockNum / segmentNum) s.system s.written) ?_
    (initial_durableInv hsize migration hclean segmentIdx migrateBuf inflight
      dst request) (hapart.and hsafe)).mono
    fun s h => h.durable hsize rebuilt
  intro s event s' h hevent hstep
  exact committedStep_durableInv h hpos hT hevent.1 hevent.2 hstep

theorem durable_allStates_example :
    AllStates committedStep (Committed.Durable 32 fun _ => false)
      (.initial freshSystem) (lastWriterSteps 4) :=
  durable_allStates (by decide) _ _ _ (fun _ => (by decide : 0 % 2 ≠ 1)) _ _
    _ _ _ (by decide) (by decide) (by decide +kernel) (by decide +kernel)

end Uhs
