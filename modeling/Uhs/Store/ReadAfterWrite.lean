import Uhs.Store.Executed
import Uhs.Support.Runs

/-!
# Reads after writes in the NVM zone

Once a call has executed a block, the block holds what the call has written,
or the memory of the client what the call has read, as long as no other write
to the block is running.
-/

namespace Uhs

open Support

variable {T : ℕ} {σ β : Type*} {s s' : System T σ β} {c d : Fin 16}
  {i : Fin 4} {task : IoTask β} {request W R : Request β} {b k : ℕ} {x : β}

/-! ## Tasks of the NVM zone -/

/-- The workers know an NVM task as such. -/
theorem Posted.branch_nvm (h : Posted s i task)
    (hnvm : (s.request task.inflightBuffer).offset +
      (s.request task.inflightBuffer).len < nvmThreshold) :
    workerBranch task = .nvmRead ∨ workerBranch task = .nvmWrite := by
  have htype := Request.task_type_nvm hnvm task.inflightBuffer
  rw [← h.task_eq] at htype
  rw [h.branch, htype]
  cases (s.request task.inflightBuffer).isWrite
  · exact Or.inl rfl
  · exact Or.inr rfl

/-- An NVM request is not sent to the SSD. -/
theorem PostInv.ne_ssd (h : PostInv s)
    (hnvm : (s.request c).offset + (s.request c).len < nvmThreshold)
    (task : IoTask β) : s.clients c ≠ .ssd task := by
  intro hpc
  have hserves := h.serves c
  have htype := Request.task_type_nvm hnvm c
  rw [hpc] at hserves
  obtain ⟨hssd, ⟨-, -, rfl⟩ | ⟨-, rfl⟩⟩ := hserves
  · change ((s.request c).task c).type = .ssd at hssd
    rw [htype] at hssd
    cases hssd
  · rw [htype] at hssd
    cases hssd

/-- An NVM request is not redirected to the buffer. -/
theorem PostInv.ne_data (h : PostInv s)
    (hnvm : (s.request c).offset + (s.request c).len < nvmThreshold)
    (howner : task.inflightBuffer = c) (slot : ℤ) :
    s.workers i ≠ .data task slot := by
  intro hpc
  have hfits := h.fits i
  rw [hpc] at hfits
  have hcurrent : (s.workers i).current = some task := by
    rw [hpc]
    rfl
  have hposted := h.posted (System.mem_pending_of_worker hcurrent)
  subst howner
  have hbranch : workerBranch task = .redirectWrite := hfits
  rcases hposted.branch_nvm hnvm with hread | hwrite
  · rw [hbranch] at hread
    cases hread
  · rw [hbranch] at hwrite
    cases hwrite

/-! ## What a step changes in the NVM zone -/

section Steps

variable [BlockDevice σ β] {event : SystemEvent T β}

/-- A block of the NVM zone changes only while a write to it is running. -/
theorem PostInv.nvm_step (h : PostInv s)
    (hstep : systemStep s event = some s') (b : ℕ) :
    s'.nvm b = s.nvm b ∨ ∃ d, s.Running d ∧ (s.request d).Writes b ∧
      s'.nvm b = (s.request d).buf (b - (s.request d).offset) := by
  cases h.systemStep_zoneMoves hstep with
  | same hnvm | call hnvm | transfer hpc hnvm | read hpc hn hnvm =>
      exact Or.inl (congrFun hnvm b)
  | @write i task n hpc hn hnvm =>
      by_cases hb : b = task.offset + n
      · obtain ⟨hposted, hbranch⟩ := h.posted_nvmWrite hpc
        obtain ⟨hoffset, hbuf⟩ := hposted.nvm_fields (Or.inr hbranch)
        have hlen := hposted.len
        refine Or.inr ⟨task.inflightBuffer,
          System.running_of_wait hposted.client,
          ⟨hposted.nvmWrite_isWrite hbranch, by omega, by omega⟩, ?_⟩
        rw [hnvm, hb, Function.update_self, ← hbuf, ← hoffset,
          Nat.add_sub_cancel_left]
      · refine Or.inl ?_
        rw [hnvm, Function.update_of_ne hb]

/-- The memory of a running read changes only where its worker reads. -/
theorem PostInv.dst_step (h : PostInv s)
    (hcall : ∀ request, event ≠ .call d request)
    (hnvm : (s.request d).offset + (s.request d).len < nvmThreshold)
    (hstep : systemStep s event = some s') (k : ℕ) :
    s'.dst d k = s.dst d k ∨
      s'.dst d k = s.nvm ((s.request d).offset + k) := by
  cases h.systemStep_zoneMoves hstep with
  | same _ hdst | write _ _ _ hdst =>
      exact Or.inl (by rw [hdst])
  | @call c request _ hdst =>
      have hd : d ≠ c := by
        rintro rfl
        exact hcall request rfl
      rw [hdst, Function.update_of_ne hd]
      exact Or.inl rfl
  | @transfer _ c task hpc _ hdst =>
      have hd : d ≠ c := by
        rintro rfl
        exact h.ne_ssd hnvm task hpc
      rw [hdst d hd]
      exact Or.inl rfl
  | @read i task n hpc hn _ hdst =>
      by_cases hd : d = task.inflightBuffer ∧ k = n
      · obtain ⟨rfl, rfl⟩ := hd
        obtain ⟨hposted, hbranch⟩ := h.posted_nvmRead hpc
        have hoffset := (hposted.nvm_fields (Or.inl hbranch)).1
        rw [hdst, Function.update_self, Function.update_self, hoffset]
        exact Or.inr rfl
      · refine Or.inl ?_
        rw [hdst]
        by_cases hown : d = task.inflightBuffer
        · subst hown
          rw [Function.update_self,
            Function.update_of_ne fun hkn => hd ⟨rfl, hkn⟩]
        · rw [Function.update_of_ne hown]

/-! ## Invariants of the three phases -/

/-- The event makes no call that writes block `b`. -/
def SystemEvent.Spares (b : ℕ) : SystemEvent T β → Prop
  | .call _ request => request.Posts ∧ ¬ request.Writes b
  | _ => True

/-- The event is a call of client `c`. -/
def SystemEvent.CalledBy (c : Fin 16) : SystemEvent T β → Prop
  | .call d _ => d = c
  | _ => False

instance (b : ℕ) : DecidablePred (SystemEvent.Spares (T := T) (β := β) b)
  | .call _ _ => inferInstanceAs (Decidable (_ ∧ _))
  | .client _ => isTrue trivial
  | .worker _ => isTrue trivial
  | .migrate _ => isTrue trivial
  | .coord => isTrue trivial
  | .thread _ => isTrue trivial

instance (c : Fin 16) :
    DecidablePred (SystemEvent.CalledBy (T := T) (β := β) c)
  | .call d _ => inferInstanceAs (Decidable (d = c))
  | .client _ => isFalse id
  | .worker _ => isFalse id
  | .migrate _ => isFalse id
  | .coord => isFalse id
  | .thread _ => isFalse id

theorem SystemEvent.Spares.posts (h : event.Spares b) : event.Posts := by
  cases event with
  | call d request => exact h.1
  | client d | worker i | migrate i | coord | thread t => trivial

theorem SystemEvent.not_calledBy (h : ¬ event.CalledBy c)
    (request : Request β) : event ≠ .call c request := by
  rintro rfl
  exact h rfl

/-- No other write to the block is running than those of the clients that are
left out. -/
def System.Alone (s : System T σ β) (b : ℕ) (who : Fin 16 → Prop) : Prop :=
  ∀ d, who d → s.Running d → ¬ (s.request d).Writes b

theorem PostInv.alone_step {who : Fin 16 → Prop} (h : PostInv s)
    (hspares : event.Spares b) (halone : s.Alone b who)
    (hstep : systemStep s event = some s') : s'.Alone b who := by
  intro d hd hrunning
  rcases (h.systemStep_moves hspares.posts hstep).running hrunning with
    ⟨hbefore, hrequest⟩ | hcalled
  · rw [hrequest]
    exact halone d hd hbefore
  · rw [eq_call_of_mem_callEvents hcalled] at hspares
    exact hspares.2

/-- Client `c` is writing block `b`, and nobody else is. -/
structure Writing (s : System T σ β) (c : Fin 16) (W : Request β) (b : ℕ) :
    Prop where
  tasks : PostInv s
  request : s.request c = W
  alone : s.Alone b fun d => d ≠ c
  stored : s.Executed c (b - W.offset) → s.nvm b = W.buf (b - W.offset)

/-- Block `b` holds `x`, and nobody is writing it. -/
structure Stored (s : System T σ β) (b : ℕ) (x : β) : Prop where
  tasks : PostInv s
  alone : s.Alone b fun _ => True
  stored : s.nvm b = x

/-- Client `d` is reading block `b`, which holds `x`. -/
structure Reading (s : System T σ β) (d : Fin 16) (R : Request β) (b : ℕ)
    (x : β) : Prop where
  stored : Stored s b x
  request : s.request d = R
  delivered : s.Executed d (b - R.offset) → s.dst d (b - R.offset) = x

theorem PostInv.systemStep_call (h : PostInv s) (hposts : request.Posts)
    (hstep : systemStep s (.call c request) = some s') :
    PostInv s' ∧ s'.request c = request ∧ s'.nvm = s.nvm ∧
      ¬ s'.Executed c k := by
  have hevent : (SystemEvent.call c request : SystemEvent T β).Posts := hposts
  have hinv : PostInv s' := systemStep_postInv h hevent hstep
  simp only [systemStep] at hstep
  split at hstep
  · cases hstep
    exact ⟨hinv, Function.update_self _ _ _, rfl,
      hinv.not_executed hposts (Function.update_self _ _ _)⟩
  · cases hstep

/-! ## The three phases -/

/-- The call of the write. -/
theorem PostInv.writing (h : PostInv s) (hposts : W.Posts)
    (halone : s.Alone b fun _ => True)
    (hstep : systemStep s (.call c W) = some s') : Writing s' c W b := by
  obtain ⟨hinv, hrequest, -, hexec⟩ := h.systemStep_call hposts hstep
  refine ⟨hinv, hrequest, fun d hd hrunning => ?_, fun h => absurd h hexec⟩
  have hevent : (SystemEvent.call c W : SystemEvent T β).Posts := hposts
  have hmoves := h.systemStep_moves hevent hstep
  rcases hmoves.running hrunning with ⟨hbefore, hsame⟩ | hcalled
  · rw [hsame]
    exact halone d trivial hbefore
  · exact absurd (SystemEvent.call.inj
      (eq_call_of_mem_callEvents hcalled)).1.symm hd

theorem Writing.step (h : Writing s c W b) (hwrites : W.Writes b)
    (hrange : W.offset + W.len < nvmThreshold) (hspares : event.Spares b)
    (hcall : ¬ event.CalledBy c) (hstep : systemStep s event = some s') :
    Writing s' c W b := by
  have hcalls := SystemEvent.not_calledBy hcall
  have hmoves := h.tasks.systemStep_moves hspares.posts hstep
  obtain ⟨hwrite, hge, hlt⟩ := hwrites
  refine ⟨hmoves.postInv h.tasks, ?_,
    h.tasks.alone_step hspares h.alone hstep, fun hexec => ?_⟩
  · rw [hmoves.request_eq fun request hmem =>
      hcalls request (eq_call_of_mem_callEvents hmem)]
    exact h.request
  · have hcases := h.tasks.executes hspares.posts hcalls
      (by rw [h.request]; omega) hstep hexec
    have hnvm : (s.request c).offset + (s.request c).len < nvmThreshold := by
      rw [h.request]
      exact hrange
    cases hcases with
    | before hbefore =>
        rcases h.tasks.nvm_step hstep b with hsame | ⟨d, hrunning, hd, hnew⟩
        · rw [hsame]
          exact h.stored hbefore
        · by_cases hdc : d = c
          · rw [hnew, hdc, h.request]
          · exact absurd hd (h.alone d hdc hrunning)
    | @read i task hpc howner _ =>
        obtain ⟨hposted, hbranch⟩ := h.tasks.posted_nvmRead hpc
        have hread := hposted.nvmRead_isWrite hbranch
        rw [howner, h.request, hwrite] at hread
        cases hread
    | @write i task hpc howner hwritten =>
        obtain ⟨hposted, hbranch⟩ := h.tasks.posted_nvmWrite hpc
        obtain ⟨hoffset, hbuf⟩ := hposted.nvm_fields (Or.inr hbranch)
        rw [howner, h.request] at hoffset hbuf
        rw [hoffset, hbuf, Nat.add_sub_cancel' hge] at hwritten
        exact hwritten
    | fill hpc howner _ => exact absurd hpc (h.tasks.ne_data hnvm howner _)
    | transfer hpc _ => exact absurd hpc (h.tasks.ne_ssd hnvm _)

omit [BlockDevice σ β] in
/-- The write has returned. -/
theorem Writing.isStored (h : Writing s c W b) (hreturned : ¬ s.Running c) :
    Stored s b (W.buf (b - W.offset)) where
  tasks := h.tasks
  alone := by
    intro d _ hrunning
    refine h.alone d ?_ hrunning
    rintro rfl
    exact hreturned hrunning
  stored := h.stored (.ended hreturned)

theorem Stored.step (h : Stored s b x) (hspares : event.Spares b)
    (hstep : systemStep s event = some s') : Stored s' b x where
  tasks := systemStep_postInv h.tasks hspares.posts hstep
  alone := h.tasks.alone_step hspares h.alone hstep
  stored := by
    rcases h.tasks.nvm_step hstep b with hsame | ⟨d, hrunning, hd, -⟩
    · rw [hsame]
      exact h.stored
    · exact absurd hd (h.alone d trivial hrunning)

/-- The call of the read. -/
theorem Stored.reading (h : Stored s b x) (hposts : R.Posts)
    (hread : R.isWrite = false)
    (hstep : systemStep s (.call d R) = some s') : Reading s' d R b x := by
  obtain ⟨-, hrequest, -, hexec⟩ := h.tasks.systemStep_call hposts hstep
  have hspares : (SystemEvent.call d R : SystemEvent T β).Spares b := by
    refine ⟨hposts, fun hwrites => ?_⟩
    rw [hwrites.1] at hread
    cases hread
  exact ⟨h.step hspares hstep, hrequest, fun h => absurd h hexec⟩

theorem Reading.step (h : Reading s d R b x) (hcovers : R.Covers b)
    (hread : R.isWrite = false) (hrange : R.offset + R.len < nvmThreshold)
    (hspares : event.Spares b) (hcall : ¬ event.CalledBy d)
    (hstep : systemStep s event = some s') : Reading s' d R b x := by
  have hcalls := SystemEvent.not_calledBy hcall
  have hmoves := h.stored.tasks.systemStep_moves hspares.posts hstep
  obtain ⟨hge, hlt⟩ := hcovers
  have hblock : R.offset + (b - R.offset) = b := Nat.add_sub_cancel' hge
  have hrequest := h.request
  refine ⟨h.stored.step hspares hstep, ?_, fun hexec => ?_⟩
  · rw [hmoves.request_eq fun request hmem =>
      hcalls request (eq_call_of_mem_callEvents hmem)]
    exact hrequest
  · have hcases := h.stored.tasks.executes hspares.posts hcalls
      (by rw [hrequest]; omega) hstep hexec
    have hnvm : (s.request d).offset + (s.request d).len < nvmThreshold := by
      rw [hrequest]
      exact hrange
    cases hcases with
    | before hbefore =>
        rcases h.stored.tasks.dst_step hcalls (by rw [hrequest]; exact hrange)
          hstep (b - R.offset) with hsame | hnew
        · rw [hsame]
          exact h.delivered hbefore
        · rw [hnew, hrequest, hblock]
          exact h.stored.stored
    | @read i task hpc howner hdst =>
        obtain ⟨hposted, hbranch⟩ := h.stored.tasks.posted_nvmRead hpc
        have hoffset := (hposted.nvm_fields (Or.inl hbranch)).1
        rw [howner, hrequest] at hoffset
        rw [hdst, hoffset, hblock]
        exact h.stored.stored
    | @write i task hpc howner _ =>
        obtain ⟨hposted, hbranch⟩ := h.stored.tasks.posted_nvmWrite hpc
        have hwrite := hposted.nvmWrite_isWrite hbranch
        rw [howner, hrequest, hread] at hwrite
        cases hwrite
    | fill hpc howner _ =>
        exact absurd hpc (h.stored.tasks.ne_data hnvm howner _)
    | transfer hpc _ => exact absurd hpc (h.stored.tasks.ne_ssd hnvm _)

/-- A read from the NVM zone that is called after a write to block `b` has
returned delivers what this write has written, if no other write to the block
is running from the call of the write to the return of the read. -/
theorem delivers_of_written {store : Store σ β} {segmentIdx : Fin 4}
    {migrateBuf : Fin T → β} {inflight : Fin 16 → ℤ} {dst : Fin 16 → ℕ → β}
    {requests : Fin 16 → Request β} {s₀ s₁ s₂ s₃ : System T σ β}
    {before during between after : List (SystemEvent T β)}
    (hposts : ∀ event ∈ before, event.Posts)
    (hbefore : runOps systemStep (System.initial T store segmentIdx
      migrateBuf inflight dst requests) before = some s₀)
    (halone : ∀ d, s₀.Running d → ¬ (s₀.request d).Writes b)
    (hW : W.Posts) (hwrites : W.Writes b)
    (hWrange : W.offset + W.len < nvmThreshold)
    (hduring : ∀ event ∈ during, event.Spares b ∧ ¬ event.CalledBy c)
    (hwrite : runOps systemStep s₀ (.call c W :: during) = some s₁)
    (hreturned : ¬ s₁.Running c)
    (hbetween : ∀ event ∈ between, event.Spares b)
    (hrest : runOps systemStep s₁ between = some s₂)
    (hR : R.Posts) (hread : R.isWrite = false) (hcovers : R.Covers b)
    (hRrange : R.offset + R.len < nvmThreshold)
    (hafter : ∀ event ∈ after, event.Spares b ∧ ¬ event.CalledBy d)
    (hrun : runOps systemStep s₂ (.call d R :: after) = some s₃)
    (hdone : ¬ s₃.Running d) :
    s₃.dst d (b - R.offset) = W.buf (b - W.offset) := by
  have hinv : PostInv s₀ := by
    refine inv_of_runOps ?_
      (postInv_initial store segmentIdx migrateBuf inflight dst requests)
      hposts hbefore
    intro s event s' h hevent hstep
    exact systemStep_postInv h hevent hstep
  -- the write runs
  rw [runOps, Option.bind_eq_some_iff] at hwrite
  obtain ⟨t, hcall, hwrite⟩ := hwrite
  have hwriting : Writing s₁ c W b := by
    refine inv_of_runOps (I := fun s => Writing s c W b) ?_
      (hinv.writing hW (fun d _ => halone d) hcall) hduring hwrite
    intro s event s' h hevent hstep
    exact h.step hwrites hWrange hevent.1 hevent.2 hstep
  -- nobody writes the block between the calls
  have hstored : Stored s₂ b (W.buf (b - W.offset)) := by
    refine inv_of_runOps (I := fun s => Stored s b (W.buf (b - W.offset))) ?_
      (hwriting.isStored hreturned) hbetween hrest
    intro s event s' h hevent hstep
    exact h.step hevent hstep
  -- the read runs
  rw [runOps, Option.bind_eq_some_iff] at hrun
  obtain ⟨u, hcall, hrun⟩ := hrun
  have hreading : Reading s₃ d R b (W.buf (b - W.offset)) := by
    refine inv_of_runOps
      (I := fun s => Reading s d R b (W.buf (b - W.offset))) ?_
      (hstored.reading hR hread hcall) hafter hrun
    intro s event s' h hevent hstep
    exact h.step hcovers hread hRrange hevent.1 hevent.2 hstep
  exact hreading.delivered (.ended hdone)

end Steps

/-! ## A closed run -/

/-- A write of `x, x + 1, ...` to the NVM blocks from `offset` on. -/
def nvmWriteRequest (offset len x : ℕ) : Request ℕ :=
  ⟨true, fun i => x + i, len, offset, 0⟩

/-- A read of the NVM blocks from `offset` on. -/
def nvmReadRequest (offset len : ℕ) : Request ℕ :=
  ⟨false, fun _ => 0, len, offset, 0⟩

/-- Client `c` posts its task, which worker `i` executes block by block. -/
def nvmSteps (c : Fin 16) (i : Fin 4) (len : ℕ) : List (SystemEvent 8 ℕ) :=
  [.client c] ++ List.replicate (len + 5) (.worker i) ++ [.client c]

/-- An earlier write to block `5` has returned. -/
def earlierSystem : System 8 (ℕ → ℕ) ℕ :=
  (runOps systemStep freshSystem
    (.call 2 (nvmWriteRequest 5 1 9) :: nvmSteps 2 1 1)).get
      (by decide +kernel)

/-- Worker `0` has written the blocks from `4` to `6`. -/
def writtenSystem : System 8 (ℕ → ℕ) ℕ :=
  (runOps systemStep earlierSystem
    (.call 0 (nvmWriteRequest 4 3 20) :: nvmSteps 0 0 3)).get
      (by decide +kernel)

/-- Client `0` has gone on, and client `2` writes block `7`. -/
def betweenSystem : System 8 (ℕ → ℕ) ℕ :=
  (runOps systemStep writtenSystem
    [.client 0, .client 2, .call 2 (nvmWriteRequest 7 1 3), .client 2]).get
      (by decide +kernel)

/-- Worker `1` has read the blocks `5` and `6`. -/
def readSystem : System 8 (ℕ → ℕ) ℕ :=
  (runOps systemStep betweenSystem
    (.call 1 (nvmReadRequest 5 2) :: nvmSteps 1 1 2)).get
      (by decide +kernel)

theorem delivers_of_written_example :
    readSystem.dst 1 (5 - (nvmReadRequest 5 2).offset) =
      (nvmWriteRequest 4 3 20).buf (5 - (nvmWriteRequest 4 3 20).offset) :=
  delivers_of_written (by decide) (Option.some_get _).symm (by decide +kernel)
    (by decide) (by decide) (by decide) (by decide) (Option.some_get _).symm
    (by decide +kernel) (by decide) (Option.some_get _).symm (by decide) rfl
    (by decide) (by decide) (by decide) (Option.some_get _).symm
    (by decide +kernel)

end Uhs
