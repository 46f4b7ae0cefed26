import Uhs.Store.Cache
import Uhs.Store.Executed

/-!
# Contents of the logical blocks

A logical block is a block of the NVM zone, or a block of the SSD that may be
buffered.  Its contents change only while a call that writes it is running and
has not executed it; from then on the block holds what the call has written.
-/

namespace Uhs

open Support

variable {T : ℕ} {σ β : Type*} [BlockDevice σ β]

/-- Logical block `b` holds `x`. -/
def System.Holds (s : System T σ β) (b : ℕ) (x : β) : Prop :=
  if b < nvmThreshold then s.nvm b = x
  else s.machine.cells.Volatile (b - nvmThreshold) x

variable {s s' : System T σ β} {c : Fin 16} {i : Fin 4} {task : IoTask β}
  {event : SystemEvent T β} {b : ℕ} {x : β}

theorem System.holds_nvm (hb : b < nvmThreshold) :
    s.Holds b x ↔ s.nvm b = x := by
  rw [System.Holds, if_pos hb]

theorem System.holds_ssd (hb : ¬ b < nvmThreshold) :
    s.Holds b x ↔ s.machine.cells.Volatile (b - nvmThreshold) x := by
  rw [System.Holds, if_neg hb]

theorem System.Holds.congr (h : s.Holds b x) (hnvm : s'.nvm = s.nvm)
    (hcells : s'.machine.cells = s.machine.cells) : s'.Holds b x := by
  rw [System.Holds, hnvm, hcells]
  exact h

/-! ## The blocks of a request -/

/-- A request that a client takes to the SSD itself. -/
structure Transferring (request : Request β) (task : IoTask β) : Prop where
  buf : task.buf = request.buf
  len : task.len = request.len
  offset : request.offset = task.offset + nvmThreshold
  postedOp : task.postedOp = request.opcode

omit [BlockDevice σ β] in
theorem IoTask.withClear_postedOp (task : IoTask β) :
    task.withClear.postedOp = task.postedOp := by
  have hclear : mixClear &&& (mixRead ||| mixWrite) = 0 := rfl
  rw [IoTask.postedOp, IoTask.postedOp, IoTask.withClear,
    Nat.and_or_distrib_right, hclear, Nat.or_zero]

omit [BlockDevice σ β] in
theorem TaskInv.transferring (h : TaskInv s) (hpc : s.clients c = .ssd task) :
    Transferring (s.request c) task := by
  have hvalid := h.valid c (by rw [hpc]; simp)
  have hserves := h.serves c
  obtain ⟨hbuf, hlen, hopcode, -⟩ := hvalid.posts.task_fields c
  have hop : ((s.request c).task c).postedOp = (s.request c).opcode := by
    rw [IoTask.postedOp, hopcode]
    exact hvalid.posts.lor_opcode_postedOp
  rw [hpc] at hserves
  obtain ⟨htype, ⟨-, -, rfl⟩ | ⟨-, rfl⟩⟩ := hserves
  · exact ⟨hbuf, hlen, hvalid.ssd_offset htype,
      (IoTask.withClear_postedOp _).trans hop⟩
  · exact ⟨hbuf, hlen, hvalid.ssd_offset htype, hop⟩

omit [BlockDevice σ β] in
/-- The range of a task on the SSD is that of its request. -/
theorem Transferring.covers_iff {request : Request β}
    (h : Transferring request task) (hb : ¬ b < nvmThreshold) :
    task.CoversLba (b - nvmThreshold) ↔ request.Covers b := by
  have hlen := h.len
  have hoffset := h.offset
  unfold IoTask.CoversLba Request.Covers
  omega

omit [BlockDevice σ β] in
theorem Transferring.sub_offset {request : Request β}
    (h : Transferring request task) :
    b - nvmThreshold - task.offset = b - request.offset := by
  rw [h.offset, Nat.sub_sub, Nat.add_comm]

omit [BlockDevice σ β] in
theorem Transferring.isWrite_iff {request : Request β}
    (h : Transferring request task) :
    task.postedOp = mixWrite ↔ request.isWrite = true := by
  rw [h.postedOp, Request.opcode]
  cases request.isWrite
  · constructor
    · intro hop
      exact absurd hop (by decide)
    · intro hfalse
      exact absurd hfalse Bool.false_ne_true
  · exact ⟨fun _ => rfl, fun _ => rfl⟩

omit [BlockDevice σ β] in
/-- A buffered write is of the one block of its request. -/
theorem Buffers.writes_iff (h : Buffers s i task) :
    (s.request task.inflightBuffer).Writes b ↔
      b = task.offset + nvmThreshold := by
  have hlen := h.len
  have hoffset := h.offset
  unfold Request.Writes Request.Covers
  constructor
  · rintro ⟨-, hge, hlt⟩
    omega
  · intro hb
    exact ⟨h.isWrite, by omega, by omega⟩

/-- Client `c` runs a write of block `b` that has not executed it. -/
def System.Overwrites (s : System T σ β) (c : Fin 16) (b : ℕ) : Prop :=
  s.Running c ∧ (s.request c).Writes b ∧
    ¬ s.Executed c (b - (s.request c).offset)

omit [BlockDevice σ β] in
/-- A worker that is about to store the data of a buffered write. -/
theorem TaskInv.overwrites (h : TaskInv s)
    (hcurrent : (s.workers i).current = some task)
    (hbranch : workerBranch task = .redirectWrite)
    (hpc : ∀ k, ¬ (s.workers i).Executed task.inflightBuffer k)
    (hb : b = task.offset + nvmThreshold) :
    s.Overwrites task.inflightBuffer b := by
  have hposted := h.posted (System.mem_pending_of_worker hcurrent)
  exact ⟨System.running_of_wait hposted.client,
    (h.buffers hcurrent hbranch).writes_iff.mpr hb,
    h.not_executed_of_worker hcurrent (hpc _)⟩

/-! ## What a step does to a block -/

/-- The invariants of the tasks and of the buffer. -/
structure StoreInv (s : System T σ β) : Prop where
  tasks : TaskInv s
  cache : CacheInv s

/-- The contents of a block stay, unless a write to it is under way. -/
theorem StoreInv.holds_step (h : StoreInv s)
    (hmoves : DataMoves s s'.machine) (hholds : s.Holds b x) :
    s'.Holds b x ∨ ∃ c, s.Overwrites c b := by
  by_cases hb : b < nvmThreshold
  · -- only the worker of a write changes the NVM zone
    rw [System.holds_nvm hb] at hholds ⊢
    have hsame : s'.machine.store.dev.nvm = s.machine.store.dev.nvm →
        s'.nvm b = x := by
      intro hnvm
      rw [System.nvm, hnvm]
      exact hholds
    cases hmoves with
    | evict _ hnvm => exact Or.inl (hsame hnvm)
    | claim _ _ _ _ _ hnvm => exact Or.inl (hsame hnvm)
    | fill _ _ _ _ _ _ _ hnvm => exact Or.inl (hsame hnvm)
    | mark _ _ _ hnvm => exact Or.inl (hsame hnvm)
    | ssdWrite _ _ _ _ _ _ hnvm => exact Or.inl (hsame hnvm)
    | nvmWrite i task n hpc hn _ hnvm =>
        by_cases hbn : b = task.offset + n
        · obtain ⟨hposted, hbranch⟩ := h.tasks.posted_nvmWrite hpc
          have hoffset := (hposted.nvm_fields (Or.inr hbranch)).1
          have hlen := hposted.len
          refine Or.inr ⟨task.inflightBuffer,
            System.running_of_wait hposted.client,
            ⟨hposted.nvmWrite_isWrite hbranch, by omega, by omega⟩, ?_⟩
          apply h.tasks.not_executed_of_worker (by rw [hpc]; rfl)
          rw [hpc]
          rintro ⟨-, hlt⟩
          omega
        · left
          rw [System.nvm, hnvm, Function.update_of_ne hbn]
          exact hholds
  · rw [System.holds_ssd hb] at hholds ⊢
    cases hmoves with
    | evict hcells _ => exact Or.inl (hholds.evicts hcells)
    | nvmWrite _ _ _ _ _ hcells _ => exact Or.inl (hcells ▸ hholds)
    | mark k p hcells _ => exact Or.inl (hcells ▸ hholds.mark k p)
    | claim i task p hpc hcells _ =>
        by_cases hk : b - nvmThreshold = task.offset
        · have hb' : b = task.offset + nvmThreshold := by omega
          have hfits := h.tasks.fits i
          rcases hpc with hpc | hpc
          · rw [hpc] at hfits
            exact Or.inr ⟨_, h.tasks.overwrites (by rw [hpc]; rfl) hfits
              (fun _ => by rw [hpc]; exact id) hb'⟩
          · rw [hpc] at hfits
            exact Or.inr ⟨_, h.tasks.overwrites (by rw [hpc]; rfl)
              (hfits task rfl) (fun _ => by rw [hpc]; exact id) hb'⟩
        · exact Or.inl (hcells ▸ hholds.claim hk)
    | fill i task p slot hpc hlive hcells _ =>
        by_cases hk : b - nvmThreshold = task.offset
        · have hb' : b = task.offset + nvmThreshold := by omega
          have hfits := h.tasks.fits i
          rw [hpc] at hfits
          exact Or.inr ⟨_, h.tasks.overwrites (by rw [hpc]; rfl) hfits
            (fun _ => by rw [hpc]; exact id) hb'⟩
        · exact Or.inl (hcells ▸ hholds.fill h.cache.placed hlive hk _)
    | ssdWrite c task hpc hop hfree hcells _ =>
        have htransfer := h.tasks.transferring hpc
        by_cases hcovers : task.CoversLba (b - nvmThreshold)
        · refine Or.inr ⟨c, ?_, ⟨htransfer.isWrite_iff.mp hop,
            (htransfer.covers_iff hb).mp hcovers⟩, ?_⟩
          · rw [System.Running, hpc]
            simp
          · refine h.tasks.not_executed_of_running ?_ fun t ht => ?_
            · rw [System.Running, hpc]
              simp
            · rw [hpc] at ht
              cases ht
        · left
          rw [hcells]
          exact hholds.write fun _ => if_neg hcovers

/-- A write that executes a block leaves its data in it, if no block of a
transfer is buffered. -/
theorem StoreInv.holds_of_executes (h : StoreInv s)
    (hsafe : s.MovesSafely event) (hover : s.Overwrites c b)
    (hexec : Executes s s' c (b - (s.request c).offset) event) :
    s'.Holds b ((s.request c).buf (b - (s.request c).offset)) := by
  obtain ⟨hrunning, hwrites, hnot⟩ := hover
  obtain ⟨hwrite, hge, hlt⟩ := hwrites
  cases hexec with
  | before hbefore => exact absurd hbefore hnot
  | @read i task hpc howner _ =>
      obtain ⟨hposted, hbranch⟩ := h.tasks.posted_nvmRead hpc
      have hread := hposted.nvmRead_isWrite hbranch
      rw [howner, hwrite] at hread
      cases hread
  | @write i task hpc howner hnvm =>
      obtain ⟨hposted, hbranch⟩ := h.tasks.posted_nvmWrite hpc
      obtain ⟨hoffset, hbuf⟩ := hposted.nvm_fields (Or.inr hbranch)
      have hrange := hposted.nvm_range (Or.inr hbranch)
      rw [howner] at hoffset hbuf hrange
      rw [hoffset, hbuf, Nat.add_sub_cancel' hge] at hnvm
      exact (System.holds_nvm (by omega)).mpr hnvm
  | @fill i task slot hpc howner hmachine =>
      have hfits := h.tasks.fits i
      have hentered := h.cache.entered i
      rw [hpc] at hfits hentered
      have hbuffers := h.tasks.buffers (i := i) (by rw [hpc]; rfl) hfits
      obtain ⟨v, rfl, hmem⟩ := hentered
      have hoffset := hbuffers.offset
      have hlen := hbuffers.len
      have hbuf := hbuffers.buf
      rw [howner] at hoffset hlen hbuf
      have hfirst : b - (s.request c).offset = 0 := by omega
      have hkey : b - nvmThreshold = task.offset := by omega
      rw [System.holds_ssd (by omega), hmachine, cells_writeData, hfirst,
        hkey, ← hbuf]
      exact h.cache.placed.volatile_fill
        ⟨i, v, List.mem_append_left _ hmem, rfl⟩
  | @transfer task hpc hs' =>
      have htransfer := h.tasks.transferring hpc
      have hop := htransfer.isWrite_iff.mpr hwrite
      have hoffset := htransfer.offset
      have hb : ¬ b < nvmThreshold := by omega
      have hcovers := (htransfer.covers_iff hb).mpr ⟨hge, hlt⟩
      have hmachine : s'.machine = s.machine.setDev
          (mixSsdWrite s.machine.store.dev task.buf task.len
            task.offset) := by
        have hread : ¬ task.postedOp = mixRead := by
          rw [hop]
          decide
        rw [hs', ssdTransfer, if_neg hread, if_pos hop]
        rfl
      have hnone : ∀ p, ¬ s.machine.cells.live (b - nvmThreshold) p := by
        rintro p ⟨j, v, hv, -⟩
        exact hsafe task (by rw [hpc]; rfl) hop j _ hv hcovers
      have hdisk : s'.machine.cells.disk (b - nvmThreshold) =
          (s.request c).buf (b - (s.request c).offset) := by
        rw [hmachine]
        change (mixSsdWrite _ _ _ _).ssdBlock _ = _
        rw [mixSsdWrite_ssdBlock]
        refine (if_pos hcovers).trans ?_
        rw [htransfer.buf, htransfer.sub_offset]
      rw [System.holds_ssd hb, ← hdisk]
      refine Cells.volatile_of_not_live fun p => ?_
      rw [hmachine]
      exact hnone p

/-! ## The data written last -/

/-- The requests write a common block. -/
def Request.Meets (R R' : Request β) : Prop :=
  R.isWrite = true ∧ R'.isWrite = true ∧ R.offset < R'.offset + R'.len ∧
    R'.offset < R.offset + R.len

instance (R R' : Request β) : Decidable (R.Meets R') :=
  inferInstanceAs (Decidable (_ ∧ _ ∧ _ ∧ _))

/-- A call is of a valid request, made while no write is running that it
meets. -/
def System.CallsApart (s : System T σ β) : SystemEvent T β → Prop
  | .call _ request => request.Valid ∧
      ∀ d, s.Running d → ¬ request.Meets (s.request d)
  | _ => True

instance (s : System T σ β) : DecidablePred s.CallsApart
  | .call _ _ => inferInstanceAs (Decidable (_ ∧ ∀ _, _ → _))
  | .client _ => isTrue trivial
  | .worker _ => isTrue trivial
  | .migrate _ => isTrue trivial
  | .coord => isTrue trivial
  | .thread _ => isTrue trivial

/-- The data written last is in every block whose writes have executed it. -/
structure ContentsInv (s : System T σ β) : Prop extends StoreInv s where
  alone : ∀ b c d, s.Running c → s.Running d → (s.request c).Writes b →
    (s.request d).Writes b → c = d
  fresh : ∀ b c, s.Running c → (s.request c).Writes b →
    s.latest b = (s.request c).buf (b - (s.request c).offset)
  stored : ∀ b, (∀ c, ¬ s.Overwrites c b) → s.Holds b (s.latest b)

omit [BlockDevice σ β] in
theorem Request.Writes.meets {R R' : Request β} (h : R.Writes b)
    (h' : R'.Writes b) : R.Meets R' := by
  obtain ⟨hwrite, hge, hlt⟩ := h
  obtain ⟨hwrite', hge', hlt'⟩ := h'
  exact ⟨hwrite, hwrite', by omega, by omega⟩

omit [BlockDevice σ β] in
theorem issued_of_writes {latest : ℕ → β} {R : Request β} (h : R.Writes b) :
    issued latest R b = R.buf (b - R.offset) := by
  rw [issued, if_pos h.1]
  exact if_pos h.2

omit [BlockDevice σ β] in
theorem issued_of_not_writes {latest : ℕ → β} {R : Request β}
    (h : ¬ R.Writes b) : issued latest R b = latest b := by
  unfold issued
  split
  · rename_i hwrite
    exact if_neg fun hcovers => h ⟨hwrite, hcovers⟩
  · rfl

/-- Only a call changes what has been written last. -/
theorem systemStep_latest (hstep : systemStep s event = some s')
    (hcall : ∀ c request, event ≠ .call c request) : s'.latest = s.latest := by
  cases event with
  | call c request => exact absurd rfl (hcall c request)
  | client c =>
      cases clientStep_moves hstep with
      | @ssd task hpc => exact (ssdTransfer_fields s c task).2.2.2.2.2.2
      | postNvm _ _ | postSmall _ | postSub _ | posted _ | wait _ _
      | «return» _ => rfl
  | worker i =>
      cases workerStep_moves hstep with
      | takeNvm _ _ _ | takeBuffer _ _ _ =>
          exact (dispatch_fields _ i _).2.2.2
      | poll _ _ | nvmRead _ _ | nvmReadEnd _ _ | nvmWrite _ _
      | nvmWriteEnd _ _ | finish _ | redirect _ => rfl
  | migrate i =>
      simp only [systemStep] at hstep
      split at hstep
      · cases hstep
        rfl
      · cases hstep
  | coord | thread t =>
      simp only [systemStep, Option.map_eq_some_iff] at hstep
      obtain ⟨m, -, rfl⟩ := hstep
      rfl

/-- The call of a request that meets no running write. -/
theorem ContentsInv.call {R : Request β} (h : ContentsInv s)
    (hmeets : ∀ d, s.Running d → ¬ R.Meets (s.request d)) (hposts : R.Posts)
    (hstep : systemStep s (.call c R) = some s') (hinv : StoreInv s') :
    ContentsInv s' := by
  have hevent : (SystemEvent.call c R : SystemEvent T β).Posts := hposts
  have hcalled : s.clients c = .idle ∧ s' = clientCall s c R := by
    simp only [systemStep] at hstep
    split at hstep
    · rename_i hidle
      exact ⟨hidle, (Option.some.inj hstep).symm⟩
    · cases hstep
  obtain ⟨hidle, hs'⟩ := hcalled
  have hlatest : s'.latest = issued s.latest R := by rw [hs']; rfl
  have hnew : s'.request c = R := by
    rw [hs']
    exact Function.update_self _ _ _
  -- the other clients go on
  have hother : ∀ d, d ≠ c →
      s'.clients d = s.clients d ∧ s'.request d = s.request d := by
    intro d hd
    rw [hs']
    exact ⟨Function.update_of_ne hd _ _, Function.update_of_ne hd _ _⟩
  have hrunning : ∀ d, d ≠ c → (s'.Running d ↔ s.Running d) := by
    intro d hd
    rw [System.Running, (hother d hd).1]
    rfl
  have hapart : ∀ b d, d ≠ c → s'.Running d → (s'.request d).Writes b →
      ¬ R.Writes b := by
    intro b d hd hrun hwrites hR
    rw [(hother d hd).2] at hwrites
    exact hmeets d ((hrunning d hd).mp hrun) (hR.meets hwrites)
  refine ⟨hinv, fun b d e hd he hwd hwe => ?_, fun b d hd hwd => ?_,
    fun b hno => ?_⟩
  · by_cases hdc : d = c
    · by_cases hec : e = c
      · rw [hdc, hec]
      · rw [hdc, hnew] at hwd
        exact absurd hwd (hapart b e hec he hwe)
    · by_cases hec : e = c
      · rw [hec, hnew] at hwe
        exact absurd hwe (hapart b d hdc hd hwd)
      · rw [(hother d hdc).2] at hwd
        rw [(hother e hec).2] at hwe
        exact h.alone b d e ((hrunning d hdc).mp hd) ((hrunning e hec).mp he)
          hwd hwe
  · rw [hlatest]
    by_cases hdc : d = c
    · rw [hdc, hnew] at hwd ⊢
      exact issued_of_writes hwd
    · rw [issued_of_not_writes (hapart b d hdc hd hwd)]
      rw [(hother d hdc).2] at hwd ⊢
      exact h.fresh b d ((hrunning d hdc).mp hd) hwd
  · rw [hlatest]
    have hnot : ∀ k, ¬ s'.Executed c k := fun k =>
      hinv.tasks.not_executed hposts
        (by rw [hs']; exact Function.update_self _ _ _)
    by_cases hR : R.Writes b
    · refine absurd ⟨?_, hnew ▸ hR, hnot _⟩ (hno c)
      by_contra hended
      exact hnot 0 (.ended hended)
    · rw [issued_of_not_writes hR]
      refine (h.stored b fun d hover => ?_).congr (by rw [hs']; rfl)
        (by rw [hs']; rfl)
      obtain ⟨hrun, hwrites, hexec⟩ := hover
      have hd : d ≠ c := by
        rintro rfl
        exact hrun.1 hidle
      obtain ⟨-, hrequest⟩ := hother d hd
      refine hno d ⟨(hrunning d hd).mpr hrun, by rwa [hrequest],
        fun hexec' => hexec ?_⟩
      rw [hrequest] at hexec'
      have hk : b - (s.request d).offset < (s.request d).len := by
        have hge := hwrites.2.1
        have hlt := hwrites.2.2
        omega
      have hcase := h.tasks.executes hevent
        (fun R' heq => hd (SystemEvent.call.inj heq).1.symm) hk hstep hexec'
      cases hcase with
      | before hbefore => exact hbefore

/-- A step that is no call. -/
theorem ContentsInv.move (h : ContentsInv s)
    (hcall : ∀ c request, event ≠ .call c request)
    (hsafe : s.MovesSafely event) (hstep : systemStep s event = some s')
    (hinv : StoreInv s') (hmoves : DataMoves s s'.machine) :
    ContentsInv s' := by
  have hposts : event.Posts := by
    cases event with
    | call c request => exact absurd rfl (hcall c request)
    | client c | worker i | migrate i | coord | thread t => trivial
  have htasks := h.tasks.systemStep_moves hposts hstep
  have hlatest := systemStep_latest hstep hcall
  have hrequest : ∀ c, s'.request c = s.request c := fun c =>
    htasks.request_eq fun request hmem =>
      hcall c request (eq_call_of_mem_callEvents hmem)
  have hrunning : ∀ c, s'.Running c → s.Running c := by
    intro c hrun
    rcases htasks.running hrun with ⟨hbefore, -⟩ | hcalled
    · exact hbefore
    · exact absurd (eq_call_of_mem_callEvents hcalled) (hcall c _)
  refine ⟨hinv, fun b c d hc hd => ?_, fun b c hc => ?_, fun b hno => ?_⟩
  · rw [hrequest, hrequest]
    exact h.alone b c d (hrunning c hc) (hrunning d hd)
  · rw [hrequest, hlatest]
    exact h.fresh b c (hrunning c hc)
  · rw [hlatest]
    by_cases hall : ∃ c, s.Overwrites c b
    · -- the write that was under way has executed the block
      obtain ⟨c, hover⟩ := hall
      have hexec : s'.Executed c (b - (s.request c).offset) := by
        by_contra hnot
        refine hno c ⟨?_, ?_, ?_⟩
        · by_contra hended
          exact hnot (.ended hended)
        · rw [hrequest]
          exact hover.2.1
        · rwa [hrequest]
      have hk : b - (s.request c).offset < (s.request c).len := by
        have hge := hover.2.1.2.1
        have hlt := hover.2.1.2.2
        omega
      rw [h.fresh b c hover.1 hover.2.1]
      exact h.holds_of_executes hsafe hover
        (h.tasks.executes hposts (hcall c) hk hstep hexec)
    · rcases h.holds_step hmoves
        (h.stored b fun c hover => hall ⟨c, hover⟩) with hholds | hover
      · exact hholds
      · exact absurd hover hall

/-- The data written last stays, if the calls are apart and data is moved
safely. -/
theorem systemStep_contentsInv (h : ContentsInv s) (hpos : 0 < T)
    (hT : T ≤ 127) (hapart : s.CallsApart event) (hsafe : s.MovesSafely event)
    (hstep : systemStep s event = some s') : ContentsInv s' := by
  have hvalid : ∀ c request, event = .call c request → request.Valid := by
    rintro c request rfl
    exact hapart.1
  obtain ⟨hcache, hmoves⟩ :=
    systemStep_cacheInv h.cache h.tasks hpos hT hsafe hstep
  have hinv : StoreInv s' := ⟨systemStep_taskInv h.tasks hvalid hstep, hcache⟩
  cases event with
  | call c request => exact h.call hapart.2 hapart.1.posts hstep hinv
  | client c | worker i | migrate i | coord | thread t =>
      exact h.move (fun _ _ heq => by cases heq) hsafe hstep hinv hmoves

/-! ## The first state -/

theorem initial_contentsInv {blockNum : ℕ} (hsize : ValidSize blockNum)
    (migration : Fin 4 → Bool) (dev : Devices σ β) (segmentIdx : Fin 4)
    (migrateBuf : Fin T → β) (inflight : Fin 16 → ℤ) (dst : Fin 16 → ℕ → β)
    (request : Fin 16 → Request β) :
    ContentsInv (System.initial T (freshStore blockNum migration dev)
      segmentIdx migrateBuf inflight dst request) := by
  have hlive := initial_live blockNum migration dev segmentIdx migrateBuf
  have hidle : ∀ c, ¬ (System.initial T (freshStore blockNum migration dev)
      segmentIdx migrateBuf inflight dst request).Running c :=
    fun c hrunning => hrunning.1 rfl
  have hmachine :=
    initial_machineInv hsize migration dev segmentIdx migrateBuf
  refine ⟨⟨⟨postInv_initial _ _ _ _ _ _, fun c hbusy => absurd rfl hbusy⟩,
    ⟨⟨hmachine.handshake, ?_⟩, hmachine, ?_, fun i => trivial⟩⟩,
    fun b c d hc => absurd hc (hidle c), fun b c hc => absurd hc (hidle c),
    fun b _ => ?_⟩
  · rintro i (hheld | hheld)
    · exact hheld.elim
    · cases hheld
  · intro i kv hkv
    change kv ∈ (Machine.initial T (freshStore blockNum migration dev)
      segmentIdx migrateBuf).live i at hkv
    rw [hlive i] at hkv
    exact absurd hkv List.not_mem_nil
  · by_cases hb : b < nvmThreshold
    · rw [System.holds_nvm hb]
      exact (if_pos hb).symm
    · rw [System.holds_ssd hb]
      have hlatest : (System.initial T (freshStore blockNum migration dev)
          segmentIdx migrateBuf inflight dst request).latest b =
            dev.ssdBlock (b - nvmThreshold) := if_neg hb
      rw [hlatest]
      refine Cells.volatile_of_not_live ?_
      rintro p ⟨j, v, hv, -⟩
      change (b - nvmThreshold, v) ∈ (Machine.initial T
        (freshStore blockNum migration dev) segmentIdx migrateBuf).live j at hv
      rw [hlive j] at hv
      exact List.not_mem_nil hv

end Uhs
