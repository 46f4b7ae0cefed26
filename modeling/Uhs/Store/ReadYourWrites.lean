import Uhs.Store.Contents
import Uhs.Store.ReadAfterWrite

/-!
# Reads of a sequence of calls

Calls that are made one after the other see what has been written last, if no
write goes to the SSD under a buffered block and no read finds a block on the
SSD that differs from its copy in the buffer.
-/

namespace Uhs

open Support

variable {T : ℕ} {σ β : Type*} [BlockDevice σ β]

/-! ## Calls in turn -/

/-- No call is being made, and the workers have handled all that was posted. -/
structure System.Quiet (s : System T σ β) : Prop where
  clients : ∀ c, s.clients c = .idle
  nvmQueue : ∀ i, s.nvmQueue i = []
  bufferQueue : ∀ i, s.bufferQueue i = []
  workers : ∀ i, s.workers i = .ready

/-- A call is of a valid request and made when the store is quiet. -/
def System.CallsInTurn (s : System T σ β) : SystemEvent T β → Prop
  | .call _ request => request.Valid ∧ s.Quiet
  | _ => True

/-- A read finds on the SSD what is buffered of its blocks. -/
def System.ReadsFresh (s : System T σ β) : SystemEvent T β → Prop
  | .client c => ∀ task, task ∈ (s.clients c).transfers →
      task.postedOp = mixRead →
      ∀ j, ∀ kv ∈ s.machine.live j, task.CoversLba kv.1 →
        s.machine.store.dev.ssdBlock kv.1 = s.machine.store.dev.buffer
          (s.machine.store.metaData.bufferBlock j (kv.2 : ℕ))
  | _ => True

/-- A read that has returned has delivered what was written last. -/
def System.ReadsDelivered (s : System T σ β) : Prop :=
  ∀ c task, s.clients c = .returned task → (s.request c).isWrite = false →
    ∀ k < (s.request c).len, s.dst c k = s.latest ((s.request c).offset + k)

/-- Only one call is made at a time, and what it has read is what was written
last. -/
structure TurnInv (s : System T σ β) : Prop extends ContentsInv s where
  solo : ∀ c d, s.clients c ≠ .idle → s.clients d ≠ .idle → c = d
  delivered : ∀ c, s.clients c ≠ .idle → (s.request c).isWrite = false →
    ∀ k < (s.request c).len, s.Executed c k →
      s.dst c k = s.latest ((s.request c).offset + k)

variable {s s' : System T σ β} {c : Fin 16} {event : SystemEvent T β} {k : ℕ}

omit [BlockDevice σ β] in
theorem System.CallsInTurn.callsApart (h : s.CallsInTurn event) :
    s.CallsApart event := by
  cases event with
  | call c request =>
      exact ⟨h.1, fun d hrunning => absurd (h.2.clients d) hrunning.1⟩
  | client c | worker i | migrate i | coord | thread t => trivial

theorem TurnInv.readsDelivered (h : TurnInv s) : s.ReadsDelivered := by
  intro c task hpc hread k hk
  have hbusy : s.clients c ≠ .idle := by
    rw [hpc]
    simp
  refine h.delivered c hbusy hread k hk (.ended fun hrunning => ?_)
  exact hrunning.2 task hpc

/-! ## Steps -/

omit [BlockDevice σ β] in
theorem System.Executed.ne_worker {i : Fin 4} {task : IoTask β} {n : ℕ}
    (h : PostInv s) (hexec : s.Executed c k)
    (hpc : s.workers i = .nvmRead task n) (howner : task.inflightBuffer = c) :
    k ≠ n := by
  rintro rfl
  subst howner
  refine h.not_executed_of_worker (by rw [hpc]; rfl) ?_ hexec
  rw [hpc]
  exact fun hlt => Nat.lt_irrefl k hlt.2

/-- What has been executed of a call is not read again. -/
theorem PostInv.dst_of_executed (h : PostInv s)
    (hcall : ∀ request, event ≠ .call c request)
    (hstep : systemStep s event = some s') (hexec : s.Executed c k) :
    s'.dst c k = s.dst c k := by
  cases h.systemStep_zoneMoves hstep with
  | same _ hdst | write _ _ _ hdst => rw [hdst]
  | @call d request _ hdst =>
      have hcd : c ≠ d := by
        rintro rfl
        exact hcall request rfl
      rw [hdst, Function.update_of_ne hcd]
  | @transfer _ d task hpc _ hdst =>
      by_cases hcd : c = d
      · subst hcd
        refine absurd hexec (h.not_executed_of_running ?_ fun t ht => ?_)
        · rw [System.Running, hpc]
          simp
        · rw [hpc] at ht
          cases ht
      · rw [hdst c hcd]
  | @read i task n hpc _ _ hdst =>
      rw [hdst]
      by_cases hown : c = task.inflightBuffer
      · have hkn := hexec.ne_worker h hpc hown.symm
        rw [hown, Function.update_self, Function.update_of_ne hkn]
      · rw [Function.update_of_ne hown]

/-- Nobody writes while a read is being made. -/
theorem TurnInv.holds (h : TurnInv s) (hbusy : s.clients c ≠ .idle)
    (hread : (s.request c).isWrite = false) (b : ℕ) :
    s.Holds b (s.latest b) := by
  refine h.stored b fun d hover => ?_
  obtain rfl := h.solo c d hbusy hover.1.1
  have hwrite := hover.2.1.1
  rw [hread] at hwrite
  cases hwrite

/-- The transfer of a read. -/
theorem ssdTransfer_dst {task : IoTask β} (hop : task.postedOp = mixRead)
    (hk : k < task.len) :
    (ssdTransfer s c task).dst c k =
      s.machine.store.dev.ssdBlock (task.offset + k) := by
  rw [ssdTransfer, if_pos hop]
  have hlen : k < (mixSsdRead s.machine.store.dev task.len
      task.offset).length := by
    rwa [mixSsdRead, length_blocksOf]
  change Function.update s.dst c _ c k = _
  rw [Function.update_self, List.getD_eq_getElem _ _ hlen]
  simp [mixSsdRead, blocksOf]

/-- What a read executes is what was written last. -/
theorem TurnInv.dst_of_executes (h : TurnInv s) (hbusy : s.clients c ≠ .idle)
    (hread : (s.request c).isWrite = false) (hk : k < (s.request c).len)
    (hcall : ∀ request, event ≠ .call c request) (hfresh : s.ReadsFresh event)
    (hstep : systemStep s event = some s')
    (hexec : Executes s s' c k event) :
    s'.dst c k = s.latest ((s.request c).offset + k) := by
  have hholds := h.holds hbusy hread ((s.request c).offset + k)
  cases hexec with
  | before hbefore =>
      rw [h.tasks.dst_of_executed hcall hstep hbefore]
      exact h.delivered c hbusy hread k hk hbefore
  | @read i task hpc howner hdst =>
      obtain ⟨hposted, hbranch⟩ := h.tasks.posted_nvmRead hpc
      have hoffset := (hposted.nvm_fields (Or.inl hbranch)).1
      have hrange := hposted.nvm_range (Or.inl hbranch)
      rw [howner] at hoffset hrange
      rw [System.holds_nvm (by omega)] at hholds
      rw [hdst, hoffset, hholds]
  | @write i task hpc howner _ =>
      obtain ⟨hposted, hbranch⟩ := h.tasks.posted_nvmWrite hpc
      have hwrite := hposted.nvmWrite_isWrite hbranch
      rw [howner, hread] at hwrite
      cases hwrite
  | @fill i task slot hpc howner _ =>
      have hfits := h.tasks.fits i
      rw [hpc] at hfits
      have hwrite := (h.tasks.buffers (i := i) (by rw [hpc]; rfl) hfits).isWrite
      rw [howner, hread] at hwrite
      cases hwrite
  | @transfer task hpc hs' =>
      have htransfer := h.tasks.transferring hpc
      have hop : task.postedOp = mixRead := by
        rw [htransfer.postedOp, Request.opcode, hread]
        rfl
      have hoffset := htransfer.offset
      have hlen := htransfer.len
      obtain ⟨b, hb⟩ : ∃ b, b = (s.request c).offset + k := ⟨_, rfl⟩
      rw [← hb] at hholds ⊢
      have hssd : ¬ b < nvmThreshold := by omega
      have hlba : task.offset + k = b - nvmThreshold := by omega
      rw [System.holds_ssd hssd] at hholds
      have hdst : s'.dst c k = s.machine.store.dev.ssdBlock
          (b - nvmThreshold) := by
        rw [hs', ← hlba]
        exact ssdTransfer_dst hop (by omega)
      rw [hdst]
      by_cases hlive : ∃ p, s.machine.cells.live (b - nvmThreshold) p
      · -- the buffered copy is the one that the read finds
        obtain ⟨p, j, v, hv, rfl⟩ := hlive
        have hcovers : task.CoversLba (b - nvmThreshold) := by
          unfold IoTask.CoversLba
          omega
        have hsame := hfresh task (by rw [hpc]; rfl) hop j _ hv hcovers
        exact hsame.trans (hholds.buffered _ ⟨j, v, hv, rfl⟩)
      · exact hholds.unbuffered fun p hp => hlive ⟨p, hp⟩

omit [BlockDevice σ β] in
/-- A client that is idle stays so until it makes a call. -/
theorem TaskMoves.idle {events : List (Fin 16 × CallEvent β)}
    (hmoves : TaskMoves s s' events)
    (hcall : ∀ request, (c, CallEvent.called request) ∉ events)
    (hidle : s.clients c = .idle) : s'.clients c = .idle := by
  -- nobody but the client that moves is affected
  have hkeep : ∀ {d : Fin 16} {pc : ClientPc β},
      s'.clients = Function.update s.clients d pc → c ≠ d →
      s'.clients c = .idle := by
    intro d pc hclients hd
    rw [hclients, Function.update_of_ne hd]
    exact hidle
  cases hmoves with
  | @call d request _ _ hclients =>
      refine hkeep hclients ?_
      rintro rfl
      exact hcall request List.mem_cons_self
  | @post d task hpc hclients =>
      refine hkeep hclients ?_
      rintro rfl
      rcases hpc with hpc | hpc <;> rw [hidle] at hpc <;> cases hpc
  | @transfer d pc hpc _ _ hclients =>
      refine hkeep hclients ?_
      rintro rfl
      rw [hidle] at hpc
      cases hpc
  | @«return» d task hpc hclients =>
      refine hkeep hclients ?_
      rintro rfl
      rcases hpc with hpc | ⟨hpc, -⟩ <;> rw [hidle] at hpc <;> cases hpc
  | @leave d task hpc hclients =>
      refine hkeep hclients ?_
      rintro rfl
      rw [hidle] at hpc
      cases hpc
  | work _ _ hclients | take _ _ _ _ hclients | finish _ hclients =>
      rw [hclients]
      exact hidle

theorem systemStep_turnInv (h : TurnInv s) (hpos : 0 < T) (hT : T ≤ 127)
    (hturn : s.CallsInTurn event) (hsafe : s.MovesSafely event)
    (hfresh : s.ReadsFresh event) (hstep : systemStep s event = some s') :
    TurnInv s' := by
  have hinv := systemStep_contentsInv h.toContentsInv hpos hT
    hturn.callsApart hsafe hstep
  have hposts : event.Posts := by
    cases event with
    | call c request => exact hturn.1.posts
    | client c | worker i | migrate i | coord | thread t => trivial
  have hmoves := h.tasks.systemStep_moves hposts hstep
  -- a client that is busy was busy before or has just made its call
  have hbusy : ∀ c, s'.clients c ≠ .idle → s.clients c ≠ .idle ∨
      ∃ request, event = .call c request := by
    intro c hc
    by_contra hnot
    rw [not_or, not_exists, not_not] at hnot
    exact hc (hmoves.idle (fun request hmem =>
      hnot.2 request (eq_call_of_mem_callEvents hmem)) hnot.1)
  by_cases hcalled : ∃ c request, event = .call c request
  · obtain ⟨c, request, rfl⟩ := hcalled
    have honly : ∀ d, s'.clients d ≠ .idle → d = c := by
      intro d hd
      rcases hbusy d hd with hbefore | ⟨R, heq⟩
      · exact absurd (hturn.2.clients d) hbefore
      · exact (SystemEvent.call.inj heq).1.symm
    refine ⟨hinv, fun d e hd he => (honly d hd).trans (honly e he).symm,
      fun d hd hread k hk hexec => ?_⟩
    obtain rfl := honly d hd
    obtain ⟨-, -, -, hnot⟩ :=
      h.tasks.toPostInv.systemStep_call (k := k) hturn.1.posts hstep
    exact absurd hexec hnot
  · have hcall : ∀ c request, event ≠ .call c request :=
      fun c request heq => hcalled ⟨c, request, heq⟩
    have hbefore : ∀ c, s'.clients c ≠ .idle → s.clients c ≠ .idle :=
      fun c hc => (hbusy c hc).resolve_right fun ⟨R, heq⟩ => hcall c R heq
    refine ⟨hinv, fun d e hd he => h.solo d e (hbefore d hd) (hbefore e he),
      fun d hd hread k hk hexec => ?_⟩
    have hrequest : s'.request d = s.request d :=
      hmoves.request_eq fun request hmem =>
        hcall d request (eq_call_of_mem_callEvents hmem)
    rw [hrequest] at hread hk ⊢
    rw [systemStep_latest hstep hcall]
    exact h.dst_of_executes (hbefore d hd) hread hk (hcall d) hfresh hstep
      (h.tasks.executes hposts (hcall d) hk hstep hexec)

/-! ## Runs -/

/-- In every sequence of calls in which no write goes to the SSD under a
buffered block, no read finds a stale block there, and migrations are called
where they move the data, every read delivers what was written last. -/
theorem readsDelivered_allStates {blockNum : ℕ} (hsize : ValidSize blockNum)
    (migration : Fin 4 → Bool) (dev : Devices σ β) (segmentIdx : Fin 4)
    (migrateBuf : Fin T → β) (inflight : Fin 16 → ℤ) (dst : Fin 16 → ℕ → β)
    (request : Fin 16 → Request β) (hpos : 0 < T) (hT : T ≤ 127)
    {events : List (SystemEvent T β)}
    (hturn : AllSteps systemStep System.CallsInTurn
      (System.initial T (freshStore blockNum migration dev) segmentIdx
        migrateBuf inflight dst request) events)
    (hsafe : AllSteps systemStep System.MovesSafely
      (System.initial T (freshStore blockNum migration dev) segmentIdx
        migrateBuf inflight dst request) events)
    (hfresh : AllSteps systemStep System.ReadsFresh
      (System.initial T (freshStore blockNum migration dev) segmentIdx
        migrateBuf inflight dst request) events) :
    AllStates systemStep System.ReadsDelivered
      (System.initial T (freshStore blockNum migration dev) segmentIdx
        migrateBuf inflight dst request) events := by
  refine (allStates_of_allSteps (I := TurnInv) ?_ ⟨initial_contentsInv hsize
    migration dev segmentIdx migrateBuf inflight dst request,
    fun c d hc => absurd rfl hc, fun c hc => absurd rfl hc⟩
    (hturn.and (hsafe.and hfresh))).mono fun s h => h.readsDelivered
  intro s event s' h hevent hstep
  exact systemStep_turnInv h hpos hT hevent.1 hevent.2.1 hevent.2.2 hstep

/-! ## Closed runs -/

instance (s : System T σ β) (c : Fin 16) : Decidable (s.clients c = .idle) :=
  match s.clients c with
  | .idle => isTrue rfl
  | .postNvm _ => isFalse nofun
  | .postSmall _ => isFalse nofun
  | .postSub _ _ => isFalse nofun
  | .ssd _ => isFalse nofun
  | .wait _ => isFalse nofun
  | .returned _ => isFalse nofun

instance (s : System T σ β) (i : Fin 4) : Decidable (s.workers i = .ready) :=
  match s.workers i with
  | .ready => isTrue rfl
  | .nvmRead _ _ => isFalse nofun
  | .nvmWrite _ _ => isFalse nofun
  | .start _ => isFalse nofun
  | .lock _ => isFalse nofun
  | .migrating _ => isFalse nofun
  | .data _ _ => isFalse nofun
  | .record _ _ => isFalse nofun
  | .finish _ _ => isFalse nofun

instance (s : System T σ β) : Decidable s.Quiet :=
  decidable_of_iff
    ((∀ c, s.clients c = .idle) ∧ (∀ i, s.nvmQueue i = []) ∧
      (∀ i, s.bufferQueue i = []) ∧ ∀ i, s.workers i = .ready)
    ⟨fun h => ⟨h.1, h.2.1, h.2.2.1, h.2.2.2⟩,
      fun h => ⟨h.clients, h.nvmQueue, h.bufferQueue, h.workers⟩⟩

instance (s : System T σ β) : DecidablePred s.CallsInTurn
  | .call _ _ => inferInstanceAs (Decidable (_ ∧ _))
  | .client _ => isTrue trivial
  | .worker _ => isTrue trivial
  | .migrate _ => isTrue trivial
  | .coord => isTrue trivial
  | .thread _ => isTrue trivial

instance [DecidableEq β] (s : System T σ β) : DecidablePred s.ReadsFresh
  | .call _ _ => isTrue trivial
  | .client _ => inferInstanceAs (Decidable (∀ _, _ ∈ _ → _ → _))
  | .worker _ => isTrue trivial
  | .migrate _ => isTrue trivial
  | .coord => isTrue trivial
  | .thread _ => isTrue trivial

/-- A read of the SSD blocks from `lba` on, until it returns. -/
def ssdReadCall (lba len : ℕ) : List (SystemEvent 8 ℕ) :=
  [.call 0 ⟨false, fun _ => 0, len, nvmThreshold + lba, 0⟩, .client 0]

/-- A write of `7` and `8` to the SSD blocks `0` and `1`, a write of `7` to
block `0` that is buffered, and a read of the blocks from `0` to `2`. -/
def inTurnSteps : List (SystemEvent 8 ℕ) :=
  .call 0 (writeRequest 0 2 7) :: largeSteps ++ bufferedCall 0 7 ++
    ssdReadCall 0 3

/-- Block `0` is still buffered when it is read. -/
theorem readsDelivered_allStates_example :
    AllStates systemStep System.ReadsDelivered freshSystem inTurnSteps ∧
      (runOps systemStep freshSystem inTurnSteps).map
        (fun s => (s.machine.store.metaData.hash 0).keys) = some [0] :=
  ⟨readsDelivered_allStates (by decide) _ _ _ _ _ _ _ (by decide) (by decide)
    (by decide +kernel) (by decide +kernel) (by decide +kernel),
    by decide +kernel⟩

/-- The state after a buffered write of `5` to block `0` and a read of it. -/
def staleSystem : System 8 (ℕ → ℕ) ℕ :=
  (runOps systemStep freshSystem (bufferedCall 0 5 ++ ssdReadCall 0 1)).get
    (by decide +kernel)

/-- A read of block `0` does not see the `5` that has been buffered for it. -/
theorem readsDelivered_fails :
    AllSteps systemStep System.CallsInTurn freshSystem
        (bufferedCall 0 5 ++ ssdReadCall 0 1) ∧
      ¬ AllStates systemStep System.ReadsDelivered freshSystem
        (bufferedCall 0 5 ++ ssdReadCall 0 1) := by
  refine ⟨by decide +kernel, fun hall => ?_⟩
  have hfresh : System.ReadsDelivered freshSystem := by
    intro c task hpc
    cases hpc
  have hdelivered : staleSystem.ReadsDelivered :=
    hall.of_runOps hfresh (Option.some_get _).symm
  obtain ⟨task, hpc⟩ : ∃ task, staleSystem.clients 0 = .returned task := by
    by_contra hnone
    have hrunning : staleSystem.Running 0 :=
      ⟨by decide +kernel, fun task hpc => hnone ⟨task, hpc⟩⟩
    exact absurd hrunning (by decide +kernel)
  have hsame := hdelivered 0 task hpc (by decide +kernel) 0 (by decide +kernel)
  exact absurd hsame (by decide +kernel)

end Uhs
