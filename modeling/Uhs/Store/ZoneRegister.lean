import Uhs.Store.ReadAfterWrite
import Uhs.Support.Atomic

/-!
# Blocks of the NVM zone as registers

A call to the NVM zone is executed block by block, and calls of different
clients overlap.  Each block by itself is an atomic register: its reads and
writes take effect one after the other, each between its call and its return.
-/

namespace Uhs

open Support

variable {T : ℕ} {σ β : Type*} {s s' : System T σ β} {c d : Fin 16}
  {i j : Fin 4} {task : IoTask β} {request : Request β} {b k : ℕ}
  {events : List (Fin 16 × CallEvent β)}

/-! ## The histories -/

/-- What a call does with one block. -/
inductive BlockOp (β : Type*)
  | read
  | write (x : β)

/-- A block as a register: a read gets what was written last. -/
def blockStep (x : β) : BlockOp β → β × Option β
  | .read => (x, some x)
  | .write y => (y, none)

/-- The request is one to the NVM zone and covers block `b`. -/
def Request.Accesses (request : Request β) (b : ℕ) : Prop :=
  request.offset + request.len < nvmThreshold ∧ request.Covers b

instance (request : Request β) (b : ℕ) : Decidable (request.Accesses b) :=
  inferInstanceAs (Decidable (_ ∧ _))

/-- What the request does with block `b`. -/
def Request.blockOp (request : Request β) (b : ℕ) : BlockOp β :=
  if request.isWrite then .write (request.buf (b - request.offset)) else .read

/-- What the last call of client `c` has got from block `b`. -/
def System.blockReply (s : System T σ β) (b : ℕ) (c : Fin 16) : Option β :=
  if (s.request c).isWrite then none
  else some (s.dst c (b - (s.request c).offset))

/-- The calls and returns of a step, as far as they concern block `b`. -/
def blockEvents (s : System T σ β) (b : ℕ) :
    SystemEvent T β → List (HistoryEvent (Fin 16) (BlockOp β) (Option β))
  | .call c request =>
      if request.Accesses b then [.call c (request.blockOp b)] else []
  | .client c =>
      match s.clients c with
      | .wait _ =>
          if (s.request c).Accesses b then [.ret c (s.blockReply b c)] else []
      | _ => []
  | _ => []

/-- The system with the history of each block. -/
structure BlockLog (T : ℕ) (σ β : Type*) where
  system : System T σ β
  history : ℕ → List (HistoryEvent (Fin 16) (BlockOp β) (Option β))

def blockLogStep [BlockDevice σ β] (l : BlockLog T σ β)
    (event : SystemEvent T β) : Option (BlockLog T σ β) :=
  (systemStep l.system event).map fun system =>
    ⟨system, fun b => l.history b ++ blockEvents l.system b event⟩

def BlockLog.initial [BlockDevice σ β] (T : ℕ) (store : Store σ β)
    (segmentIdx : Fin 4) (migrateBuf : Fin T → β) (inflight : Fin 16 → ℤ)
    (dst : Fin 16 → ℕ → β) (request : Fin 16 → Request β) :
    BlockLog T σ β where
  system := System.initial T store segmentIdx migrateBuf inflight dst request
  history := fun _ => []

/-! ## Phases -/

open Classical in
/-- Where the call of client `c` stands with block `b`. -/
noncomputable def System.blockPhase (s : System T σ β) (b : ℕ) (c : Fin 16) :
    Phase (BlockOp β) (Option β) :=
  if s.Running c ∧ (s.request c).Accesses b then
    if s.Executed c (b - (s.request c).offset) then .done (s.blockReply b c)
    else .called ((s.request c).blockOp b)
  else .idle

theorem System.blockPhase_idle
    (h : ¬ (s.Running c ∧ (s.request c).Accesses b)) :
    s.blockPhase b c = .idle := if_neg h

theorem System.blockPhase_called (hrunning : s.Running c)
    (haccess : (s.request c).Accesses b)
    (hexec : ¬ s.Executed c (b - (s.request c).offset)) :
    s.blockPhase b c = .called ((s.request c).blockOp b) := by
  rw [System.blockPhase, if_pos ⟨hrunning, haccess⟩, if_neg hexec]

theorem System.blockPhase_done (hrunning : s.Running c)
    (haccess : (s.request c).Accesses b)
    (hexec : s.Executed c (b - (s.request c).offset)) :
    s.blockPhase b c = .done (s.blockReply b c) := by
  rw [System.blockPhase, if_pos ⟨hrunning, haccess⟩, if_pos hexec]

/-- Worker `i` is about to access block `b` for client `c`. -/
structure System.AccessesFor (s : System T σ β) (i : Fin 4) (b : ℕ)
    (c : Fin 16) : Prop where
  accesses : (s.request c).Accesses b
  access : ∃ task : IoTask β, task.inflightBuffer = c ∧
    (s.workers i = .nvmRead task (b - (s.request c).offset) ∨
      s.workers i = .nvmWrite task (b - (s.request c).offset))

section Steps

variable [BlockDevice σ β] {event : SystemEvent T β}

/-- A call stands where it stood, unless it is made, returns or accesses the
block in this step. -/
theorem PostInv.blockPhase_eq (h : PostInv s) (hposts : event.Posts)
    (hcall : ∀ request, event ≠ .call c request)
    (hreturn : ∀ task, s.clients c = .wait task → event ≠ .client c)
    (haccess : ∀ i, event = .worker i → ¬ s.AccessesFor i b c)
    (hstep : systemStep s event = some s') :
    s'.blockPhase b c = s.blockPhase b c := by
  have hmoves := h.systemStep_moves hposts hstep
  have hrequest : s'.request c = s.request c :=
    hmoves.request_eq fun request hmem =>
      hcall request (eq_call_of_mem_callEvents hmem)
  by_cases hcalled : s.Running c ∧ (s.request c).Accesses b
  · obtain ⟨hrunning, hnvm, hge, hlt⟩ := hcalled
    have hcovers : (s.request c).Accesses b := ⟨hnvm, hge, hlt⟩
    have hcovers' : (s'.request c).Accesses b := hrequest ▸ hcovers
    have hrunning' : s'.Running c := by
      by_contra hended
      obtain ⟨task, hpc | ⟨hpc, -⟩⟩ := hmoves.ended hrunning hended
      · exact h.ne_ssd hnvm task hpc
      · have hsame := systemStep_client hcall (hreturn task hpc) hstep
        exact hended (System.running_of_wait (hsame.trans hpc))
    have hk : b - (s.request c).offset < (s.request c).len := by omega
    -- the block is executed in this step only by its worker
    have hexec : s'.Executed c (b - (s.request c).offset) →
        s.Executed c (b - (s.request c).offset) := by
      intro hexec
      cases h.executes hposts hcall hk hstep hexec with
      | before hbefore => exact hbefore
      | @read i task hpc howner _ =>
          exact absurd ⟨hcovers, task, howner, Or.inl hpc⟩ (haccess i rfl)
      | @write i task hpc howner _ =>
          exact absurd ⟨hcovers, task, howner, Or.inr hpc⟩ (haccess i rfl)
      | fill hpc howner _ => exact absurd hpc (h.ne_data hnvm howner _)
      | transfer hpc _ => exact absurd hpc (h.ne_ssd hnvm _)
    by_cases hbefore : s.Executed c (b - (s.request c).offset)
    · have hafter := h.executed_step hposts hcall hstep hbefore
      have hdst : s'.dst c (b - (s.request c).offset) =
          s.dst c (b - (s.request c).offset) := by
        cases h.systemStep_zoneMoves hstep with
        | same _ hdst | write _ _ _ hdst => rw [hdst]
        | @call d request _ hdst =>
            have hd : c ≠ d := by
              rintro rfl
              exact hcall request rfl
            rw [hdst, Function.update_of_ne hd]
        | @transfer _ d task hpc _ hdst =>
            have hd : c ≠ d := by
              rintro rfl
              exact h.ne_ssd hnvm task hpc
            rw [hdst c hd]
        | @read i task n hpc hn _ hdst =>
            rw [hdst]
            by_cases hown : c = task.inflightBuffer
            · subst hown
              rw [Function.update_self, Function.update_of_ne]
              rintro rfl
              exact haccess i rfl ⟨hcovers, task, rfl, Or.inl hpc⟩
            · rw [Function.update_of_ne hown]
      rw [System.blockPhase_done hrunning hcovers hbefore,
        System.blockPhase_done hrunning' hcovers' (hrequest ▸ hafter),
        System.blockReply, System.blockReply, hrequest, hdst]
    · have hafter : ¬ s'.Executed c (b - (s'.request c).offset) := by
        rw [hrequest]
        exact fun hexec' => hbefore (hexec hexec')
      rw [System.blockPhase_called hrunning hcovers hbefore,
        System.blockPhase_called hrunning' hcovers' hafter, hrequest]
  · rw [System.blockPhase_idle hcalled, System.blockPhase_idle]
    rintro ⟨hrunning', hcovers'⟩
    rw [hrequest] at hcovers'
    rcases hmoves.running hrunning' with ⟨hrunning, -⟩ | hmade
    · exact hcalled ⟨hrunning, hcovers'⟩
    · exact hcall _ (eq_call_of_mem_callEvents hmade)

/-! ## One step of the history -/

omit [BlockDevice σ β] in
theorem System.AccessesFor.client_eq (h : s.AccessesFor i b c)
    (h' : s.AccessesFor i b d) : d = c := by
  obtain ⟨task, rfl, hpc⟩ := h.access
  obtain ⟨task', rfl, hpc'⟩ := h'.access
  rcases hpc with hpc | hpc <;> rcases hpc' with hpc' | hpc' <;>
    rw [hpc] at hpc' <;> cases hpc' <;> rfl

variable {x : β} {history : List (HistoryEvent (Fin 16) (BlockOp β) (Option β))}

theorem PostInv.atomic_call (h : PostInv s) (hposts : request.Posts)
    (hatomic : Atomic blockStep x history (s.nvm b) (s.blockPhase b))
    (hstep : systemStep s (.call c request) = some s') :
    Atomic blockStep x (history ++ blockEvents s b (.call c request))
      (s'.nvm b) (s'.blockPhase b) := by
  have hevent : (SystemEvent.call c request : SystemEvent T β).Posts := hposts
  obtain ⟨-, hrequest, hnvm, hexec⟩ :=
    h.systemStep_call (k := b - request.offset) hposts hstep
  have hothers : ∀ d, d ≠ c → s'.blockPhase b d = s.blockPhase b d := by
    intro d hd
    refine h.blockPhase_eq hevent (fun _ heq => hd ?_) (fun _ _ => nofun)
      nofun hstep
    exact (SystemEvent.call.inj heq).1.symm
  have hidle : s.blockPhase b c = .idle := by
    exact System.blockPhase_idle fun hcalled =>
      hcalled.1.1 (systemStep_call_eq hstep).1
  have hrunning : s'.Running c := by
    by_contra hended
    exact hexec (.ended hended)
  rw [blockEvents, hnvm]
  split
  · rename_i haccess
    refine hatomic.call_of_eq hidle ?_ hothers
    rw [System.blockPhase_called hrunning (hrequest.symm ▸ haccess)
      (hrequest.symm ▸ hexec), hrequest]
  · rename_i haccess
    rw [List.append_nil]
    refine hatomic.congr rfl fun d => ?_
    by_cases hd : d = c
    · rw [hd, hidle]
      exact System.blockPhase_idle fun hcalled =>
        haccess (hrequest ▸ hcalled.2)
    · exact hothers d hd

theorem PostInv.atomic_return (h : PostInv s) (hpc : s.clients c = .wait task)
    (hatomic : Atomic blockStep x history (s.nvm b) (s.blockPhase b))
    (hstep : systemStep s (.client c) = some s') :
    Atomic blockStep x (history ++ blockEvents s b (.client c))
      (s'.nvm b) (s'.blockPhase b) := by
  have hevent : (SystemEvent.client c : SystemEvent T β).Posts := trivial
  have hothers : ∀ d, d ≠ c → s'.blockPhase b d = s.blockPhase b d := by
    intro d hd
    refine h.blockPhase_eq hevent nofun (fun _ _ heq => hd ?_) nofun hstep
    exact (SystemEvent.client.inj heq).symm
  obtain ⟨hinflight, rfl⟩ : s.inflight c ≤ 0 ∧
      s' = s.setClient c (.returned task) := by
    change clientStep s c = some s' at hstep
    simp only [clientStep, hpc] at hstep
    split at hstep
    · cases hstep
    · cases hstep
      exact ⟨by omega, rfl⟩
  have hidle : (s.setClient c (.returned task)).blockPhase b c = .idle := by
    refine System.blockPhase_idle fun hcalled => hcalled.1.2 task ?_
    exact System.setClient_self s c _
  change Atomic blockStep x _ (s.nvm b) _
  rw [blockEvents, hpc]
  dsimp only
  split
  · rename_i haccess
    exact hatomic.ret_of_eq (System.blockPhase_done
      (System.running_of_wait hpc) haccess (.done hpc hinflight)) hidle hothers
  · rename_i haccess
    rw [List.append_nil]
    refine hatomic.congr rfl fun d => ?_
    by_cases hd : d = c
    · rw [hd, hidle]
      exact (System.blockPhase_idle fun hcalled => haccess hcalled.2).symm
    · exact hothers d hd

/-- The access of a worker is the moment at which the operation takes
effect. -/
theorem PostInv.atomic_access (h : PostInv s) (haccess : s.AccessesFor i b c)
    (hatomic : Atomic blockStep x history (s.nvm b) (s.blockPhase b))
    (hstep : systemStep s (.worker i) = some s') :
    Atomic blockStep x history (s'.nvm b) (s'.blockPhase b) := by
  have hevent : (SystemEvent.worker i : SystemEvent T β).Posts := trivial
  have hothers : ∀ d, d ≠ c → s'.blockPhase b d = s.blockPhase b d := by
    intro d hd
    refine h.blockPhase_eq hevent nofun (fun _ _ => nofun)
      (fun j hj haccess' => hd ?_) hstep
    obtain rfl := SystemEvent.worker.inj hj
    exact haccess.client_eq haccess'
  have hne : (SystemEvent.worker i : SystemEvent T β) ≠ .client c := nofun
  have hcall : ∀ request, (SystemEvent.worker i : SystemEvent T β) ≠
      .call c request := fun _ => nofun
  have hclient := systemStep_client hcall hne hstep
  have hrequest : s'.request c = s.request c :=
    (h.systemStep_moves hevent hstep).request_eq fun request hmem => by
      cases eq_call_of_mem_callEvents hmem
  obtain ⟨hcovers, task, rfl, hpc⟩ := haccess
  obtain ⟨hnvm, hge, hlt⟩ := hcovers
  have hcurrent : (s.workers i).current = some task := by
    rcases hpc with hpc | hpc <;> rw [hpc] <;> rfl
  have hposted := h.posted (System.mem_pending_of_worker hcurrent)
  have hlen := hposted.len
  have hrunning := System.running_of_wait hposted.client
  have hcalled := System.blockPhase_called hrunning ⟨hnvm, hge, hlt⟩
    (h.not_executed_of_worker hcurrent (k :=
      b - (s.request task.inflightBuffer).offset) (by
      rcases hpc with hpc | hpc <;> rw [hpc] <;>
        exact fun hexec => lt_irrefl _ hexec.2))
  have hrunning' : s'.Running task.inflightBuffer :=
    System.running_of_wait (hclient.trans hposted.client)
  have haccess' : (s'.request task.inflightBuffer).Accesses b := by
    rw [hrequest]
    exact ⟨hnvm, hge, hlt⟩
  change workerStep s i = some s' at hstep
  rcases hpc with hpc | hpc
  · obtain ⟨-, hbranch⟩ := h.posted_nvmRead hpc
    have hread := hposted.nvmRead_isWrite hbranch
    have hoffset := (hposted.nvm_fields (Or.inl hbranch)).1
    simp only [workerStep, hpc] at hstep
    rw [if_pos (by omega), Option.some.injEq] at hstep
    have hexec : s'.Executed task.inflightBuffer
        (b - (s'.request task.inflightBuffer).offset) := by
      refine .worker (i := i) ?_
      rw [← hstep, System.setWorker_self]
      exact ⟨rfl, Nat.lt_succ_self _⟩
    have hdone := System.blockPhase_done hrunning' haccess' hexec
    rw [Request.blockOp, hread, if_neg Bool.false_ne_true] at hcalled
    have heffect : blockStep (s.nvm b) .read = (s'.nvm b, some (s.nvm b)) := by
      rw [← hstep]
      rfl
    refine hatomic.effect_of_eq hcalled heffect ?_ hothers
    rw [hdone, System.blockReply, hrequest, hread, ← hstep]
    simp [System.deliver, System.setWorker, System.nvm, hoffset,
      Nat.add_sub_cancel' hge]
  · obtain ⟨-, hbranch⟩ := h.posted_nvmWrite hpc
    have hwrite := hposted.nvmWrite_isWrite hbranch
    obtain ⟨hoffset, hbuf⟩ := hposted.nvm_fields (Or.inr hbranch)
    simp only [workerStep, hpc] at hstep
    rw [if_pos (by omega), Option.some.injEq] at hstep
    have hexec : s'.Executed task.inflightBuffer
        (b - (s'.request task.inflightBuffer).offset) := by
      refine .worker (i := i) ?_
      rw [← hstep, System.setWorker_self]
      exact ⟨rfl, Nat.lt_succ_self _⟩
    have hdone := System.blockPhase_done hrunning' haccess' hexec
    rw [Request.blockOp, hwrite, if_pos rfl] at hcalled
    have heffect : blockStep (s.nvm b) (.write
        ((s.request task.inflightBuffer).buf
          (b - (s.request task.inflightBuffer).offset))) =
        (s'.nvm b, none) := by
      have hzone := mixNvmWrite_one s.machine.store.dev
        (task.buf (b - (s.request task.inflightBuffer).offset))
        (task.offset + (b - (s.request task.inflightBuffer).offset))
      have hwritten := congrFun hzone b
      rw [hoffset, Nat.add_sub_cancel' hge, Function.update_self, hbuf]
        at hwritten
      rw [← hstep, hoffset, Nat.add_sub_cancel' hge, hbuf]
      exact Prod.ext hwritten.symm rfl
    refine hatomic.effect_of_eq hcalled heffect ?_ hothers
    rw [hdone, System.blockReply, hrequest, hwrite]
    rfl

theorem PostInv.atomic_step (h : PostInv s) (hposts : event.Posts)
    (hatomic : Atomic blockStep x history (s.nvm b) (s.blockPhase b))
    (hstep : systemStep s event = some s') :
    Atomic blockStep x (history ++ blockEvents s b event) (s'.nvm b)
      (s'.blockPhase b) := by
  by_cases hcall : ∃ c request, event = .call c request
  · obtain ⟨c, request, rfl⟩ := hcall
    exact h.atomic_call hposts hatomic hstep
  by_cases hreturn : ∃ c task, s.clients c = .wait task ∧ event = .client c
  · obtain ⟨c, task, hpc, rfl⟩ := hreturn
    exact h.atomic_return hpc hatomic hstep
  have hevents : blockEvents s b event = [] := by
    cases event with
    | call c request => exact absurd ⟨c, request, rfl⟩ hcall
    | client c =>
        rw [blockEvents]
        split
        · exact absurd ⟨c, _, ‹_›, rfl⟩ hreturn
        · rfl
    | worker i | migrate i | coord | thread t => rfl
  rw [hevents, List.append_nil]
  by_cases haccess : ∃ i c, event = .worker i ∧ s.AccessesFor i b c
  · obtain ⟨i, c, rfl, haccess⟩ := haccess
    exact h.atomic_access haccess hatomic hstep
  -- nothing happens to the block
  refine hatomic.congr ?_ fun c => h.blockPhase_eq hposts
    (fun request heq => hcall ⟨c, request, heq⟩)
    (fun task hpc heq => hreturn ⟨c, task, hpc, heq⟩)
    (fun i heq haccess' => haccess ⟨i, c, heq, haccess'⟩) hstep
  cases h.systemStep_zoneMoves hstep with
  | same hnvm | call hnvm | transfer _ hnvm | read _ _ hnvm => rw [hnvm]
  | @write i task n hpc hn hnvm =>
      rw [hnvm, Function.update_of_ne]
      rintro rfl
      obtain ⟨hposted, hbranch⟩ := h.posted_nvmWrite hpc
      have hoffset := (hposted.nvm_fields (Or.inr hbranch)).1
      have hlen := hposted.len
      refine haccess ⟨i, task.inflightBuffer, rfl,
        ⟨hposted.nvm_range (Or.inr hbranch), ?_, ?_⟩, task, rfl, Or.inr ?_⟩
      · rw [hoffset]
        exact Nat.le_add_right _ _
      · rw [hoffset]
        omega
      · rw [hpc, hoffset, Nat.add_sub_cancel_left]

/-! ## Runs -/

/-- The history of every block is one of an atomic register. -/
structure BlockLogInv (init : ℕ → β) (l : BlockLog T σ β) : Prop where
  tasks : PostInv l.system
  atomic : ∀ b, Atomic blockStep (init b) (l.history b) (l.system.nvm b)
    (l.system.blockPhase b)

theorem blockLogStep_inv {init : ℕ → β} {l l' : BlockLog T σ β}
    (h : BlockLogInv init l) (hposts : event.Posts)
    (hstep : blockLogStep l event = some l') : BlockLogInv init l' := by
  rw [blockLogStep, Option.map_eq_some_iff] at hstep
  obtain ⟨s', hstep, rfl⟩ := hstep
  exact ⟨systemStep_postInv h.tasks hposts hstep,
    fun b => h.tasks.atomic_step hposts (h.atomic b) hstep⟩

theorem blockLogInv_initial (store : Store σ β) (segmentIdx : Fin 4)
    (migrateBuf : Fin T → β) (inflight : Fin 16 → ℤ) (dst : Fin 16 → ℕ → β)
    (request : Fin 16 → Request β) :
    BlockLogInv store.dev.nvm (BlockLog.initial T store segmentIdx migrateBuf
      inflight dst request) where
  tasks := postInv_initial _ _ _ _ _ _
  atomic := fun _ => Atomic.nil.congr rfl fun _ =>
    System.blockPhase_idle fun hcalled => hcalled.1.1 rfl

/-- In every run of calls that can be posted each block of the NVM zone is
linearizable: whatever calls of other clients overlap, a read returns what the
write before it has written, in one order that respects the times of the
calls. -/
theorem nvmBlocks_linearizable (store : Store σ β) (segmentIdx : Fin 4)
    (migrateBuf : Fin T → β) (inflight : Fin 16 → ℤ) (dst : Fin 16 → ℕ → β)
    (request : Fin 16 → Request β) {events : List (SystemEvent T β)}
    (hposts : ∀ event ∈ events, event.Posts) :
    AllStates blockLogStep (fun l => ∀ b,
        Linearizable blockStep (store.dev.nvm b) (l.history b))
      (BlockLog.initial T store segmentIdx migrateBuf inflight dst request)
      events := by
  have hsteps : AllSteps blockLogStep
      (fun (_ : BlockLog T σ β) event => event.Posts ∧ True)
      (BlockLog.initial T store segmentIdx migrateBuf inflight dst request)
      events :=
    AllSteps.and_of_forall_mem hposts (allSteps_true _ _)
  refine (allStates_of_allSteps (I := BlockLogInv store.dev.nvm) ?_
    (blockLogInv_initial store segmentIdx migrateBuf inflight dst request)
    hsteps).mono fun l h b => (h.atomic b).linearizable
  intro l event l' h hevent hstep
  exact blockLogStep_inv h hevent.1 hstep

end Steps

/-- Client `0` writes the blocks from `4` to `6` while client `1` reads the
blocks `5` and `6`, and both calls return. -/
theorem nvmBlocks_linearizable_overlapping :
    AllStates blockLogStep (fun l => ∀ b,
        Linearizable blockStep 0 (l.history b))
      (BlockLog.initial 8 (freshStore 32 (fun _ => false) zeroDevices) 0
        (fun _ => 0) (fun _ => 0) (fun _ _ => 0)
        fun _ => ⟨false, fun _ => 0, 0, 0, 0⟩ : BlockLog 8 (ℕ → ℕ) ℕ)
      ([.call 0 (nvmWriteRequest 4 3 20), .call 1 (nvmReadRequest 5 2),
          .client 0, .client 1] ++
        List.replicate 4 (.worker 0) ++ List.replicate 6 (.worker 1) ++
        List.replicate 3 (.worker 0) ++ [.client 1, .client 0]) :=
  nvmBlocks_linearizable (freshStore 32 (fun _ => false) zeroDevices) _ _ _ _
    _ (by decide)

end Uhs
