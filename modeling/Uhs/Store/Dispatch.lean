import Uhs.Store.Partition
import Uhs.Store.Posting

/-!
# What the workers make of a request

The flags of a request and the operation bits share one word.  The posting
functions mask it with `MIX_READ | MIX_WRITE`, the workers with `MIX_CLEAR` as
well, and both compare with single bits: an operation bit among the flags, or
the two bits of the sub-tasks of a large write, lead to no branch at all.
-/

namespace Uhs

open Support

variable {β : Type*} {request : Request β} {c : Fin 16} {task : IoTask β}

/-! ## Operation bits -/

/-- An operation is recognised behind a mask when none of the other bits of the
mask is set. -/
theorem lor_land_lor_eq_iff {flags op others : ℕ}
    (hdisjoint : op &&& others = 0) :
    (flags ||| op) &&& (op ||| others) = op ↔ flags &&& others = 0 := by
  have hbit : ∀ i, (op.testBit i && others.testBit i) = false := by
    intro i
    rw [← Nat.testBit_and, hdisjoint, Nat.zero_testBit]
  constructor
  · intro heq
    refine Nat.eq_of_testBit_eq fun i => ?_
    have hi := congrArg (Nat.testBit · i) heq
    have hdisj := hbit i
    simp only [Nat.testBit_and, Nat.testBit_or, Nat.zero_testBit] at hi ⊢
    revert hi hdisj
    cases flags.testBit i <;> cases op.testBit i <;>
      cases others.testBit i <;> decide
  · intro hzero
    refine Nat.eq_of_testBit_eq fun i => ?_
    have hi := congrArg (Nat.testBit · i) hzero
    simp only [Nat.testBit_and, Nat.testBit_or, Nat.zero_testBit] at hi ⊢
    revert hi
    cases flags.testBit i <;> cases op.testBit i <;>
      cases others.testBit i <;> decide

/-- A word with a bit set that the compared one lacks. -/
theorem lor_land_ne {flags op mask other : ℕ} (hmask : op &&& mask = op)
    (hne : op &&& other ≠ op) : (flags ||| op) &&& mask ≠ other := by
  intro heq
  apply hne
  rw [← heq, Nat.and_comm (flags ||| op), ← Nat.and_assoc, hmask,
    Nat.and_or_distrib_left, Nat.and_self]
  refine Nat.eq_of_testBit_eq fun i => ?_
  rw [Nat.testBit_or, Nat.testBit_and]
  cases flags.testBit i <;> cases op.testBit i <;> decide

/-! ## Postings -/

/-- A task in a queue of the workers, whether its poster waits for it, and the
branch of `nvm_worker` that the poster meant. -/
structure Posting (β : Type*) where
  task : IoTask β
  waits : Bool
  meant : WorkerBranch

/-- The tasks that `mixdk_write` or `mixdk_read` post. -/
def Request.postings (request : Request β) (c : Fin 16) :
    List (Posting β) :=
  match ClientPc.post (request.task c) with
  | .postNvm task =>
      [{ task := task
         waits := true
         meant := if request.isWrite then .nvmWrite else .nvmRead }]
  | .postSmall task =>
      [{ task := task, waits := true, meant := .redirectWrite }]
  | .postSub task _ =>
      (mixPostTaskToBuffer task).map fun post =>
        { task := post.2, waits := false, meant := .clear }
  | _ => []

/-- By how much the branch of a task lowers the in-flight counter; `ret` is an
`int`. -/
def IoTask.lowers (task : IoTask β) : ℤ :=
  match workerBranch task with
  | .nvmRead => toInt32 task.len
  | .nvmWrite => toInt32 task.len
  | .redirectRead => task.len
  | .redirectWrite => toInt32 task.len
  | .clear => 0
  | .skip => 0

/-- The worker runs what was meant, and a poster that waits is released. -/
structure Posting.Handled (posting : Posting β) : Prop where
  branch : workerBranch posting.task = posting.meant
  lowers : posting.waits = true → posting.task.lowers = posting.task.len

/-- Every task that the request posts is handled. -/
def Request.Dispatched (request : Request β) (c : Fin 16) : Prop :=
  ∀ posting ∈ request.postings c, posting.Handled

/-- The request is routed to the NVM. -/
def Request.ToNvm (request : Request β) : Prop :=
  (request.offset + request.len) % 2 ^ 64 < nvmThreshold

instance (request : Request β) : Decidable request.ToNvm :=
  inferInstanceAs (Decidable (_ < _))

/-- The flags and lengths with which nothing that is posted goes astray: no
other operation bit and an `int` length in the NVM range; on the SSD a read,
a write with the flag `MIX_READ`, which posts nothing, a small write without
`MIX_CLEAR`, or a length whose sub-tasks are all empty. -/
def Request.Decodes (request : Request β) : Prop :=
  (request.ToNvm →
    request.flags &&&
        ((if request.isWrite then mixRead else mixWrite) ||| mixClear) = 0 ∧
      request.len < 2 ^ 31) ∧
  (¬ request.ToNvm → request.isWrite = true → request.flags &&& mixRead = 0 →
    request.len ≤ smallThreshold ∧ request.flags &&& mixClear = 0 ∨
      smallThreshold < request.len ∧
        request.len % 2 ^ 32 ∈ [0, 2 ^ 32 - 7, 2 ^ 32 - 6, 2 ^ 32 - 5])

instance (request : Request β) : Decidable request.Decodes :=
  inferInstanceAs (Decidable ((_ → _ ∧ _) ∧ (_ → _ → _ → _ ∨ _ ∧ _)))

/-! ## The branch of a posted task -/

theorem workerBranch_nvm (htype : task.type = .nvm) :
    (workerBranch task = .nvmWrite ↔
        task.opcode &&& (mixRead ||| mixWrite ||| mixClear) = mixWrite) ∧
      (workerBranch task = .nvmRead ↔
        task.opcode &&& (mixRead ||| mixWrite ||| mixClear) = mixRead) := by
  have hne : mixRead ≠ mixWrite := by decide
  simp only [workerBranch, htype]
  constructor
  · split_ifs with hread hwrite
    · simp [hread, hne]
    · simp [hwrite]
    · simp [hwrite]
  · split_ifs with hread hwrite
    · simp [hread]
    · simp [hwrite, hne.symm]
    · simp [hread]

theorem workerBranch_ssd (htype : task.type = .ssd) :
    workerBranch task = .redirectWrite ↔
      task.opcode &&& (mixRead ||| mixWrite ||| mixClear) = mixWrite := by
  have hclear : mixClear ≠ mixWrite := by decide
  have hread : mixRead ≠ mixWrite := by decide
  simp only [workerBranch, htype]
  split_ifs with h₁ h₂ h₃
  · simp [h₁, hclear]
  · simp [h₂, hread]
  · simp [h₃]
  · simp [h₃]

/-- An `uint32_t` read as an `int`. -/
theorem toInt32_cases (n : ℕ) :
    toInt32 n = (n % 2 ^ 32 : ℕ) ∧ n % 2 ^ 32 < 2 ^ 31 ∨
      toInt32 n = (n % 2 ^ 32 : ℕ) - 2 ^ 32 ∧ 2 ^ 31 ≤ n % 2 ^ 32 := by
  unfold toInt32
  rw [Int.bmod_def]
  omega

/-- Lengths that an `int` counts. -/
theorem toInt32_eq_iff {n : ℕ} : toInt32 n = n ↔ n < 2 ^ 31 := by
  have hcases := toInt32_cases n
  omega

theorem lowers_of_branch
    (hbranch : workerBranch task = .nvmRead ∨ workerBranch task = .nvmWrite ∨
      workerBranch task = .redirectWrite) :
    task.lowers = toInt32 task.len := by
  rw [IoTask.lowers]
  rcases hbranch with hbranch | hbranch | hbranch
  · rw [hbranch]
  · rw [hbranch]
  · rw [hbranch]

/-! ## Empty sub-tasks -/

theorem bmod_toInt32_sub (a b : ℕ) :
    Int.bmod (toInt32 (a + b) - toInt32 a) (2 ^ 32) = toInt32 b := by
  unfold toInt32
  rw [Int.bmod_sub_bmod, Int.sub_bmod_bmod, Int.natCast_add,
    add_sub_cancel_left]

/-- The number of blocks of the first sub-task: `span / 4` in C, which rounds
to zero, and one more where `(span & 3) > 0`. -/
theorem toSizeT_quarter_eq_zero_iff {span : ℤ} (hlow : -(2 ^ 31) ≤ span)
    (hhigh : span < 2 ^ 31) :
    toSizeT (Int.tdiv span 4 + if 0 < span % 4 then 1 else 0) = 0 ↔
      span = 0 ∨ -7 ≤ span ∧ span ≤ -5 := by
  have hdiv : Int.tdiv span 4 =
      if 0 ≤ span then span / 4 else -(-span / 4) := by
    split_ifs with hsign
    · exact Int.tdiv_eq_ediv_of_nonneg hsign
    · rw [← Int.tdiv_eq_ediv_of_nonneg (by omega), Int.neg_tdiv, neg_neg]
  rw [toSizeT, hdiv]
  split_ifs <;> omega

theorem subTask_zero_len_eq_zero_iff :
    (subTask task 0).2.len = 0 ↔
      task.len % 2 ^ 32 ∈ [0, 2 ^ 32 - 7, 2 ^ 32 - 6, 2 ^ 32 - 5] := by
  have hlen := toInt32_cases task.len
  simp only [subTask, bmod_toInt32_sub, bufferQueueNum, Nat.cast_zero,
    Nat.cast_ofNat, List.mem_cons, List.not_mem_nil, or_false]
  rw [toSizeT_quarter_eq_zero_iff (by omega) (by omega)]
  omega

/-- An empty first sub-task ends the loop before anything is posted. -/
theorem mixPostTaskToBuffer_eq_nil_iff :
    mixPostTaskToBuffer task = [] ↔ (subTask task 0).2.len = 0 := by
  rw [mixPostTaskToBuffer, bufferQueueNum, postsFrom]
  split_ifs with hempty
  · simp [hempty]
  · simp [hempty]

theorem mem_postsFrom {n i : ℕ} {post : Fin 4 × IoTask β}
    (h : post ∈ postsFrom task n i) : ∃ j, post = subTask task j := by
  induction n generalizing i with
  | zero => simp [postsFrom] at h
  | succ n ih =>
      rw [postsFrom] at h
      split_ifs at h with hempty
      · simp at h
      · rcases List.mem_cons.mp h with rfl | hrest
        · exact ⟨i, rfl⟩
        · exact ih hrest

/-! ## Requests -/

/-- The task of a request, whatever its flags. -/
theorem Request.task_cases (request : Request β) (c : Fin 16) :
    (request.task c).len = request.len ∧
      (request.task c).opcode = request.flags |||
        (if request.isWrite then mixWrite else mixRead) ∧
      (request.task c).type = if request.ToNvm then .nvm else .ssd := by
  set task := initIoTask request.buf request.len request.offset
    (request.flags ||| if request.isWrite then mixWrite else mixRead) c
  by_cases hnvm : request.ToNvm
  · have htask : request.task c = { task with type := .nvm } := if_pos hnvm
    rw [htask, if_pos hnvm]
    exact ⟨rfl, rfl, rfl⟩
  · have htask : request.task c = { task with
        offset := toSizeT (task.offset - nvmThreshold)
        type := .ssd } := if_neg hnvm
    rw [htask, if_neg hnvm]
    exact ⟨rfl, rfl, rfl⟩

/-- A task of the NVM range is handled exactly when its flags are clean and
its length is an `int`. -/
theorem dispatched_iff_of_nvm (hnvm : request.ToNvm) :
    request.Dispatched c ↔ request.Decodes := by
  obtain ⟨hlen, hopcode, htype⟩ := request.task_cases c
  rw [if_pos hnvm] at htype
  have hpost : ClientPc.post (request.task c) = .postNvm (request.task c) := by
    rw [ClientPc.post, htype]
  obtain ⟨hwriteBranch, hreadBranch⟩ := workerBranch_nvm htype
  have hflags : workerBranch (request.task c) =
        (if request.isWrite then .nvmWrite else .nvmRead) ↔
      request.flags &&&
        ((if request.isWrite then mixRead else mixWrite) ||| mixClear) = 0 := by
    rw [hopcode] at hwriteBranch hreadBranch
    cases hwrite : request.isWrite with
    | true =>
        rw [hwrite] at hwriteBranch
        simp only [if_true] at hwriteBranch ⊢
        rw [hwriteBranch, ← lor_land_lor_eq_iff
          (show mixWrite &&& (mixRead ||| mixClear) = 0 by decide)]
        exact Iff.rfl
    | false =>
        rw [hwrite] at hreadBranch
        simp only [Bool.false_eq_true, if_false] at hreadBranch ⊢
        rw [hreadBranch, ← lor_land_lor_eq_iff
          (show mixRead &&& (mixWrite ||| mixClear) = 0 by decide)]
        exact Iff.rfl
  have hkind : ∀ b, workerBranch (request.task c) =
        (if b = true then .nvmWrite else .nvmRead) →
      workerBranch (request.task c) = .nvmRead ∨
        workerBranch (request.task c) = .nvmWrite ∨
        workerBranch (request.task c) = .redirectWrite := by
    intro b hb
    cases b with
    | true => exact Or.inr (Or.inl hb)
    | false => exact Or.inl hb
  rw [Request.Dispatched, Request.postings, hpost, Request.Decodes,
    ← hflags, ← toInt32_eq_iff, ← hlen]
  simp only [List.mem_singleton, forall_eq, hnvm, not_true_eq_false,
    false_implies, and_true, true_implies]
  constructor
  · rintro ⟨hbranch, hlowers⟩
    refine ⟨hbranch, ?_⟩
    rw [← lowers_of_branch (hkind _ hbranch)]
    exact hlowers rfl
  · rintro ⟨hbranch, hint⟩
    refine ⟨hbranch, fun _ => ?_⟩
    exact (lowers_of_branch (hkind _ hbranch)).trans hint

/-- Where a write of the SSD range is posted. -/
theorem post_of_ssd_write (hssd : ¬ request.ToNvm)
    (hwrite : request.isWrite = true) :
    ClientPc.post (request.task c) =
      if request.flags &&& mixRead = 0 then
        if request.len ≤ smallThreshold then .postSmall (request.task c)
        else .postSub (request.task c).withClear 0
      else .returned (request.task c) := by
  obtain ⟨hlen, hopcode, htype⟩ := request.task_cases c
  rw [if_neg hssd] at htype
  rw [if_pos hwrite] at hopcode
  have hposted : (request.task c).postedOp = mixWrite ↔
      request.flags &&& mixRead = 0 := by
    rw [IoTask.postedOp, hopcode,
      ← lor_land_lor_eq_iff (show mixWrite &&& mixRead = 0 by decide)]
    exact Iff.rfl
  have hnotRead : (request.task c).postedOp ≠ mixRead := by
    rw [IoTask.postedOp, hopcode]
    exact lor_land_ne (by decide) (by decide)
  simp only [ClientPc.post, htype, mixPostTaskToData, hposted, hnotRead,
    hlen, if_false]
  by_cases hread : request.flags &&& mixRead = 0
  · by_cases hsmall : request.len ≤ smallThreshold
    · simp [hread, hsmall]
    · simp [hread, hsmall, Nat.lt_of_not_le hsmall, IoTask.withClear, hlen,
        htype]
  · simp [hread]

/-- Nothing is posted for a read of the SSD range. -/
theorem postings_of_ssd_read (hssd : ¬ request.ToNvm)
    (hread : ¬ request.isWrite = true) : request.postings c = [] := by
  obtain ⟨-, hopcode, htype⟩ := request.task_cases c
  rw [if_neg hssd] at htype
  rw [if_neg hread] at hopcode
  have hnotWrite : (request.task c).postedOp ≠ mixWrite := by
    rw [IoTask.postedOp, hopcode]
    exact lor_land_ne (by decide) (by decide)
  simp only [Request.postings, ClientPc.post, htype, mixPostTaskToData,
    hnotWrite, false_and, if_false]
  by_cases hop : (request.task c).postedOp = mixRead
  · rw [if_pos hop]
  · rw [if_neg hop]

/-- A small write is redirected exactly when its flags have no `MIX_CLEAR`. -/
theorem handled_postSmall_iff (hssd : ¬ request.ToNvm)
    (hwrite : request.isWrite = true) (hread : request.flags &&& mixRead = 0)
    (hsmall : request.len ≤ smallThreshold) :
    Posting.Handled
        { task := request.task c, waits := true, meant := .redirectWrite } ↔
      request.flags &&& mixClear = 0 := by
  obtain ⟨hlen, hopcode, htype⟩ := request.task_cases c
  rw [if_neg hssd] at htype
  rw [if_pos hwrite] at hopcode
  have hbranch : workerBranch (request.task c) = .redirectWrite ↔
      request.flags &&& mixClear = 0 := by
    rw [workerBranch_ssd htype, hopcode]
    have hor : request.flags &&& (mixRead ||| mixClear) =
        request.flags &&& mixClear := by
      rw [Nat.and_or_distrib_left, hread, Nat.zero_or]
    rw [← hor, ← lor_land_lor_eq_iff
      (show mixWrite &&& (mixRead ||| mixClear) = 0 by decide)]
    exact Iff.rfl
  rw [← hbranch]
  constructor
  · exact fun h => h.branch
  · intro h
    refine ⟨h, fun _ => (lowers_of_branch (Or.inr (Or.inr h))).trans ?_⟩
    rw [smallThreshold] at hsmall
    exact toInt32_of_lt (by omega)

/-- No sub-task of a large write is cleared. -/
theorem not_handled_postSub {posting : Posting β}
    (hwrite : request.isWrite = true) (hread : request.flags &&& mixRead = 0)
    (hssd : ¬ request.ToNvm)
    (hmem : posting ∈ (mixPostTaskToBuffer (request.task c).withClear).map
      fun post => { task := post.2, waits := false, meant := .clear }) :
    ¬ posting.Handled := by
  obtain ⟨-, hopcode, htype⟩ := request.task_cases c
  rw [if_neg hssd] at htype
  rw [if_pos hwrite] at hopcode
  have hposted : (request.task c).postedOp = mixWrite := by
    rw [IoTask.postedOp, hopcode]
    exact (lor_land_lor_eq_iff
      (show mixWrite &&& mixRead = 0 by decide)).mpr hread
  obtain ⟨post, hpost, rfl⟩ := List.mem_map.mp hmem
  obtain ⟨j, rfl⟩ := mem_postsFrom hpost
  intro h
  have hskip : workerBranch (subTask (request.task c).withClear j).2 =
      .skip :=
    (workerBranch_subTask _ j).trans (workerBranch_clear hposted htype)
  have hbranch := h.branch
  rw [hskip] at hbranch
  exact WorkerBranch.noConfusion hbranch

/-- What the posting functions and the workers make of a write of the SSD
range. -/
theorem dispatched_iff_of_ssd_write (hssd : ¬ request.ToNvm)
    (hwrite : request.isWrite = true) :
    request.Dispatched c ↔ request.Decodes := by
  have hpost := post_of_ssd_write (c := c) hssd hwrite
  rw [Request.Dispatched, Request.postings, hpost, Request.Decodes]
  simp only [hssd, hwrite, false_implies, true_and, not_false_eq_true,
    true_implies]
  by_cases hread : request.flags &&& mixRead = 0
  swap
  · simp [hread]
  simp only [hread, if_true, true_implies]
  by_cases hsmall : request.len ≤ smallThreshold
  · have hlarge : ¬ smallThreshold < request.len := Nat.not_lt.mpr hsmall
    simp only [hsmall, if_true, List.mem_singleton, forall_eq, true_and,
      hlarge, false_and, or_false]
    exact handled_postSmall_iff hssd hwrite hread hsmall
  · have hlarge : smallThreshold < request.len := Nat.lt_of_not_le hsmall
    simp only [hsmall, if_false, false_and, false_or, hlarge, true_and]
    have hlen : (request.task c).withClear.len = request.len :=
      (request.task_cases c).1
    rw [← hlen, ← subTask_zero_len_eq_zero_iff,
      ← mixPostTaskToBuffer_eq_nil_iff]
    constructor
    · intro hall
      rw [← List.map_eq_nil_iff, List.eq_nil_iff_forall_not_mem]
      intro posting hmem
      exact not_handled_postSub hwrite hread hssd hmem (hall posting hmem)
    · intro hnil
      simp [hnil]

/-- The tasks of a request reach the operations that were meant, and its
caller is released, exactly when its flags and its length allow it. -/
theorem dispatched_iff (request : Request β) (c : Fin 16) :
    request.Dispatched c ↔ request.Decodes := by
  by_cases hnvm : request.ToNvm
  · exact dispatched_iff_of_nvm hnvm
  · by_cases hwrite : request.isWrite = true
    · exact dispatched_iff_of_ssd_write hnvm hwrite
    · rw [Request.Dispatched, postings_of_ssd_read hnvm hwrite]
      simp [Request.Decodes, hnvm, hwrite]

/-- A write of two blocks to the SSD range posts two sub-tasks that no worker
clears; a one-block write with the flag `MIX_CLEAR` keeps its caller waiting
for ever. -/
theorem twoBlocks_not_dispatched :
    ¬ (writeRequest 0 2 7).Dispatched 0 ∧
      ¬ Request.Dispatched
        { writeRequest 0 1 7 with flags := mixClear } 0 := by
  constructor
  · intro h
    have hbranch := (h _ List.mem_cons_self).branch
    exact absurd hbranch (by decide +kernel)
  · intro h
    have hlowers := (h _ List.mem_cons_self).lowers rfl
    exact absurd hlowers (by decide +kernel)

/-! ## The workers lower the counter -/

/-- What a worker does with the counter of a task that it has taken: it lowers
it at once, or goes on in a branch that lowers it at the end. -/
theorem dispatch_inflight {T : ℕ} {σ : Type*} [BlockDevice σ β]
    (s : System T σ β) (i : Fin 4) (task : IoTask β) :
    (dispatch s i task).inflight task.inflightBuffer =
        s.inflight task.inflightBuffer - task.lowers ∨
      ∃ pc, dispatch s i task = s.setWorker i pc ∧ pc.current = some task ∧
        pc.Fits ∧ task.lowers = toInt32 task.len := by
  cases hbranch : workerBranch task with
  | nvmRead =>
      right
      refine ⟨.nvmRead task 0, ?_, rfl, ⟨hbranch, Nat.zero_le _⟩,
        lowers_of_branch (Or.inl hbranch)⟩
      rw [dispatch, hbranch]
  | nvmWrite =>
      right
      refine ⟨.nvmWrite task 0, ?_, rfl, ⟨hbranch, Nat.zero_le _⟩,
        lowers_of_branch (Or.inr (Or.inl hbranch))⟩
      rw [dispatch, hbranch]
  | redirectWrite =>
      right
      refine ⟨.start task, ?_, rfl, hbranch,
        lowers_of_branch (Or.inr (Or.inr hbranch))⟩
      rw [dispatch, hbranch]
  | redirectRead =>
      left
      rw [dispatch, hbranch, IoTask.lowers, hbranch]
      exact System.fetchSub_self s _ _
  | clear =>
      left
      rw [dispatch, hbranch, IoTask.lowers, hbranch]
      exact (Int.sub_zero _).symm
  | skip =>
      left
      rw [dispatch, hbranch, IoTask.lowers, hbranch]
      exact (Int.sub_zero _).symm

/-- At the end of its branch a worker lowers the counter of the task. -/
theorem workerStep_finish_inflight {T : ℕ} {σ : Type*} [BlockDevice σ β]
    {s s' : System T σ β} {i : Fin 4} {task : IoTask β} {ret : ℤ}
    (hpc : s.workers i = .finish task ret) (hfits : (s.workers i).Fits)
    (hlowers : task.lowers = toInt32 task.len)
    (hstep : workerStep s i = some s') :
    s'.inflight task.inflightBuffer =
      s.inflight task.inflightBuffer - task.lowers := by
  rw [hpc] at hfits
  simp only [workerStep, hpc, Option.some.injEq] at hstep
  subst hstep
  rw [hlowers, ← (show ret = toInt32 task.len from hfits)]
  exact System.fetchSub_self s _ _

end Uhs
