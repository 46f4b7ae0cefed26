import Uhs.Hash.ListTable
import Uhs.Support.Runs

/-!
# Puts and deletes

Runs of `mix_hash_put` and `mix_hash_delete` on a fresh table.  Under every
hash function the table keeps, for every key, a stack of values: a put pushes,
a delete pops, and `mix_hash_get` reads the top.
-/

namespace Uhs

open Support

/-- A call of `mix_hash_put` or `mix_hash_delete`. -/
inductive Update where
  | put (key value : ℕ)
  | delete (key : ℕ)
  deriving DecidableEq

/-- The key an update is about. -/
def Update.key : Update → ℕ
  | .put key _ => key
  | .delete key => key

/-- Values fit in a non-negative `int`. -/
def Update.Small : Update → Prop
  | .put _ value => value < 2 ^ 31
  | .delete _ => True

instance : DecidablePred Update.Small
  | .put _ value => inferInstanceAs (Decidable (value < 2 ^ 31))
  | .delete _ => inferInstanceAs (Decidable True)

/-! ## Stacks -/

/-- A stack of values for every key. -/
abbrev Stacks := ℕ → List ℕ

/-- A put pushes its value and a delete pops the latest one. -/
def Stacks.update (st : Stacks) : Update → Stacks
  | .put key value => Function.update st key (value :: st key)
  | .delete key => Function.update st key (st key).tail

/-- The stacks after a list of updates. -/
def Stacks.after (ops : List Update) : Stacks :=
  ops.foldl Stacks.update fun _ => []

/-- The latest value, or `-1`. -/
def Stacks.top (st : Stacks) (key : ℕ) : ℤ :=
  match st key with
  | [] => -1
  | value :: _ => value

/-- All values fit in a non-negative `int`. -/
def Stacks.Small (st : Stacks) : Prop :=
  ∀ key, ∀ value ∈ st key, value < 2 ^ 31

theorem Stacks.update_of_ne (st : Stacks) (op : Update) {key : ℕ}
    (h : key ≠ op.key) : st.update op key = st key := by
  cases op with
  | put key' value => exact Function.update_of_ne h _ _
  | delete key' => exact Function.update_of_ne h _ _

theorem Stacks.Small.update {st : Stacks} (h : st.Small) {op : Update}
    (hop : op.Small) : (st.update op).Small := by
  intro key
  by_cases hkey : key = op.key
  · subst hkey
    cases op with
    | put key value =>
        intro v hv
        simp only [Stacks.update, Update.key, Function.update_self] at hv
        rcases List.mem_cons.mp hv with rfl | hv
        · exact hop
        · exact h key v hv
    | delete key =>
        intro v hv
        simp only [Stacks.update, Update.key, Function.update_self] at hv
        exact h key v (List.mem_of_mem_tail hv)
  · rw [Stacks.update_of_ne st op hkey]
    exact h key

/-- The stack of a key in a table of lists. -/
def MixHash.stack (bucketOf : ℕ → ℕ → ℕ) (hash : MixHash) : Stacks :=
  fun key => valuesOf (hash.hashNodes (bucketOf key hash.hashSize)).list key

variable {bucketOf : ℕ → ℕ → ℕ} {hash hash' : MixHash}

/-- The `int` read off the first of some values. -/
def firstInt (values : List ℕ) : ℤ :=
  match values with
  | [] => -1
  | value :: _ => toInt32 value

theorem mixHashGetAt_eq_firstInt (hash : MixHash) (key : ℕ) :
    mixHashGetAt hash (bucketOf key hash.hashSize) key =
      firstInt (hash.stack bucketOf key) := by
  have hfirst : lookupKey
      (hash.hashNodes (bucketOf key hash.hashSize)).list key =
        (hash.stack bucketOf key).head? := lookupKey_eq_head? _ key
  rw [mixHashGetAt, hfirst]
  rcases hash.stack bucketOf key with - | ⟨value, stack⟩
  · rfl
  · rfl

theorem Stacks.Small.firstInt_eq {st : Stacks} (h : st.Small) (key : ℕ) :
    firstInt (st key) = st.top key := by
  rw [Stacks.top]
  rcases hstack : st key with - | ⟨value, stack⟩
  · rfl
  · exact toInt32_of_lt (h key value (by simp [hstack]))

/-- Replacing the bucket of a key changes the stacks as it changes the list. -/
theorem stack_setNode (key : ℕ) {l : List MixKv} {len : ℤ} {stack : List ℕ}
    (hself : valuesOf l key = stack)
    (hother : ∀ k, k ≠ key → valuesOf l k =
      valuesOf (hash.hashNodes (bucketOf key hash.hashSize)).list k) :
    (hash.setNode (bucketOf key hash.hashSize) ⟨len, l⟩).stack bucketOf =
      Function.update (hash.stack bucketOf) key stack := by
  funext k
  by_cases hk : k = key
  · subst hk
    simp [MixHash.stack, MixHash.setNode, hself]
  · rw [Function.update_of_ne hk]
    by_cases hbucket : bucketOf k hash.hashSize = bucketOf key hash.hashSize
    · simp [MixHash.stack, MixHash.setNode, hbucket, hother k hk]
    · simp [MixHash.stack, MixHash.setNode, hbucket]

theorem stack_putAt {key value : ℕ}
    (h : mixHashPutAt hash (bucketOf key hash.hashSize) key value =
      some hash') :
    hash'.stack bucketOf = (hash.stack bucketOf).update (.put key value) := by
  obtain ⟨-, rfl⟩ := mixHashPutAt_eq_some h
  apply stack_setNode key
  · exact valuesOf_cons_self _ key value
  · intro k hk
    exact valuesOf_cons_of_ne _ (Ne.symm hk)

theorem stack_deleteAt (hash : MixHash) (key : ℕ) :
    (mixHashDeleteAt hash (bucketOf key hash.hashSize) key).stack bucketOf =
      (hash.stack bucketOf).update (.delete key) := by
  have hunlinked : (hash.setNode (bucketOf key hash.hashSize)
      ⟨(hash.hashNodes (bucketOf key hash.hashSize)).len - 1,
        eraseKey (hash.hashNodes (bucketOf key hash.hashSize)).list key⟩).stack
      bucketOf = (hash.stack bucketOf).update (.delete key) := by
    apply stack_setNode key
    · exact valuesOf_eraseKey_self _ key
    · intro k hk
      exact valuesOf_eraseKey_of_ne _ hk
  rcases mixHashDeleteAt_cases hash (bucketOf key hash.hashSize) key with
    heq | heq
  · rw [heq]
    exact hunlinked
  · rw [heq]
    exact hunlinked

/-! ## Updates of lists and of nodes -/

/-- One update of a table of lists. -/
def MixHash.updateStep (bucketOf : ℕ → ℕ → ℕ) (hash : MixHash) :
    Update → Option MixHash
  | .put key value =>
      mixHashPutAt hash (bucketOf key hash.hashSize) key value
  | .delete key => some (mixHashDeleteAt hash (bucketOf key hash.hashSize) key)

theorem stack_updateStep {op : Update}
    (h : hash.updateStep bucketOf op = some hash') :
    hash'.stack bucketOf = (hash.stack bucketOf).update op := by
  cases op with
  | put key value => exact stack_putAt h
  | delete key =>
      rw [← Option.some.inj h]
      exact stack_deleteAt hash key

namespace Linked

/-- One update of a table of nodes. -/
def updateStep (bucketOf : ℕ → ℕ → ℕ) (hash : Table) : Update → Option Table
  | .put key value => mixHashPut bucketOf hash key value
  | .delete key => mixHashDelete bucketOf hash key

/-- A put finds a free node. -/
def HasFreeNode (hash : Table) : Update → Prop
  | .put _ _ => hash.freeNodeHead.isSome = true
  | .delete _ => True

instance (hash : Table) : DecidablePred (HasFreeNode hash)
  | .put _ _ => inferInstanceAs (Decidable (hash.freeNodeHead.isSome = true))
  | .delete _ => inferInstanceAs (Decidable True)

variable {hash hash' : Table}

theorem Table.Sound.freeNodes_ne_zero (h : hash.Sound)
    (hfree : hash.freeNodeHead.isSome = true) :
    hash.toMixHash.freeNodes ≠ 0 := by
  have hchain := h.chains.chain none
  obtain ⟨node, hnode⟩ := Option.isSome_iff_exists.mp hfree
  have hhead : hash.head none = some node := hnode
  rw [hhead] at hchain
  obtain ⟨l, hl⟩ := hchain.eq_cons
  change (hash.cells none).length ≠ 0
  rw [hl]
  exact Nat.succ_ne_zero _

/-- An update of the nodes is the update of the lists. -/
theorem updateStep_eq (h : hash.Sound) {op : Update}
    (hstep : updateStep bucketOf hash op = some hash') :
    hash'.Sound ∧
      hash.toMixHash.updateStep bucketOf op = some hash'.toMixHash := by
  cases op with
  | put key value =>
      obtain ⟨heq, hsound⟩ :=
        mixHashPutAt_eq h (bucketOf key hash.hashSize) key value
      refine ⟨hsound hash' hstep, heq.symm.trans ?_⟩
      rw [show mixHashPutAt hash (bucketOf key hash.hashSize) key value =
        some hash' from hstep]
      rfl
  | delete key =>
      obtain ⟨deleted, hdelete, hsound, heq⟩ :=
        mixHashDeleteAt_eq h (bucketOf key hash.hashSize) key
      have hsame : deleted = hash' := Option.some.inj (hdelete.symm.trans hstep)
      subst hsame
      exact ⟨hsound, congrArg some heq.symm⟩

/-- An update returns if a put finds a free node. -/
theorem updateStep_returns (h : hash.Sound) {op : Update}
    (hfree : HasFreeNode hash op) :
    ∃ hash', updateStep bucketOf hash op = some hash' := by
  cases op with
  | put key value =>
      obtain ⟨heq, -⟩ :=
        mixHashPutAt_eq h (bucketOf key hash.hashSize) key value
      rw [← Option.ne_none_iff_exists']
      intro hnone
      rw [show mixHashPutAt hash (bucketOf key hash.hashSize) key value = none
        from hnone] at heq
      have hzero := Uhs.mixHashPutAt_eq_none_iff.mp heq.symm
      exact h.freeNodes_ne_zero hfree hzero
  | delete key =>
      obtain ⟨deleted, hdelete, -⟩ :=
        mixHashDeleteAt_eq h (bucketOf key hash.hashSize) key
      exact ⟨deleted, hdelete⟩

/-! ## Runs -/

/-- The table stands for the stacks. -/
structure Table.Holds (bucketOf : ℕ → ℕ → ℕ) (hash : Table) (st : Stacks) :
    Prop where
  sound : hash.Sound
  stack_eq : hash.toMixHash.stack bucketOf = st

theorem Table.Holds.step {st : Stacks} (h : hash.Holds bucketOf st)
    {op : Update} (hstep : updateStep bucketOf hash op = some hash') :
    hash'.Holds bucketOf (st.update op) := by
  obtain ⟨hsound, hlists⟩ := updateStep_eq h.sound hstep
  refine ⟨hsound, ?_⟩
  rw [stack_updateStep hlists, h.stack_eq]

/-- While puts find free nodes a run returns a table with its stacks. -/
theorem Table.Holds.run {st : Stacks} (h : hash.Holds bucketOf st)
    {ops : List Update}
    (hfree : AllSteps (updateStep bucketOf) HasFreeNode hash ops) :
    ∃ hash', runOps (updateStep bucketOf) hash ops = some hash' ∧
      hash'.Holds bucketOf (ops.foldl Stacks.update st) := by
  induction ops generalizing hash st with
  | nil => exact ⟨hash, rfl, h⟩
  | cons op ops ih =>
      obtain ⟨hash₁, hstep⟩ := updateStep_returns h.sound hfree.1
      obtain ⟨hash', hrun, hholds⟩ := ih (h.step hstep) (hfree.2 hash₁ hstep)
      refine ⟨hash', ?_, hholds⟩
      rw [runOps, hstep, Option.bind_some, hrun]

theorem mixHashInit_holds (bucketOf : ℕ → ℕ → ℕ) (perBlock size : ℕ) :
    (mixHashInit perBlock size).Holds bucketOf fun _ => [] where
  sound := mixHashInit_sound perBlock size
  stack_eq := by
    rw [mixHashInit_toMixHash]
    rfl

theorem Table.Holds.get {st : Stacks} (h : hash.Holds bucketOf st)
    (key : ℕ) : mixHashGet bucketOf hash key = some (firstInt (st key)) := by
  rw [← h.stack_eq, mixHashGet, mixHashGetAt_eq h.sound]
  exact congrArg some (mixHashGetAt_eq_firstInt hash.toMixHash key)

theorem Stacks.small_foldl {st : Stacks} (h : st.Small) {ops : List Update}
    (hops : ∀ op ∈ ops, op.Small) : (ops.foldl Stacks.update st).Small := by
  induction ops generalizing st with
  | nil => exact h
  | cons op ops ih =>
      exact ih (h.update (hops op List.mem_cons_self))
        fun op' hop' => hops op' (List.mem_cons_of_mem op hop')

/-- After every run of puts and deletes on a fresh table whose puts find free
nodes, `mix_hash_get` reads the latest put of a key that no later delete has
undone; one more update changes it for its own key only. -/
theorem mixHashGet_stacks (bucketOf : ℕ → ℕ → ℕ) (perBlock size : ℕ)
    (ops : List Update) (hsmall : ∀ op ∈ ops, op.Small)
    (hfree : AllSteps (updateStep bucketOf) HasFreeNode
      (mixHashInit perBlock size) ops) :
    ∃ hash, runOps (updateStep bucketOf) (mixHashInit perBlock size) ops =
        some hash ∧
      (∀ key, mixHashGet bucketOf hash key =
        some ((Stacks.after ops).top key)) ∧
      ∀ op hash', updateStep bucketOf hash op = some hash' →
        ∀ key, key ≠ op.key →
          mixHashGet bucketOf hash' key = mixHashGet bucketOf hash key := by
  obtain ⟨hash, hrun, hholds⟩ :=
    (mixHashInit_holds bucketOf perBlock size).run hfree
  have hnil : Stacks.Small fun _ => [] := fun key v hv => by simp at hv
  have hstacks := Stacks.small_foldl hnil hsmall
  refine ⟨hash, hrun, fun key => ?_, ?_⟩
  · rw [hholds.get key, hstacks.firstInt_eq key]
    rfl
  · intro op hash' hstep key hkey
    rw [(hholds.step hstep).get key, hholds.get key,
      Stacks.update_of_ne _ op hkey]

/-- Two keys in one bucket, one of them put twice and deleted once. -/
theorem mixHashGet_stacks_example :
    ∃ hash, runOps (updateStep fun _ _ => 0) (mixHashInit 3 1)
        [.put 5 7, .put 6 9, .put 5 8, .delete 5] = some hash ∧
      (∀ key, mixHashGet (fun _ _ => 0) hash key = some ((Stacks.after
        [.put 5 7, .put 6 9, .put 5 8, .delete 5]).top key)) ∧
      ∀ op hash', updateStep (fun _ _ => 0) hash op = some hash' →
        ∀ key, key ≠ op.key → mixHashGet (fun _ _ => 0) hash' key =
          mixHashGet (fun _ _ => 0) hash key :=
  mixHashGet_stacks (fun _ _ => 0) 3 1
    [.put 5 7, .put 6 9, .put 5 8, .delete 5] (by decide) (by decide)

end Linked

end Uhs
