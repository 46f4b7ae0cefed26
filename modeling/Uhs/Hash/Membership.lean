import Uhs.Hash.Conservation

/-!
# Membership

Model of `mix_hash_has_key`, which walks a chain as `mix_hash_get` does.  Its
bucket is `(key, hash->hash_size)`, a comma expression: the bucket behind the
last one, whatever the key.
-/

namespace Uhs

open Support

/-- All values fit in a non-negative `int`. -/
def MixHash.SmallValues (hash : MixHash) : Prop :=
  ∀ i, ∀ kv ∈ (hash.hashNodes i).list, kv.2 < 2 ^ 31

variable {hash hash' : MixHash} {i key value : ℕ}

/-- Replacing a bucket by small values. -/
theorem MixHash.SmallValues.setNode (h : hash.SmallValues) {node : HashNode}
    (hnode : ∀ kv ∈ node.list, kv.2 < 2 ^ 31) :
    (hash.setNode i node).SmallValues := by
  intro j kv hkv
  by_cases hj : j = i
  · subst hj
    simp only [MixHash.setNode, Function.update_self] at hkv
    exact hnode kv hkv
  · simp only [MixHash.setNode, Function.update_of_ne hj] at hkv
    exact h j kv hkv

theorem MixHash.SmallValues.putAt (h : hash.SmallValues)
    (hvalue : value < 2 ^ 31)
    (hput : mixHashPutAt hash i key value = some hash') :
    hash'.SmallValues := by
  obtain ⟨-, rfl⟩ := mixHashPutAt_eq_some hput
  apply MixHash.SmallValues.setNode
  · exact h
  · intro kv hkv
    rcases List.mem_cons.mp hkv with rfl | hkv
    · exact hvalue
    · exact h i kv hkv

theorem MixHash.SmallValues.deleteAt (h : hash.SmallValues) (i key : ℕ) :
    (mixHashDeleteAt hash i key).SmallValues := by
  have hunlinked : (hash.setNode i ⟨(hash.hashNodes i).len - 1,
      eraseKey (hash.hashNodes i).list key⟩).SmallValues := by
    apply h.setNode
    intro kv hkv
    exact h i kv (List.mem_of_mem_eraseP hkv)
  rcases mixHashDeleteAt_cases hash i key with heq | heq
  · rw [heq]
    exact hunlinked
  · rw [heq]
    exact hunlinked

theorem MixHash.SmallValues.getEntryByIdx (h : hash.SmallValues) (i : ℕ) :
    (mixHashGetEntryByIdx hash i).2.SmallValues := by
  by_cases hpos : 0 < (hash.hashNodes i).len
  · rcases hlist : (hash.hashNodes i).list with - | ⟨kv, tail⟩
    · simp only [mixHashGetEntryByIdx, if_pos hpos, hlist]
      exact h
    · rw [mixHashGetEntryByIdx_cons hpos hlist]
      apply MixHash.SmallValues.setNode
      · exact h
      · intro e he
        apply h i e
        rw [hlist]
        exact List.mem_cons_of_mem kv he
  · rw [mixHashGetEntryByIdx_nil (not_lt.mp hpos)]
    exact h

/-- Among small values only a missing key reads `-1`. -/
theorem MixHash.SmallValues.getAt_eq_iff (h : hash.SmallValues) (i key : ℕ) :
    mixHashGetAt hash i key = -1 ↔
      ∀ kv ∈ (hash.hashNodes i).list, kv.1 ≠ key := by
  rw [← lookupKey_eq_none_iff, mixHashGetAt]
  cases hlook : lookupKey (hash.hashNodes i).list key with
  | none => simp
  | some value =>
      have hvalue : value < 2 ^ 31 := h i _ (mem_of_lookupKey hlook)
      simp only [toInt32_of_lt hvalue]
      constructor
      · intro hneg
        omega
      · intro hsome
        cases hsome

namespace Linked

/-- The bucket of `mix_hash_has_key`. -/
def hasKeyBucket (hash : Table) (_key : ℕ) : ℕ := hash.hashSize

/-- The walk of `mix_hash_has_key` along a bucket. -/
def mixHashHasKeyAt (hash : Table) (hashKey key : ℕ) : Option ℕ :=
  (hash.find hashKey key).map fun (_, cur) =>
    match cur with
    | none => 0
    | some _ => 1

/-- `mix_hash_has_key`; `hash_nodes` ends before bucket `hash_size`. -/
def mixHashHasKey (hash : Table) (key : ℕ) : Option ℕ :=
  let hashKey := hasKeyBucket hash key
  if hashKey < hash.hashSize then mixHashHasKeyAt hash hashKey key else none

/-- `mix_hash_has_key` stays inside the table and answers as `mix_hash_get`
does. -/
structure AgreesWithGet (bucketOf : ℕ → ℕ → ℕ) (hash : Table) (key : ℕ) :
    Prop where
  inside : hasKeyBucket hash key < hash.hashSize
  answer : ∃ found value, mixHashHasKey hash key = some found ∧
    mixHashGet bucketOf hash key = some value ∧ (found = 1 ↔ value ≠ -1)

/-- The puts of an operation have small values. -/
def HashOp.Small : HashOp → Prop
  | .update op => op.Small
  | .getEntryByIdx _ => True

instance : DecidablePred HashOp.Small
  | .update op => inferInstanceAs (Decidable op.Small)
  | .getEntryByIdx _ => inferInstanceAs (Decidable True)

variable {bucketOf : ℕ → ℕ → ℕ} {hash hash' : Table} {size : ℕ} {n : ℤ}

theorem smallValues_step (hsound : hash.Sound) (hlists : ∀ idx,
      (hash.toMixHash.hashNodes idx).len ≤
        (hash.toMixHash.hashNodes idx).list.length)
    (h : hash.toMixHash.SmallValues) {op : HashOp} (hop : op.Small)
    (hstep : hashStep bucketOf hash op = some hash') :
    hash'.toMixHash.SmallValues := by
  rcases op with (⟨key, value⟩ | key) | idx
  · obtain ⟨-, hput⟩ := updateStep_eq hsound
      (show updateStep bucketOf hash (.put key value) = some hash' from hstep)
    exact h.putAt hop hput
  · obtain ⟨-, hdelete⟩ := updateStep_eq hsound
      (show updateStep bucketOf hash (.delete key) = some hash' from hstep)
    rw [← Option.some.inj hdelete]
    exact h.deleteAt _ key
  · simp only [hashStep] at hstep
    split at hstep
    · obtain ⟨kv, popped, hpop, -, heq⟩ :=
        mixHashGetEntryByIdx_eq hsound (hlists idx)
      rw [hpop, Option.map_some, Option.some.injEq] at hstep
      subst hstep
      have hpopped := h.getEntryByIdx idx
      rw [heq] at hpopped
      exact hpopped
    · cases hstep

/-- From any bucket the walk finds a key exactly when the walk of
`mix_hash_get` does. -/
theorem mixHashHasKeyAt_iff (hsound : hash.Sound)
    (hsmall : hash.toMixHash.SmallValues) (i key : ℕ) :
    ∃ found value, mixHashHasKeyAt hash i key = some found ∧
      mixHashGetAt hash i key = some value ∧ (found = 1 ↔ value ≠ -1) := by
  have hlist : (hash.toMixHash.hashNodes i).list =
      (hash.cells (some i)).map hash.pair := rfl
  have hmiss := hsmall.getAt_eq_iff i key
  rw [hlist, List.forall_mem_map] at hmiss
  rcases hsound.find_cases i key with ⟨hnone, last, hfind⟩ |
    ⟨pre, cur, post, hl, -, hcur, hfind⟩
  · refine ⟨0, _, by rw [mixHashHasKeyAt, hfind]; rfl,
      mixHashGetAt_eq hsound i key, ?_⟩
    rw [hmiss.mpr hnone]
    decide
  · refine ⟨1, _, by rw [mixHashHasKeyAt, hfind]; rfl,
      mixHashGetAt_eq hsound i key, ?_⟩
    have hfound : ¬ ∀ node ∈ hash.cells (some i), (hash.pair node).1 ≠ key := by
      intro hnone
      apply hnone cur _ hcur
      rw [hl]
      exact List.mem_append_right pre List.mem_cons_self
    exact iff_of_true rfl (hmiss.not.mpr hfound)

/-- In every table that puts of small values, deletes and popped buckets
reach, `mix_hash_has_key` looks outside the table for every key; from the
bucket of the key its walk would agree with `mix_hash_get`. -/
theorem mixHashHasKey_never_agrees (bucketOf : ℕ → ℕ → ℕ)
    (perBlock size : ℕ) (hbucket : ∀ key, bucketOf key size < size)
    (ops : List HashOp) (hops : ∀ op ∈ ops, op.Small) (hash : Table)
    (hrun : runOps (hashStep bucketOf) (mixHashInit perBlock size) ops =
      some hash) (key : ℕ) :
    ¬ AgreesWithGet bucketOf hash key ∧ mixHashHasKey hash key = none ∧
      ∃ found value,
        mixHashHasKeyAt hash (bucketOf key hash.hashSize) key = some found ∧
        mixHashGet bucketOf hash key = some value ∧
        (found = 1 ↔ value ≠ -1) := by
  have hstart : (mixHashInit perBlock size).toMixHash.SmallValues := by
    rw [mixHashInit_toMixHash]
    intro i kv hkv
    simp [Uhs.mixHashInit] at hkv
  obtain ⟨⟨n, hcounted⟩, hsmall⟩ := inv_of_runOps
    (I := fun hash : Table => (∃ n, hash.Counted size n) ∧
      hash.toMixHash.SmallValues)
    (R := HashOp.Small)
    (fun hash op hash' h hop hstep => by
      obtain ⟨⟨n, hcounted⟩, hsmall⟩ := h
      exact ⟨⟨_, hcounted.step hbucket hstep⟩,
        smallValues_step hcounted.sound hcounted.lists.len_le hsmall hop
          hstep⟩)
    ⟨⟨_, mixHashInit_counted perBlock size⟩, hstart⟩ hops hrun
  have houtside : ¬ hasKeyBucket hash key < hash.hashSize := lt_irrefl _
  exact ⟨fun h => houtside h.inside, if_neg houtside,
    mixHashHasKeyAt_iff hcounted.sound hsmall _ key⟩

/-- A table of four buckets with one pair. -/
def onePairTable : Table :=
  (runOps (hashStep mixHashHash) (mixHashInit 2 4)
    [.update (.put 5 7)]).get (by decide +kernel)

theorem mixHashHasKey_never_agrees_onePair :
    ¬ AgreesWithGet mixHashHash onePairTable 5 ∧
      mixHashHasKey onePairTable 5 = none ∧
      ∃ found value,
        mixHashHasKeyAt onePairTable
          (mixHashHash 5 onePairTable.hashSize) 5 = some found ∧
        mixHashGet mixHashHash onePairTable 5 = some value ∧
        (found = 1 ↔ value ≠ -1) :=
  mixHashHasKey_never_agrees mixHashHash 2 4
    (fun key => mixHashHash_lt key (by decide)) [.update (.put 5 7)]
    (by decide) onePairTable (Option.some_get _).symm 5

/-- Key `5` is found by `mix_hash_get` and not looked for by
`mix_hash_has_key`. -/
theorem onePairTable_not_agrees :
    runOps (hashStep mixHashHash) (mixHashInit 2 4) [.update (.put 5 7)] =
        some onePairTable ∧
      mixHashGet mixHashHash onePairTable 5 = some 7 ∧
      ¬ AgreesWithGet mixHashHash onePairTable 5 :=
  ⟨(Option.some_get _).symm, by decide +kernel,
    fun h => absurd h.inside (by decide +kernel)⟩

end Linked

end Uhs
