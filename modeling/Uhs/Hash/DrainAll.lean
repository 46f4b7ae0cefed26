import Uhs.Hash.Updates

/-!
# Draining a table

`mix_hash_get_entry_by_idx` pops the pairs of a bucket while its length is
positive and then reports the pair `(-1, -1)`.  Calling it on every bucket up
to that report returns all pairs exactly when every length is right, which a
delete of an absent key spoils, and no pair looks like the report.
-/

namespace Uhs

open Support

/-- `(-1, -1)`. -/
def sentinelKv : MixKv := (uint32Max, uint32Max)

/-- The pairs that were put and not deleted again, latest first. -/
def liveUpdate (live : List MixKv) : Update → List MixKv
  | .put key value => (key, value) :: live
  | .delete key => eraseKey live key

/-- The live pairs after a list of updates. -/
def livePairs (ops : List Update) : List MixKv := ops.foldl liveUpdate []

theorem valuesOf_liveUpdate (live : List MixKv) (op : Update) :
    valuesOf (liveUpdate live op) =
      Stacks.update (fun key => valuesOf live key) op := by
  funext key
  by_cases hkey : key = op.key
  · subst hkey
    cases op with
    | put key value =>
        simp only [Stacks.update, Update.key, Function.update_self]
        exact valuesOf_cons_self live key value
    | delete key =>
        simp only [Stacks.update, Update.key, Function.update_self]
        exact valuesOf_eraseKey_self live key
  · rw [Stacks.update_of_ne _ op hkey]
    cases op with
    | put key' value => exact valuesOf_cons_of_ne live (Ne.symm hkey)
    | delete key' => exact valuesOf_eraseKey_of_ne live hkey

/-! ## Lists of nodes and lengths -/

variable {bucketOf : ℕ → ℕ → ℕ} {hash hash' : MixHash} {size : ℕ}
  {live : List MixKv}

/-- Every length is the length of its list. -/
def MixHash.LensRight (hash : MixHash) : Prop :=
  ∀ i < hash.hashSize, (hash.hashNodes i).len = (hash.hashNodes i).list.length

/-- The key of a delete is in its bucket. -/
def MixHash.FindsKey (bucketOf : ℕ → ℕ → ℕ) (hash : MixHash) : Update → Prop
  | .put _ _ => True
  | .delete key =>
      key ∈ (hash.hashNodes (bucketOf key hash.hashSize)).list.map Prod.fst

/-- Pairs sit in the buckets of their keys, no length exceeds its list, and
under every key stand its live values. -/
structure MixHash.Stores (bucketOf : ℕ → ℕ → ℕ) (size : ℕ)
    (live : List MixKv) (hash : MixHash) : Prop where
  hashSize_eq : hash.hashSize = size
  len_le : ∀ i, (hash.hashNodes i).len ≤ (hash.hashNodes i).list.length
  placed : Placed (fun key => bucketOf key size) size hash.buckets
  stack_eq : hash.stack bucketOf = valuesOf live

/-- The entries are the live pairs. -/
theorem MixHash.Stores.entries_perm (h : hash.Stores bucketOf size live)
    (hbucket : ∀ key, bucketOf key size < size) : hash.entries.Perm live := by
  rw [List.perm_iff_count]
  intro e
  have hstack := congrFun h.stack_eq e.1
  have hsize := h.hashSize_eq
  rw [MixHash.stack, hsize] at hstack
  rw [MixHash.entries, hsize, h.placed.count_entries (hbucket e.1),
    ← count_valuesOf, ← count_valuesOf]
  exact congrArg (List.count e.2) hstack

/-- What an update makes of the bucket of its key. -/
def Update.node (node : HashNode) : Update → HashNode
  | .put key value => ⟨node.len + 1, (key, value) :: node.list⟩
  | .delete key => ⟨node.len - 1, eraseKey node.list key⟩

theorem hashNodes_updateStep {op : Update}
    (hstep : hash.updateStep bucketOf op = some hash') :
    hash'.hashSize = hash.hashSize ∧
      hash'.hashNodes = Function.update hash.hashNodes
        (bucketOf op.key hash.hashSize)
        (op.node (hash.hashNodes (bucketOf op.key hash.hashSize))) := by
  cases op with
  | put key value =>
      obtain ⟨-, rfl⟩ := mixHashPutAt_eq_some hstep
      exact ⟨rfl, rfl⟩
  | delete key =>
      have heq := Option.some.inj hstep
      subst heq
      rcases mixHashDeleteAt_cases hash (bucketOf key hash.hashSize) key with
        hcase | hcase
      · rw [hcase]
        exact ⟨rfl, rfl⟩
      · rw [hcase]
        exact ⟨rfl, rfl⟩

theorem Update.length_node_le {node : HashNode}
    (h : node.len ≤ node.list.length) (op : Update) :
    (op.node node).len ≤ (op.node node).list.length := by
  cases op with
  | put key value =>
      simp only [Update.node, List.length_cons]
      push_cast
      omega
  | delete key =>
      simp only [Update.node, eraseKey, List.length_eraseP]
      split
      · omega
      · omega

/-- An update keeps a right length right exactly if a delete finds its key. -/
theorem Update.length_node_iff {node : HashNode}
    (h : node.len ≤ node.list.length) (op : Update) :
    (op.node node).len = (op.node node).list.length ↔
      node.len = node.list.length ∧ ∀ key, op = .delete key →
        key ∈ node.list.map Prod.fst := by
  cases op with
  | put key value =>
      simp only [Update.node, List.length_cons]
      push_cast
      constructor
      · intro heq
        exact ⟨by omega, fun key' h' => by cases h'⟩
      · intro heq
        omega
  | delete key =>
      have hany : (node.list.any fun e => e.1 == key) = true ↔
          key ∈ node.list.map Prod.fst := by
        simp
      simp only [Update.node, eraseKey, List.length_eraseP]
      by_cases hkey : key ∈ node.list.map Prod.fst
      · rw [if_pos (hany.mpr hkey)]
        have hpos : 0 < node.list.length := by
          rw [← List.length_map Prod.fst]
          exact List.length_pos_of_mem hkey
        constructor
        · intro heq
          refine ⟨by omega, fun key' h' => ?_⟩
          cases h'
          exact hkey
        · intro heq
          omega
      · rw [if_neg (mt hany.mp hkey)]
        constructor
        · intro heq
          omega
        · intro heq
          exact absurd (heq.2 key rfl) hkey

theorem Update.mem_node {node : HashNode} {op : Update} {kv : MixKv}
    (h : kv ∈ (op.node node).list) : kv.1 = op.key ∨ kv ∈ node.list := by
  cases op with
  | put key value =>
      rcases List.mem_cons.mp h with rfl | hmem
      · exact Or.inl rfl
      · exact Or.inr hmem
  | delete key => exact Or.inr (List.eraseP_sublist.subset h)

theorem MixHash.FindsKey.iff_forall {op : Update} :
    hash.FindsKey bucketOf op ↔ ∀ key, op = .delete key →
      key ∈ (hash.hashNodes (bucketOf op.key hash.hashSize)).list.map
        Prod.fst := by
  cases op with
  | put key value => simp [MixHash.FindsKey]
  | delete key => simp [MixHash.FindsKey, Update.key]

/-- Replacing one bucket leaves the lengths right exactly if the new one is
and the others were. -/
theorem lensRight_update {i : ℕ} {node : HashNode} (hi : i < hash.hashSize)
    (hsize : hash'.hashSize = hash.hashSize)
    (hnodes : hash'.hashNodes = Function.update hash.hashNodes i node) :
    hash'.LensRight ↔ node.len = node.list.length ∧
      ∀ j < hash.hashSize, j ≠ i →
        (hash.hashNodes j).len = (hash.hashNodes j).list.length := by
  rw [MixHash.LensRight, hsize, hnodes]
  constructor
  · intro h
    refine ⟨by simpa using h i hi, fun j hj hji => ?_⟩
    simpa [hji] using h j hj
  · rintro ⟨hnode, hothers⟩ j hj
    by_cases hji : j = i
    · subst hji
      simpa using hnode
    · simpa [hji] using hothers j hj hji

theorem MixHash.Stores.step (h : hash.Stores bucketOf size live)
    (hbucket : ∀ key, bucketOf key size < size) {op : Update}
    (hstep : hash.updateStep bucketOf op = some hash') :
    hash'.Stores bucketOf size (liveUpdate live op) ∧
      (hash'.LensRight ↔ hash.LensRight ∧ hash.FindsKey bucketOf op) := by
  obtain ⟨hsize, hnodes⟩ := hashNodes_updateStep hstep
  have hb : bucketOf op.key hash.hashSize < hash.hashSize := by
    rw [h.hashSize_eq]
    exact hbucket op.key
  have hlen := h.len_le (bucketOf op.key hash.hashSize)
  refine ⟨⟨hsize.trans h.hashSize_eq, ?_, ?_, ?_⟩, ?_⟩
  · intro i
    rw [hnodes]
    by_cases hi : i = bucketOf op.key hash.hashSize
    · subst hi
      rw [Function.update_self]
      exact op.length_node_le hlen
    · rw [Function.update_of_ne hi]
      exact h.len_le i
  · have hbuckets : hash'.buckets = Function.update hash.buckets
        (bucketOf op.key hash.hashSize)
        (op.node (hash.hashNodes (bucketOf op.key hash.hashSize))).list := by
      funext i
      by_cases hi : i = bucketOf op.key hash.hashSize
      · subst hi
        simp [MixHash.buckets, hnodes]
      · simp [MixHash.buckets, hnodes, hi]
    rw [hbuckets]
    refine h.placed.update fun kv hkv => ?_
    rw [h.hashSize_eq] at hkv ⊢
    rcases Update.mem_node hkv with hkey | hmem
    · exact congrArg (bucketOf · size) hkey
    · exact h.placed _ (hbucket op.key) kv hmem
  · rw [stack_updateStep hstep, h.stack_eq, valuesOf_liveUpdate]
  · have hkeep : hash'.hashNodes = Function.update hash.hashNodes
        (bucketOf op.key hash.hashSize)
        (op.node (hash.hashNodes (bucketOf op.key hash.hashSize))) := hnodes
    have hself : hash.hashNodes = Function.update hash.hashNodes
        (bucketOf op.key hash.hashSize)
        (hash.hashNodes (bucketOf op.key hash.hashSize)) :=
      (Function.update_eq_self _ _).symm
    rw [lensRight_update hb hsize hkeep, lensRight_update hb rfl hself,
      op.length_node_iff hlen, MixHash.FindsKey.iff_forall]
    tauto

namespace Linked

/-! ## The drain -/

/-- Pop a bucket until the report `(-1, -1)`. -/
def drainBucket (idx : ℕ) : ℕ → Table → Option (List MixKv × Table)
  | 0, _ => none
  | fuel + 1, hash =>
      (mixHashGetEntryByIdx hash idx).bind fun (kv, hash) =>
        if kv = sentinelKv then some ([], hash)
        else (drainBucket idx fuel hash).map fun (kvs, hash) =>
          (kv :: kvs, hash)

/-- Drain the first `n` buckets.  A bucket is popped at most once for every
node and once more. -/
def drainBuckets : ℕ → Table → Option (List MixKv × Table)
  | 0, hash => some ([], hash)
  | n + 1, hash =>
      (drainBuckets n hash).bind fun (kvs, hash) =>
        (drainBucket n (hash.nodeNum + 1) hash).map fun (kvs', hash) =>
          (kvs ++ kvs', hash)

variable {hash hash' : Table} {i : ℕ}

theorem notMem_drainBucket {fuel : ℕ} {kvs : List MixKv}
    (h : drainBucket i fuel hash = some (kvs, hash')) : sentinelKv ∉ kvs := by
  induction fuel generalizing hash kvs with
  | zero => cases h
  | succ fuel ih =>
      rw [drainBucket, Option.bind_eq_some_iff] at h
      obtain ⟨⟨kv, popped⟩, -, h⟩ := h
      dsimp only at h
      split at h
      · simp only [Option.some.injEq, Prod.mk.injEq] at h
        simp [← h.1]
      · rename_i hkv
        rw [Option.map_eq_some_iff] at h
        obtain ⟨⟨rest, drained⟩, hrest, heq⟩ := h
        simp only [Prod.mk.injEq] at heq
        obtain ⟨rfl, rfl⟩ := heq
        intro hmem
        rcases List.mem_cons.mp hmem with hsame | hmem
        · exact hkv hsame.symm
        · exact ih hrest hmem

/-- A drain never yields the pair that ends it. -/
theorem notMem_drainBuckets {n : ℕ} {kvs : List MixKv}
    (h : drainBuckets n hash = some (kvs, hash')) : sentinelKv ∉ kvs := by
  induction n generalizing hash' kvs with
  | zero =>
      simp only [drainBuckets, Option.some.injEq, Prod.mk.injEq] at h
      simp [← h.1]
  | succ n ih =>
      rw [drainBuckets, Option.bind_eq_some_iff] at h
      obtain ⟨⟨first, drained⟩, hfirst, h⟩ := h
      rw [Option.map_eq_some_iff] at h
      obtain ⟨⟨second, drained'⟩, hsecond, heq⟩ := h
      simp only [Prod.mk.injEq] at heq
      obtain ⟨rfl, rfl⟩ := heq
      rw [List.mem_append]
      rintro (hmem | hmem)
      · exact ih hfirst hmem
      · exact notMem_drainBucket hsecond hmem

/-- The bucket is empty and the others are as before. -/
structure EmptiesBucket (i : ℕ) (hash hash' : Table) : Prop where
  sound : hash'.Sound
  list_eq : (hash'.toMixHash.hashNodes i).list = []
  others : ∀ j, j ≠ i →
    hash'.toMixHash.hashNodes j = hash.toMixHash.hashNodes j

/-- A bucket with the right length and without a pair that looks like the
report is drained in order. -/
theorem drainBucket_eq (h : hash.Sound) {l : List MixKv} {fuel : ℕ}
    (hlist : (hash.toMixHash.hashNodes i).list = l)
    (hlen : (hash.toMixHash.hashNodes i).len = l.length)
    (hl : sentinelKv ∉ l) (hfuel : l.length < fuel) :
    ∃ hash', drainBucket i fuel hash = some (l, hash') ∧
      EmptiesBucket i hash hash' := by
  induction l generalizing hash fuel with
  | nil =>
      obtain ⟨fuel, rfl⟩ := Nat.exists_eq_succ_of_ne_zero (Nat.ne_of_gt hfuel)
      have hzero : ¬ 0 < (hash.hashNodes i).len := by
        change ¬ 0 < (hash.toMixHash.hashNodes i).len
        simp [hlen]
      refine ⟨hash, ?_, h, hlist, fun j _ => rfl⟩
      rw [drainBucket, mixHashGetEntryByIdx]
      simp [hzero, sentinelKv]
  | cons kv l ih =>
      obtain ⟨fuel, rfl⟩ := Nat.exists_eq_succ_of_ne_zero
        (Nat.ne_of_gt (Nat.zero_lt_of_lt hfuel))
      obtain ⟨popped, hash₁, hpop, hsound, heq⟩ := mixHashGetEntryByIdx_eq h
        (i := i) (by rw [hlen, hlist])
      rw [Uhs.mixHashGetEntryByIdx_cons
        (by rw [hlen, List.length_cons]; push_cast; omega) hlist,
        Prod.mk.injEq] at heq
      obtain ⟨rfl, heq⟩ := heq
      have hself : hash₁.toMixHash.hashNodes i =
          ⟨(hash.toMixHash.hashNodes i).len - 1, l⟩ := by
        rw [← heq]
        exact Function.update_self i _ _
      have hothers : ∀ j, j ≠ i →
          hash₁.toMixHash.hashNodes j = hash.toMixHash.hashNodes j := by
        intro j hj
        rw [← heq]
        exact Function.update_of_ne hj _ _
      rw [List.mem_cons, not_or] at hl
      have hlen₁ : (hash₁.toMixHash.hashNodes i).len = l.length := by
        rw [hself, hlen, List.length_cons]
        push_cast
        omega
      obtain ⟨hash', hdrain, hempty⟩ := ih hsound (by rw [hself]) hlen₁ hl.2
        (Nat.lt_of_succ_lt_succ hfuel)
      refine ⟨hash', ?_, hempty.sound, hempty.list_eq, fun j hj => ?_⟩
      · rw [drainBucket, hpop, Option.bind_some]
        simp only [if_neg (Ne.symm hl.1), hdrain, Option.map_some]
      · rw [hempty.others j hj, hothers j hj]

/-- The first buckets are empty and the others are as before. -/
structure EmptiesBuckets (n : ℕ) (hash hash' : Table) : Prop where
  sound : hash'.Sound
  list_eq : ∀ j < n, (hash'.toMixHash.hashNodes j).list = []
  others : ∀ j, n ≤ j →
    hash'.toMixHash.hashNodes j = hash.toMixHash.hashNodes j

theorem drainBuckets_eq (h : hash.Sound) {n : ℕ} (hn : n ≤ hash.hashSize)
    (hlens : hash.toMixHash.LensRight)
    (hl : sentinelKv ∉ hash.toMixHash.entries) :
    ∃ hash', drainBuckets n hash =
        some (entries n hash.toMixHash.buckets, hash') ∧
      EmptiesBuckets n hash hash' := by
  induction n with
  | zero =>
      refine ⟨hash, rfl, h, ?_, fun j _ => rfl⟩
      intro j hj
      exact absurd hj (Nat.not_lt_zero j)
  | succ n ih =>
      obtain ⟨hash₁, hfirst, hempty⟩ := ih (by omega)
      have hsame := hempty.others n (le_refl n)
      have hright : (hash.toMixHash.hashNodes n).len =
          (hash.toMixHash.hashNodes n).list.length := hlens n (by exact hn)
      have hnone : sentinelKv ∉ (hash.toMixHash.hashNodes n).list := by
        intro hmem
        exact hl (mem_entries.mpr ⟨n, hn, hmem⟩)
      have hlength : (hash₁.toMixHash.hashNodes n).list.length ≤
          hash₁.nodeNum := by
        have hle := hempty.sound.length_le (some n)
        change ((hash₁.cells (some n)).map hash₁.pair).length ≤ hash₁.nodeNum
        rwa [List.length_map]
      rw [hsame] at hlength
      obtain ⟨hash', hdrain, hlast⟩ := drainBucket_eq hempty.sound
        (congrArg Uhs.HashNode.list hsame) (by rw [hsame, hright]) hnone
        (Nat.lt_succ_of_le hlength)
      refine ⟨hash', ?_, hlast.sound, ?_, ?_⟩
      · rw [drainBuckets, hfirst, Option.bind_some]
        simp only [hdrain, Option.map_some]
        rw [entries, entries, List.range_succ, List.flatMap_append,
          List.flatMap_singleton]
        rfl
      · intro j hj
        by_cases hjn : j = n
        · subst hjn
          exact hlast.list_eq
        · rw [hlast.others j hjn]
          exact hempty.list_eq j (by omega)
      · intro j hj
        rw [hlast.others j (by omega)]
        exact hempty.others j (by omega)

/-! ## Runs -/

/-- The key of a delete is linked in its bucket. -/
def FindsKey (bucketOf : ℕ → ℕ → ℕ) (hash : Table) : Update → Prop
  | .put _ _ => True
  | .delete key =>
      key ∈ (hash.cells (some (bucketOf key hash.hashSize))).map
        fun node => (hash.nodes node).key

instance (bucketOf : ℕ → ℕ → ℕ) (hash : Table) :
    DecidablePred (FindsKey bucketOf hash)
  | .put _ _ => inferInstanceAs (Decidable True)
  | .delete key => inferInstanceAs (Decidable
      (key ∈ (hash.cells (some (bucketOf key hash.hashSize))).map
        fun node => (hash.nodes node).key))

theorem findsKey_iff (hash : Table) (op : Update) :
    FindsKey bucketOf hash op ↔ hash.toMixHash.FindsKey bucketOf op := by
  cases op with
  | put key value => exact Iff.rfl
  | delete key =>
      change _ ↔ key ∈ ((hash.cells (some (bucketOf key hash.hashSize))).map
        hash.pair).map Prod.fst
      rw [List.map_map]
      exact Iff.rfl

/-- Every length is right, and draining all buckets returns the live pairs,
each once, and leaves all lists empty. -/
structure DrainsLive (live : List MixKv) (hash : Table) : Prop where
  len_eq : ∀ i < hash.hashSize,
    (hash.hashNodes i).len = (hash.cells (some i)).length
  drains : ∃ kvs hash', drainBuckets hash.hashSize hash = some (kvs, hash') ∧
    kvs.Perm live ∧ ∀ i < hash.hashSize, (hash'.hashNodes i).list = none

/-- A table whose lists end and which stores the live pairs. -/
structure Table.Stores (bucketOf : ℕ → ℕ → ℕ) (size : ℕ) (live : List MixKv)
    (hash : Table) : Prop where
  sound : hash.Sound
  lists : hash.toMixHash.Stores bucketOf size live

theorem mixHashInit_stores (bucketOf : ℕ → ℕ → ℕ) (perBlock size : ℕ) :
    (mixHashInit perBlock size).Stores bucketOf size [] ∧
      (mixHashInit perBlock size).toMixHash.LensRight := by
  have hlists := mixHashInit_toMixHash perBlock size
  refine ⟨⟨mixHashInit_sound perBlock size, ?_⟩, ?_⟩
  · rw [hlists]
    exact ⟨rfl, fun i => le_refl _, fun i _ kv hkv => by
      simp [MixHash.buckets, Uhs.mixHashInit] at hkv, rfl⟩
  · rw [hlists]
    exact fun i _ => rfl

/-- Along a run the lengths stay right exactly if every delete finds its
key. -/
theorem Table.Stores.run (h : hash.Stores bucketOf size live)
    (hbucket : ∀ key, bucketOf key size < size) {ops : List Update}
    (hfree : AllSteps (updateStep bucketOf) HasFreeNode hash ops) :
    ∃ hash', runOps (updateStep bucketOf) hash ops = some hash' ∧
      hash'.Stores bucketOf size (ops.foldl liveUpdate live) ∧
      (hash'.toMixHash.LensRight ↔ hash.toMixHash.LensRight ∧
        AllSteps (updateStep bucketOf) (FindsKey bucketOf) hash ops) := by
  induction ops generalizing hash live with
  | nil => exact ⟨hash, rfl, h, by simp [AllSteps]⟩
  | cons op ops ih =>
      obtain ⟨hash₁, hstep⟩ := updateStep_returns h.sound hfree.1
      obtain ⟨hsound, hlists⟩ := updateStep_eq h.sound hstep
      obtain ⟨hstores, hlens⟩ := h.lists.step hbucket hlists
      obtain ⟨hash', hrun, hstores', hlens'⟩ :=
        ih ⟨hsound, hstores⟩ (hfree.2 hash₁ hstep)
      refine ⟨hash', by rw [runOps, hstep, Option.bind_some, hrun], hstores', ?_⟩
      have hsteps : AllSteps (updateStep bucketOf) (FindsKey bucketOf) hash
          (op :: ops) ↔ FindsKey bucketOf hash op ∧
            AllSteps (updateStep bucketOf) (FindsKey bucketOf) hash₁ ops := by
        simp [AllSteps, hstep]
      rw [hlens', hlens, hsteps, findsKey_iff]
      tauto

theorem lensRight_iff (hash : Table) :
    hash.toMixHash.LensRight ↔ ∀ i < hash.hashSize,
      (hash.hashNodes i).len = (hash.cells (some i)).length := by
  have hlength : ∀ i, (hash.toMixHash.hashNodes i).list.length =
      (hash.cells (some i)).length := fun i => List.length_map _
  simp only [MixHash.LensRight, hlength]
  exact Iff.rfl

/-- A table is drained of its live pairs exactly if its lengths are right and
none of the pairs looks like the report. -/
theorem Table.Stores.drains_iff (h : hash.Stores bucketOf size live)
    (hbucket : ∀ key, bucketOf key size < size) :
    DrainsLive live hash ↔
      hash.toMixHash.LensRight ∧ sentinelKv ∉ live := by
  have hperm := h.lists.entries_perm hbucket
  constructor
  · rintro ⟨hlens, kvs, drained, hdrain, hkvs, -⟩
    refine ⟨(lensRight_iff hash).mpr hlens, fun hmem => ?_⟩
    exact notMem_drainBuckets hdrain (hkvs.mem_iff.mpr hmem)
  · rintro ⟨hlens, hlive⟩
    obtain ⟨drained, hdrain, hempty⟩ := drainBuckets_eq h.sound
      (le_refl hash.hashSize) hlens (mt hperm.mem_iff.mp hlive)
    refine ⟨(lensRight_iff hash).mp hlens, _, drained, hdrain, hperm, ?_⟩
    intro i hi
    have hnil : (drained.cells (some i)).map drained.pair = [] :=
      hempty.list_eq i hi
    have hchain := hempty.sound.chains.chain (some i)
    rw [List.map_eq_nil_iff.mp hnil] at hchain
    exact hchain

/-- After every run of puts and deletes on a fresh table whose puts find free
nodes, the drain of all buckets is right exactly if every delete found its key
and no live pair looks like the report. -/
theorem drainsLive_iff (bucketOf : ℕ → ℕ → ℕ) (perBlock size : ℕ)
    (hbucket : ∀ key, bucketOf key size < size) (ops : List Update)
    (hfree : AllSteps (updateStep bucketOf) HasFreeNode
      (mixHashInit perBlock size) ops) :
    ∃ hash, runOps (updateStep bucketOf) (mixHashInit perBlock size) ops =
        some hash ∧
      (DrainsLive (livePairs ops) hash ↔
        AllSteps (updateStep bucketOf) (FindsKey bucketOf)
          (mixHashInit perBlock size) ops ∧ sentinelKv ∉ livePairs ops) := by
  obtain ⟨hstores, hlens⟩ := mixHashInit_stores bucketOf perBlock size
  obtain ⟨hash, hrun, hend, hiff⟩ := hstores.run hbucket hfree
  refine ⟨hash, hrun, (hend.drains_iff hbucket).trans ?_⟩
  rw [hiff]
  constructor
  · rintro ⟨⟨-, hfinds⟩, hlive⟩
    exact ⟨hfinds, hlive⟩
  · rintro ⟨hfinds, hlive⟩
    exact ⟨⟨hlens, hfinds⟩, hlive⟩

/-- Two puts and a delete in one bucket. -/
theorem drainsLive_iff_example :
    ∃ hash, runOps (updateStep mixHashHash) (mixHashInit 3 1)
        [.put 5 7, .put 6 9, .delete 5] = some hash ∧
      (DrainsLive (livePairs [.put 5 7, .put 6 9, .delete 5]) hash ↔
        AllSteps (updateStep mixHashHash) (FindsKey mixHashHash)
          (mixHashInit 3 1) [.put 5 7, .put 6 9, .delete 5] ∧
        sentinelKv ∉ livePairs [.put 5 7, .put 6 9, .delete 5]) :=
  drainsLive_iff mixHashHash 3 1 (fun key => mixHashHash_lt key Nat.one_pos)
    [.put 5 7, .put 6 9, .delete 5] (by decide +kernel)

/-- The delete of a key that was never put makes the length of the bucket
zero, and the drain leaves the pair in it. -/
theorem drainsLive_fails :
    ∃ hash, runOps (updateStep mixHashHash) (mixHashInit 2 1)
        [.put 5 7, .delete 6] = some hash ∧
      ¬ DrainsLive (livePairs [.put 5 7, .delete 6]) hash := by
  have hrun : (runOps (updateStep mixHashHash) (mixHashInit 2 1)
      [.put 5 7, .delete 6]).map (fun hash => (hash.hashSize,
        (hash.hashNodes 0).len, (hash.cells (some 0)).length)) =
      some (1, 0, 1) := by decide +kernel
  obtain ⟨hash, hrun, hvalues⟩ := Option.map_eq_some_iff.mp hrun
  simp only [Prod.mk.injEq] at hvalues
  obtain ⟨hsize, hlen, hlength⟩ := hvalues
  refine ⟨hash, hrun, fun hdrains => ?_⟩
  have hright := hdrains.len_eq 0 (by omega)
  rw [hlen, hlength] at hright
  exact absurd hright (by decide)

end Linked

end Uhs
