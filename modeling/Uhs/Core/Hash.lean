import Uhs.Core.HashFunction
import Uhs.Support.Buckets

/-!
# The hash index

Model of `mix_hash.c`.  A bucket is its linked list, head first, together with
the separately kept `len`; nodes on the free list carry no information, so the
list is represented by its length.  `abort()` is `none`.

The operations are first given on the bucket a key was hashed to.
-/

namespace Uhs

open Support

/-- `mix_kv_t`: key and value. -/
abbrev MixKv := ℕ × ℕ

/-- `(uint32_t)-1`. -/
def uint32Max : ℕ := 2 ^ 32 - 1

/-- `hash_node_t`; its `threshold` is never read. -/
structure HashNode where
  len : ℤ
  list : List MixKv

/-- `mix_hash_t`, with the free list given by its length. -/
structure MixHash where
  hashSize : ℕ
  hashNodes : ℕ → HashNode
  freeNodeNum : ℤ
  freeNodes : ℕ

/-- `mix_hash_init`. -/
def mixHashInit (perBlock size : ℕ) : MixHash where
  hashSize := size
  hashNodes := fun _ => ⟨0, []⟩
  freeNodeNum := perBlock
  freeNodes := perBlock

/-- `mix_hash_node_get`: take a node off the free list, or abort. -/
def mixHashNodeGet (hash : MixHash) : Option MixHash :=
  if hash.freeNodes = 0 then none
  else some { hash with
    freeNodes := hash.freeNodes - 1
    freeNodeNum := hash.freeNodeNum - 1 }

/-- `mix_hash_node_free`. -/
def mixHashNodeFree (hash : MixHash) : MixHash :=
  { hash with
    freeNodes := hash.freeNodes + 1
    freeNodeNum := hash.freeNodeNum + 1 }

/-- Replace one bucket. -/
def MixHash.setNode (hash : MixHash) (hashKey : ℕ) (node : HashNode) : MixHash :=
  { hash with hashNodes := Function.update hash.hashNodes hashKey node }

/-! ## Operations on one bucket -/

def mixHashPutAt (hash : MixHash) (hashKey key value : ℕ) : Option MixHash :=
  (mixHashNodeGet hash).map fun hash =>
    let node := hash.hashNodes hashKey
    hash.setNode hashKey ⟨node.len + 1, (key, value) :: node.list⟩

def mixHashGetAt (hash : MixHash) (hashKey key : ℕ) : ℤ :=
  match lookupKey (hash.hashNodes hashKey).list key with
  | some value => toInt32 value
  | none => -1

def mixHashDeleteAt (hash : MixHash) (hashKey key : ℕ) : MixHash :=
  let node := hash.hashNodes hashKey
  -- `len` is lowered whether or not the key was found
  let unlinked := hash.setNode hashKey ⟨node.len - 1, eraseKey node.list key⟩
  match node.list with
  | [] => unlinked
  | head :: tail =>
      -- a head node is unlinked without being given back to the free list
      if head.1 = key then unlinked
      else if (lookupKey tail key).isSome then mixHashNodeFree unlinked
      else unlinked

/-- `mix_hash_put`. -/
def mixHashPut (hash : MixHash) (key value : ℕ) : Option MixHash :=
  mixHashPutAt hash (mixHashHash key hash.hashSize) key value

/-- `mix_hash_get`. -/
def mixHashGet (hash : MixHash) (key : ℕ) : ℤ :=
  mixHashGetAt hash (mixHashHash key hash.hashSize) key

/-- `mix_hash_delete`. -/
def mixHashDelete (hash : MixHash) (key : ℕ) : MixHash :=
  mixHashDeleteAt hash (mixHashHash key hash.hashSize) key

/-- `mix_hash_get_entry_by_idx`: pop the head of a bucket, or `(-1, -1)`. -/
def mixHashGetEntryByIdx (hash : MixHash) (idx : ℕ) : MixKv × MixHash :=
  let node := hash.hashNodes idx
  if 0 < node.len then
    match node.list with
    -- a null dereference in C; `len` never exceeds the length of the list
    | [] => ((uint32Max, uint32Max), hash)
    | kv :: tail =>
        (kv, (mixHashNodeFree hash).setNode idx ⟨node.len - 1, tail⟩)
  else ((uint32Max, uint32Max), hash)

/-! ## Entries and well-formedness -/

/-- The buckets without their lengths. -/
def MixHash.buckets (hash : MixHash) : ℕ → List MixKv :=
  fun i => (hash.hashNodes i).list

/-- All key-value pairs of the table. -/
def MixHash.entries (hash : MixHash) : List MixKv :=
  Support.entries hash.hashSize hash.buckets

/-- The keys of the table. -/
def MixHash.keys (hash : MixHash) : List ℕ := hash.entries.map Prod.fst

/-- The values of the table. -/
def MixHash.values (hash : MixHash) : List ℕ := hash.entries.map Prod.snd

/-- Lengths are right and every pair sits in the bucket of its key. -/
structure MixHash.Wf (hash : MixHash) : Prop where
  size_pos : 0 < hash.hashSize
  len_eq : ∀ i < hash.hashSize,
    (hash.hashNodes i).len = (hash.hashNodes i).list.length
  placed : Placed (fun k => mixHashHash k hash.hashSize) hash.hashSize
    hash.buckets

/-- Every pair sits in the bucket of its key; nothing is said of the
lengths. -/
structure MixHash.Keyed (hash : MixHash) : Prop where
  size_pos : 0 < hash.hashSize
  placed : Placed (fun k => mixHashHash k hash.hashSize) hash.hashSize
    hash.buckets

@[simp] theorem MixHash.setNode_hashSize (hash : MixHash) (i : ℕ)
    (node : HashNode) : (hash.setNode i node).hashSize = hash.hashSize := rfl

@[simp] theorem MixHash.setNode_freeNodes (hash : MixHash) (i : ℕ)
    (node : HashNode) : (hash.setNode i node).freeNodes = hash.freeNodes := rfl

theorem MixHash.setNode_buckets (hash : MixHash) (i : ℕ) (node : HashNode) :
    (hash.setNode i node).buckets =
      Function.update hash.buckets i node.list := by
  funext j
  by_cases hj : j = i
  · subst hj
    simp [buckets, setNode]
  · simp [buckets, setNode, hj]

@[simp] theorem mixHashNodeFree_hashSize (hash : MixHash) :
    (mixHashNodeFree hash).hashSize = hash.hashSize := rfl

@[simp] theorem mixHashNodeFree_buckets (hash : MixHash) :
    (mixHashNodeFree hash).buckets = hash.buckets := rfl

variable {hash hash' : MixHash}

theorem MixHash.Wf.keyed (hwf : hash.Wf) : hash.Keyed :=
  ⟨hwf.size_pos, hwf.placed⟩

theorem MixHash.Keyed.hash_lt (hkeyed : hash.Keyed) (key : ℕ) :
    mixHashHash key hash.hashSize < hash.hashSize :=
  mixHashHash_lt key hkeyed.size_pos

theorem MixHash.Wf.setNode (hwf : hash.Wf) {i : ℕ} {node : HashNode}
    (hlen : node.len = node.list.length)
    (hplaced : ∀ kv ∈ node.list, mixHashHash kv.1 hash.hashSize = i) :
    (hash.setNode i node).Wf where
  size_pos := hwf.size_pos
  len_eq := by
    intro j hj
    by_cases hji : j = i
    · subst hji
      simpa [MixHash.setNode] using hlen
    · simpa [MixHash.setNode, hji] using hwf.len_eq j hj
  placed := by
    rw [MixHash.setNode_buckets]
    exact hwf.placed.update hplaced

theorem MixHash.Wf.nodeFree (hwf : hash.Wf) : (mixHashNodeFree hash).Wf :=
  ⟨hwf.size_pos, hwf.len_eq, hwf.placed⟩

theorem mixHashInit_entries (perBlock size : ℕ) :
    (mixHashInit perBlock size).entries = [] := by
  rw [MixHash.entries, entries_eq_nil_iff]
  intro i _
  rfl

theorem mixHashInit_wf (perBlock : ℕ) {size : ℕ} (hsize : 0 < size) :
    (mixHashInit perBlock size).Wf where
  size_pos := hsize
  len_eq := fun i _ => rfl
  placed := by
    intro i _ kv hkv
    simp [MixHash.buckets, mixHashInit] at hkv

/-! ## Effect of the operations on the entries -/

theorem mixHashPutAt_eq_none_iff {hashKey key value : ℕ} :
    mixHashPutAt hash hashKey key value = none ↔ hash.freeNodes = 0 := by
  simp [mixHashPutAt, mixHashNodeGet]

theorem mixHashPut_eq_none_iff {key value : ℕ} :
    mixHashPut hash key value = none ↔ hash.freeNodes = 0 :=
  mixHashPutAt_eq_none_iff

theorem mixHashPutAt_eq_some {hashKey key value : ℕ}
    (h : mixHashPutAt hash hashKey key value = some hash') :
    hash.freeNodes ≠ 0 ∧ hash' =
      MixHash.setNode { hash with
        freeNodes := hash.freeNodes - 1
        freeNodeNum := hash.freeNodeNum - 1 } hashKey
          ⟨(hash.hashNodes hashKey).len + 1,
            (key, value) :: (hash.hashNodes hashKey).list⟩ := by
  simp only [mixHashPutAt, mixHashNodeGet, Option.map_eq_some_iff] at h
  obtain ⟨taken, htaken, rfl⟩ := h
  split at htaken
  · cases htaken
  · rename_i hfree
    cases htaken
    exact ⟨hfree, rfl⟩

/-- A put is found under its key, and every other key keeps its value. -/
theorem mixHashGetAt_putAt (bucketOf : ℕ → ℕ) {key value : ℕ}
    (h : mixHashPutAt hash (bucketOf key) key value = some hash') (k : ℕ) :
    mixHashGetAt hash' (bucketOf k) k =
      if k = key then toInt32 value else mixHashGetAt hash (bucketOf k) k := by
  obtain ⟨-, rfl⟩ := mixHashPutAt_eq_some h
  by_cases hk : k = key
  · subst hk
    simp [mixHashGetAt, MixHash.setNode, lookupKey]
  · by_cases hbucket : bucketOf k = bucketOf key
    · have hne : ¬ key = k := fun heq => hk heq.symm
      simp [mixHashGetAt, MixHash.setNode, lookupKey, hbucket, hk, hne]
    · simp [mixHashGetAt, MixHash.setNode, hbucket, hk]

theorem mixHashGet_put {key value : ℕ}
    (h : mixHashPut hash key value = some hash') (k : ℕ) :
    mixHashGet hash' k =
      if k = key then toInt32 value else mixHashGet hash k := by
  have hsize : hash'.hashSize = hash.hashSize := by
    rw [(mixHashPutAt_eq_some h).2]
    rfl
  rw [mixHashGet, hsize]
  exact mixHashGetAt_putAt (fun k => mixHashHash k hash.hashSize) h k

/-- A put that returns adds one entry and takes one free node. -/
theorem mixHashPut_spec (hwf : hash.Wf) {key value : ℕ}
    (h : mixHashPut hash key value = some hash') :
    hash'.Wf ∧ hash'.entries.Perm ((key, value) :: hash.entries) ∧
      hash'.freeNodes + 1 = hash.freeNodes ∧
      hash'.hashSize = hash.hashSize := by
  obtain ⟨hfree, rfl⟩ := mixHashPutAt_eq_some h
  have hlt := hwf.keyed.hash_lt key
  refine ⟨?_, ?_, ?_, rfl⟩
  · have hwf' : MixHash.Wf { hash with
        freeNodes := hash.freeNodes - 1
        freeNodeNum := hash.freeNodeNum - 1 } :=
      ⟨hwf.size_pos, hwf.len_eq, hwf.placed⟩
    refine hwf'.setNode ?_ ?_
    · simp [hwf.len_eq _ hlt]
    · intro kv hkv
      rcases List.mem_cons.mp hkv with rfl | hkv
      · rfl
      · exact hwf.placed _ hlt kv hkv
  · rw [MixHash.entries, MixHash.setNode_buckets]
    exact entries_cons_update_perm hash.buckets (key, value) hlt
  · simp only [MixHash.setNode_freeNodes]
    omega

theorem mixHashGet_of_notMem (hkeyed : hash.Keyed) {key : ℕ}
    (hkey : key ∉ hash.keys) : mixHashGet hash key = -1 := by
  have hnone :=
    (hkeyed.placed.lookupKey_eq_none_iff (hkeyed.hash_lt key)).mpr hkey
  rw [mixHashGet, mixHashGetAt]
  change (match lookupKey (hash.buckets _) key with
    | some value => toInt32 value
    | none => -1) = -1
  rw [hnone]

theorem mixHashGet_of_mem (hkeyed : hash.Keyed) (hnodup : hash.keys.Nodup)
    {key value : ℕ} (hmem : (key, value) ∈ hash.entries) :
    mixHashGet hash key = toInt32 value := by
  have hsome := (hkeyed.placed.lookupKey_eq_some_iff hnodup
    (hkeyed.hash_lt key)).mpr hmem
  rw [mixHashGet, mixHashGetAt]
  change (match lookupKey (hash.buckets _) key with
    | some value => toInt32 value
    | none => -1) = toInt32 value
  rw [hsome]

/-- A delete that finds nothing lowers the length all the same. -/
theorem mixHashDeleteAt_of_forall_ne {hashKey key : ℕ}
    (h : ∀ kv ∈ (hash.hashNodes hashKey).list, kv.1 ≠ key) :
    mixHashDeleteAt hash hashKey key = hash.setNode hashKey
      ⟨(hash.hashNodes hashKey).len - 1, (hash.hashNodes hashKey).list⟩ := by
  rw [mixHashDeleteAt, eraseKey_of_forall_ne h]
  split
  · rfl
  · rename_i head tail hlist
    rw [hlist] at h
    have htail := (lookupKey_eq_none_iff (k := key)).mpr fun kv hkv =>
      h kv (List.mem_cons_of_mem head hkv)
    rw [if_neg (h head List.mem_cons_self), htail]
    simp

/-- A delete that finds its key in the head node drops the node. -/
theorem mixHashDeleteAt_head {hashKey : ℕ} {kv : MixKv} {tail : List MixKv}
    (hlist : (hash.hashNodes hashKey).list = kv :: tail) :
    mixHashDeleteAt hash hashKey kv.1 =
      hash.setNode hashKey ⟨(hash.hashNodes hashKey).len - 1, tail⟩ := by
  rw [mixHashDeleteAt, hlist]
  simp [eraseKey]

/-- A delete that finds its key in an inner node gives the node back. -/
theorem mixHashDeleteAt_inner {hashKey : ℕ} {pre post : List MixKv}
    {kv : MixKv} (hlist : (hash.hashNodes hashKey).list = pre ++ kv :: post)
    (hne : pre ≠ []) (hpre : ∀ e ∈ pre, e.1 ≠ kv.1) :
    mixHashDeleteAt hash hashKey kv.1 = mixHashNodeFree (hash.setNode hashKey
      ⟨(hash.hashNodes hashKey).len - 1, pre ++ post⟩) := by
  rw [mixHashDeleteAt, hlist, eraseKey_of_split hpre]
  obtain ⟨head, pre, rfl⟩ := List.exists_cons_of_ne_nil hne
  have hhead := hpre head List.mem_cons_self
  have htail : lookupKey (pre ++ kv :: post) kv.1 = some kv.2 :=
    lookupKey_of_split fun e he => hpre e (List.mem_cons_of_mem head he)
  simp only [List.cons_append]
  rw [if_neg hhead, htail, if_pos Option.isSome_some]

/-- A delete unlinks the first pair with its key from the bucket of the key,
whatever happens to the node and to the length. -/
theorem mixHashDeleteAt_cases (hash : MixHash) (hashKey key : ℕ) :
    let unlinked := hash.setNode hashKey ⟨(hash.hashNodes hashKey).len - 1,
      eraseKey (hash.hashNodes hashKey).list key⟩
    mixHashDeleteAt hash hashKey key = unlinked ∨
      mixHashDeleteAt hash hashKey key = mixHashNodeFree unlinked := by
  rw [mixHashDeleteAt]
  dsimp only
  split
  · exact Or.inl rfl
  · split
    · exact Or.inl rfl
    · split
      · exact Or.inr rfl
      · exact Or.inl rfl

@[simp] theorem mixHashDelete_hashSize (hash : MixHash) (key : ℕ) :
    (mixHashDelete hash key).hashSize = hash.hashSize := by
  rcases mixHashDeleteAt_cases hash (mixHashHash key hash.hashSize) key with
    heq | heq
  · rw [mixHashDelete, heq]
    rfl
  · rw [mixHashDelete, heq]
    rfl

theorem mixHashDelete_buckets (hash : MixHash) (key : ℕ) :
    (mixHashDelete hash key).buckets =
      Function.update hash.buckets (mixHashHash key hash.hashSize)
        (eraseKey (hash.buckets (mixHashHash key hash.hashSize)) key) := by
  rcases mixHashDeleteAt_cases hash (mixHashHash key hash.hashSize) key with
    heq | heq
  · rw [mixHashDelete, heq, MixHash.setNode_buckets]
    rfl
  · rw [mixHashDelete, heq, mixHashNodeFree_buckets, MixHash.setNode_buckets]
    rfl

theorem MixHash.Keyed.delete (hkeyed : hash.Keyed) (key : ℕ) :
    (mixHashDelete hash key).Keyed where
  size_pos := by
    rw [mixHashDelete_hashSize]
    exact hkeyed.size_pos
  placed := by
    rw [mixHashDelete_buckets, mixHashDelete_hashSize]
    refine hkeyed.placed.update fun kv hkv => ?_
    exact hkeyed.placed _ (hkeyed.hash_lt key) kv
      (List.eraseP_sublist.subset hkv)

/-- Deleting a present key removes the pair it is found with. -/
theorem MixHash.Keyed.delete_perm (hkeyed : hash.Keyed)
    (hnodup : hash.keys.Nodup) {key value : ℕ}
    (hmem : (key, value) ∈ hash.entries) :
    hash.entries.Perm ((key, value) :: (mixHashDelete hash key).entries) := by
  have hlt := hkeyed.hash_lt key
  have hlook := (hkeyed.placed.lookupKey_eq_some_iff hnodup hlt).mpr hmem
  rw [MixHash.entries, MixHash.entries, mixHashDelete_buckets,
    mixHashDelete_hashSize]
  exact entries_perm_append_update (l := [(key, value)]) hlt
    (lookupKey_perm_cons hlook)

theorem mixHashDelete_spec (hwf : hash.Wf) (hnodup : hash.keys.Nodup)
    {key value : ℕ} (hmem : (key, value) ∈ hash.entries) :
    (mixHashDelete hash key).Wf ∧
      hash.entries.Perm ((key, value) :: (mixHashDelete hash key).entries) := by
  have hlt := hwf.keyed.hash_lt key
  have hlook := (hwf.placed.lookupKey_eq_some_iff hnodup hlt).mpr hmem
  refine ⟨?_, hwf.keyed.delete_perm hnodup hmem⟩
  set i := mixHashHash key hash.hashSize with hi
  have hperm : (hash.hashNodes i).list.Perm
      ((key, value) :: eraseKey (hash.hashNodes i).list key) :=
    lookupKey_perm_cons hlook
  have hunlinked : (hash.setNode i ⟨(hash.hashNodes i).len - 1,
      eraseKey (hash.hashNodes i).list key⟩).Wf := by
    refine hwf.setNode ?_ fun kv hkv => ?_
    · have hlength := hperm.length_eq
      rw [List.length_cons] at hlength
      simp only [hwf.len_eq i hlt]
      omega
    · exact hwf.placed i hlt kv (List.eraseP_sublist.subset hkv)
  rcases mixHashDeleteAt_cases hash i key with heq | heq
  · rw [mixHashDelete, ← hi, heq]
    exact hunlinked
  · rw [mixHashDelete, ← hi, heq]
    exact hunlinked.nodeFree

/-! ## Popping a bucket -/

theorem mixHashGetEntryByIdx_nil {i : ℕ} (hlen : (hash.hashNodes i).len ≤ 0) :
    mixHashGetEntryByIdx hash i = ((uint32Max, uint32Max), hash) := by
  rw [mixHashGetEntryByIdx, if_neg (by omega)]

theorem mixHashGetEntryByIdx_cons {i : ℕ} {kv : MixKv} {tail : List MixKv}
    (hlen : 0 < (hash.hashNodes i).len)
    (hlist : (hash.hashNodes i).list = kv :: tail) :
    mixHashGetEntryByIdx hash i =
      (kv, (mixHashNodeFree hash).setNode i
        ⟨(hash.hashNodes i).len - 1, tail⟩) := by
  rw [mixHashGetEntryByIdx, if_pos hlen, hlist]

end Uhs
