import Uhs.Hash.Updates

/-!
# Conservation of nodes

A table starts with all its nodes on the free list.  Puts, popped buckets and
deletes of inner nodes move a node from one list to another; a delete that
finds its key in the head node of a bucket loses the node for good.  So the
free list and the buckets account for all nodes as long as no delete does.
-/

namespace Uhs

open Support

/-- Free nodes and linked nodes together. -/
def MixHash.nodeCount (hash : MixHash) : ℤ :=
  hash.freeNodes + hash.entries.length

/-- The free node counter is right, no length exceeds its list, and there are
`n` nodes. -/
structure MixHash.Counted (size : ℕ) (n : ℤ) (hash : MixHash) : Prop where
  hashSize_eq : hash.hashSize = size
  freeNodeNum_eq : hash.freeNodeNum = hash.freeNodes
  len_le : ∀ i, (hash.hashNodes i).len ≤ (hash.hashNodes i).list.length
  nodeCount_eq : hash.nodeCount = n

variable {size i : ℕ} {n : ℤ} {hash hash' : MixHash}

theorem mixHashInit_counted (perBlock size : ℕ) :
    (mixHashInit perBlock size).Counted size perBlock where
  hashSize_eq := rfl
  freeNodeNum_eq := rfl
  len_le := fun _ => le_refl _
  nodeCount_eq := by
    rw [MixHash.nodeCount, mixHashInit_entries]
    simp [mixHashInit]

theorem MixHash.Counted.setNode (h : hash.Counted size n) (hi : i < size)
    {n' len : ℤ} {l : List MixKv} (hlen : len ≤ l.length)
    (hn : n' + (hash.hashNodes i).list.length = n + l.length) :
    (hash.setNode i ⟨len, l⟩).Counted size n' where
  hashSize_eq := h.hashSize_eq
  freeNodeNum_eq := h.freeNodeNum_eq
  len_le := by
    intro j
    by_cases hj : j = i
    · subst hj
      simpa [MixHash.setNode] using hlen
    · simpa [MixHash.setNode, hj] using h.len_le j
  nodeCount_eq := by
    have hcount := h.nodeCount_eq
    have hlt : i < hash.hashSize := by
      rw [h.hashSize_eq]
      exact hi
    have hentries := length_entries_update hash.buckets l hlt
    simp only [MixHash.nodeCount, MixHash.entries, MixHash.setNode_buckets,
      MixHash.setNode_hashSize, MixHash.setNode_freeNodes] at hcount ⊢
    have hold : hash.buckets i = (hash.hashNodes i).list := rfl
    rw [hold] at hentries
    omega

theorem MixHash.Counted.nodeFree (h : hash.Counted size n) :
    (mixHashNodeFree hash).Counted size (n + 1) where
  hashSize_eq := h.hashSize_eq
  freeNodeNum_eq := by
    simp only [mixHashNodeFree, h.freeNodeNum_eq]
    push_cast
    rfl
  len_le := h.len_le
  nodeCount_eq := by
    have hcount : (hash.freeNodes : ℤ) + hash.entries.length = n :=
      h.nodeCount_eq
    change ((hash.freeNodes + 1 : ℕ) : ℤ) + hash.entries.length = n + 1
    push_cast
    omega

theorem MixHash.Counted.nodeGet (h : hash.Counted size n)
    (hfree : hash.freeNodes ≠ 0) :
    MixHash.Counted size (n - 1) { hash with
      freeNodes := hash.freeNodes - 1
      freeNodeNum := hash.freeNodeNum - 1 } where
  hashSize_eq := h.hashSize_eq
  freeNodeNum_eq := by
    simp only [h.freeNodeNum_eq]
    omega
  len_le := h.len_le
  nodeCount_eq := by
    have hcount : (hash.freeNodes : ℤ) + hash.entries.length = n :=
      h.nodeCount_eq
    change ((hash.freeNodes - 1 : ℕ) : ℤ) + hash.entries.length = n - 1
    omega

theorem MixHash.Counted.putAt (h : hash.Counted size n) (hi : i < size)
    {key value : ℕ} (hput : mixHashPutAt hash i key value = some hash') :
    hash'.Counted size n := by
  obtain ⟨hfree, rfl⟩ := mixHashPutAt_eq_some hput
  have hlen := h.len_le i
  refine (h.nodeGet hfree).setNode hi ?_ ?_
  · rw [List.length_cons]
    push_cast
    omega
  · dsimp only
    rw [List.length_cons]
    push_cast
    omega

/-- A delete that finds its key in the head node loses a node. -/
theorem MixHash.Counted.deleteAt_head (h : hash.Counted size n) (hi : i < size)
    {key : ℕ} (hhead : (hash.hashNodes i).list.head?.map Prod.fst = some key) :
    (mixHashDeleteAt hash i key).Counted size (n - 1) := by
  have hlen := h.len_le i
  rcases hl : (hash.hashNodes i).list with - | ⟨kv, tail⟩
  · simp [hl] at hhead
  · have hkey : kv.1 = key := by simpa [hl] using hhead
    subst hkey
    rw [hl, List.length_cons] at hlen
    rw [mixHashDeleteAt_head hl]
    refine h.setNode hi ?_ ?_
    · push_cast at hlen
      omega
    · rw [hl, List.length_cons]
      push_cast
      omega

/-- Every other delete keeps all nodes. -/
theorem MixHash.Counted.deleteAt (h : hash.Counted size n) (hi : i < size)
    {key : ℕ}
    (hhead : (hash.hashNodes i).list.head?.map Prod.fst ≠ some key) :
    (mixHashDeleteAt hash i key).Counted size n := by
  have hlen := h.len_le i
  rcases exists_first (fun kv : MixKv => kv.1 == key) (hash.hashNodes i).list
    with hnone | ⟨pre, kv, post, hl, hpre, hkv⟩
  · rw [mixHashDeleteAt_of_forall_ne (by simpa using hnone)]
    exact h.setNode hi (by omega) rfl
  · have hkey : kv.1 = key := by simpa using hkv
    subst hkey
    have hne : pre ≠ [] := by
      rintro rfl
      apply hhead
      simp [hl]
    have hother : ∀ e ∈ pre, e.1 ≠ kv.1 := by simpa using hpre
    rw [mixHashDeleteAt_inner hl hne hother]
    rw [hl, List.length_append, List.length_cons] at hlen
    push_cast at hlen
    have hunlinked : (hash.setNode i ⟨(hash.hashNodes i).len - 1,
        pre ++ post⟩).Counted size (n - 1) := by
      refine h.setNode hi ?_ ?_
      · rw [List.length_append]
        push_cast
        omega
      · rw [hl, List.length_append, List.length_append, List.length_cons]
        push_cast
        omega
    have hfreed := hunlinked.nodeFree
    rwa [Int.sub_add_cancel] at hfreed

theorem MixHash.Counted.getEntryByIdx (h : hash.Counted size n)
    (hi : i < size) : (mixHashGetEntryByIdx hash i).2.Counted size n := by
  have hlen := h.len_le i
  by_cases hpos : 0 < (hash.hashNodes i).len
  · rcases hl : (hash.hashNodes i).list with - | ⟨kv, tail⟩
    · rw [hl] at hlen
      exact absurd hpos (not_lt.mpr hlen)
    · rw [mixHashGetEntryByIdx_cons hpos hl]
      rw [hl, List.length_cons] at hlen
      push_cast at hlen
      refine h.nodeFree.setNode hi ?_ ?_
      · omega
      · have hsame : ((mixHashNodeFree hash).hashNodes i).list =
            kv :: tail := hl
        rw [hsame, List.length_cons]
        push_cast
        omega
  · rw [mixHashGetEntryByIdx_nil (not_lt.mp hpos)]
    exact h

namespace Linked

/-! ## Operations on the nodes -/

/-- A call that changes a table. -/
inductive HashOp where
  | update (op : Update)
  | getEntryByIdx (idx : ℕ)

/-- One call on a table; a bucket outside the table is out of bounds. -/
def hashStep (bucketOf : ℕ → ℕ → ℕ) (hash : Table) : HashOp → Option Table
  | .update op => updateStep bucketOf hash op
  | .getEntryByIdx idx =>
      if idx < hash.hashSize then (mixHashGetEntryByIdx hash idx).map Prod.snd
      else none

/-- The nodes of the free list. -/
def Table.freeList (hash : Table) : List ℕ := hash.cells none

/-- The nodes linked in the buckets. -/
def Table.linked (hash : Table) : List ℕ :=
  entries hash.hashSize fun i => hash.cells (some i)

/-- All nodes are accounted for. -/
structure Conserves (bucketOf : ℕ → ℕ → ℕ) (perBlock : ℕ) (hash : Table) :
    Prop where
  sound : hash.Sound
  freeNodeNum_eq : hash.freeNodeNum = hash.freeList.length
  total_eq : hash.freeNodeNum + hash.linked.length = perBlock
  abort : ∀ key value, mixHashPut bucketOf hash key value = none →
    hash.linked.length = perBlock

/-- A delete finds its key in the head node of the bucket. -/
def UnlinksHead (bucketOf : ℕ → ℕ → ℕ) (hash : Table) : HashOp → Prop
  | .update (.delete key) =>
      (hash.hashNodes (bucketOf key hash.hashSize)).list.map
        (fun node => (hash.nodes node).key) = some key
  | _ => False

instance (bucketOf : ℕ → ℕ → ℕ) (hash : Table) :
    DecidablePred (UnlinksHead bucketOf hash)
  | .update (.delete key) => inferInstanceAs (Decidable
      ((hash.hashNodes (bucketOf key hash.hashSize)).list.map
        (fun node => (hash.nodes node).key) = some key))
  | .update (.put _ _) => inferInstanceAs (Decidable False)
  | .getEntryByIdx _ => inferInstanceAs (Decidable False)

variable {bucketOf : ℕ → ℕ → ℕ} {hash hash' : Table}

theorem Table.toMixHash_entries (hash : Table) :
    hash.toMixHash.entries = hash.linked.map hash.pair :=
  entries_map _ _ _

/-- A table whose lists end and which accounts for `n` nodes. -/
structure Table.Counted (size : ℕ) (n : ℤ) (hash : Table) : Prop where
  sound : hash.Sound
  lists : hash.toMixHash.Counted size n

theorem Table.Counted.total_eq (h : hash.Counted size n) :
    hash.freeNodeNum + hash.linked.length = n := by
  have hcount := h.lists.nodeCount_eq
  have hnum : hash.freeNodeNum = hash.toMixHash.freeNodes :=
    h.lists.freeNodeNum_eq
  rw [MixHash.nodeCount, hash.toMixHash_entries, List.length_map] at hcount
  rw [hnum, hcount]

theorem Table.Counted.conserves {perBlock : ℕ}
    (h : hash.Counted size perBlock) : Conserves bucketOf perBlock hash where
  sound := h.sound
  freeNodeNum_eq := h.lists.freeNodeNum_eq
  total_eq := h.total_eq
  abort := by
    intro key value hnone
    have htotal := h.total_eq
    have heq := (mixHashPutAt_eq h.sound (bucketOf key hash.hashSize) key
      value).1
    rw [show mixHashPutAt hash (bucketOf key hash.hashSize) key value = none
      from hnone] at heq
    have hzero := Uhs.mixHashPutAt_eq_none_iff.mp heq.symm
    have hnum : hash.freeNodeNum = hash.toMixHash.freeNodes :=
      h.lists.freeNodeNum_eq
    rw [hnum, hzero] at htotal
    omega

/-- The first node of a bucket is the head of its list. -/
theorem Table.Sound.head?_list (h : hash.Sound) (i : ℕ) :
    (hash.toMixHash.hashNodes i).list.head?.map Prod.fst =
      (hash.hashNodes i).list.map fun node => (hash.nodes node).key := by
  have hhead : (hash.cells (some i)).head? = (hash.hashNodes i).list :=
    (h.chains.chain (some i)).head?_eq
  change ((hash.cells (some i)).map hash.pair).head?.map Prod.fst = _
  rw [List.head?_map, hhead, Option.map_map]
  rfl

/-- What one call does to the number of nodes accounted for. -/
theorem Table.Counted.step (h : hash.Counted size n)
    (hbucket : ∀ key, bucketOf key size < size) {op : HashOp}
    (hstep : hashStep bucketOf hash op = some hash') :
    hash'.Counted size (if UnlinksHead bucketOf hash op then n - 1 else n) := by
  have hsize : hash.hashSize = size := h.lists.hashSize_eq
  have hlt : ∀ key, bucketOf key hash.toMixHash.hashSize < size := by
    intro key
    rw [show hash.toMixHash.hashSize = size from hsize]
    exact hbucket key
  rcases op with (⟨key, value⟩ | key) | idx
  · have hput : updateStep bucketOf hash (.put key value) = some hash' := hstep
    obtain ⟨hsound, hlists⟩ := updateStep_eq h.sound hput
    refine ⟨hsound, ?_⟩
    exact h.lists.putAt (hlt key) hlists
  · have hdelete : updateStep bucketOf hash (.delete key) = some hash' := hstep
    obtain ⟨hsound, hlists⟩ := updateStep_eq h.sound hdelete
    refine ⟨hsound, ?_⟩
    rw [← Option.some.inj hlists]
    have hhead := h.sound.head?_list (bucketOf key hash.hashSize)
    split
    · rename_i hunlinks
      exact h.lists.deleteAt_head (hlt key) (hhead.trans hunlinks)
    · rename_i hkeeps
      exact h.lists.deleteAt (hlt key) fun heq => hkeeps (hhead.symm.trans heq)
  · simp only [hashStep] at hstep
    split at hstep
    · rename_i hidx
      rw [hsize] at hidx
      obtain ⟨kv, popped, hpop, hsound, heq⟩ :=
        mixHashGetEntryByIdx_eq h.sound (h.lists.len_le idx)
      rw [hpop, Option.map_some, Option.some.injEq] at hstep
      subst hstep
      have hpopped := h.lists.getEntryByIdx hidx
      rw [heq] at hpopped
      exact ⟨hsound, hpopped⟩
    · cases hstep

theorem mixHashInit_counted (perBlock size : ℕ) :
    (mixHashInit perBlock size).Counted size perBlock where
  sound := mixHashInit_sound perBlock size
  lists := by
    rw [mixHashInit_toMixHash]
    exact Uhs.mixHashInit_counted perBlock size

/-- Along every run of puts, deletes and popped buckets all nodes stay
accounted for exactly as long as no delete finds its key in the head node of
its bucket. -/
theorem conserves_allStates_iff (bucketOf : ℕ → ℕ → ℕ) (perBlock size : ℕ)
    (hbucket : ∀ key, bucketOf key size < size) (ops : List HashOp) :
    AllStates (hashStep bucketOf) (Conserves bucketOf perBlock)
        (mixHashInit perBlock size) ops ↔
      AllSteps (hashStep bucketOf)
        (fun hash op => ¬ UnlinksHead bucketOf hash op)
        (mixHashInit perBlock size) ops := by
  apply allStates_iff_allSteps
    (I := fun hash => hash.Counted size perBlock)
  · intro hash op hash' hcounted hkeeps hstep
    have hnext := hcounted.step hbucket hstep
    rwa [if_neg hkeeps] at hnext
  · intro hash op hcounted hnot
    have hunlinks : UnlinksHead bucketOf hash op := not_not.mp hnot
    rcases op with (⟨key, value⟩ | key) | idx
    · exact absurd hunlinks (fun hfalse => hfalse)
    · have hfree : HasFreeNode hash (.delete key) := trivial
      obtain ⟨hash', hstep⟩ : ∃ hash',
          hashStep bucketOf hash (.update (.delete key)) = some hash' :=
        updateStep_returns hcounted.sound hfree
      refine ⟨hash', hstep, fun hconserves => ?_⟩
      have hnext := hcounted.step hbucket hstep
      rw [if_pos hunlinks] at hnext
      have htotal := hconserves.total_eq
      rw [hnext.total_eq] at htotal
      omega
    · exact absurd hunlinks (fun hfalse => hfalse)
  · intro hash hcounted
    exact hcounted.conserves
  · exact mixHashInit_counted perBlock size

/-- Two colliding keys: the inner node is given back, then put again and
popped. -/
theorem conserves_allStates_iff_example :
    AllStates (hashStep mixHashHash) (Conserves mixHashHash 2)
        (mixHashInit 2 1) [.update (.put 5 0), .update (.put 6 1),
          .update (.delete 5), .update (.put 7 0), .getEntryByIdx 0] ↔
      AllSteps (hashStep mixHashHash)
        (fun hash op => ¬ UnlinksHead mixHashHash hash op)
        (mixHashInit 2 1) [.update (.put 5 0), .update (.put 6 1),
          .update (.delete 5), .update (.put 7 0), .getEntryByIdx 0] :=
  conserves_allStates_iff mixHashHash 2 1
    (fun key => mixHashHash_lt key Nat.one_pos) _

/-- After one put and the delete of its key the only node is in no list, so
the next put aborts on an empty table. -/
theorem conserves_fails :
    ¬ AllStates (hashStep mixHashHash) (Conserves mixHashHash 1)
      (mixHashInit 1 1) [.update (.put 5 0), .update (.delete 5)] := by
  intro hall
  have hlost : (runOps (hashStep mixHashHash) (mixHashInit 1 1)
      [.update (.put 5 0), .update (.delete 5)]).map
        (fun hash => hash.freeNodeNum + (hash.linked.length : ℤ)) =
          some 0 := by
    decide +kernel
  obtain ⟨hash, hrun, htotal⟩ := Option.map_eq_some_iff.mp hlost
  have hconserves := hall.of_runOps (mixHashInit_counted 1 1).conserves hrun
  rw [hconserves.total_eq] at htotal
  exact absurd htotal (by decide)

end Linked

end Uhs
