import Mathlib.Data.Fintype.Card
import Uhs.Core.Hash
import Uhs.Support.Chains

/-!
# The nodes of the hash index

Model of `mix_hash.c` on the level of its nodes.  `mix_hash_init` allocates
all nodes of a table; afterwards they only travel between the free list and
the buckets.  A pointer is the number of a node, and `NULL` is `none`.  An
operation that aborts, dereferences `NULL` or does not end is `none`: a loop
that has met more nodes than there are is going round in a circle.

The hash function is a parameter of the operations; the code's own is
`mixHashHash`.
-/

namespace Uhs.Linked

open Support

/-- `hash_list_node_t`. -/
structure HashListNode where
  key : ℕ
  value : ℕ
  next : Option ℕ

/-- `hash_node_t`; its `threshold` is never read. -/
structure HashNode where
  len : ℤ
  list : Option ℕ

/-- `mix_hash_t` with the memory of its nodes.  The node `free_node_head`
points to carries no data, so `freeNodeHead` is its `next`. -/
structure Table where
  hashSize : ℕ
  hashNodes : ℕ → HashNode
  freeNodeHead : Option ℕ
  freeNodeNum : ℤ
  nodes : ℕ → HashListNode
  nodeNum : ℕ

/-- The loop of `mix_hash_init` that fills the free list. -/
def mixHashInitNodes : ℕ → Table → Table
  | 0, hash => hash
  | i + 1, hash =>
      let hash := mixHashInitNodes i hash
      { hash with
        nodes := Function.update hash.nodes i
          ⟨uint32Max, uint32Max, hash.freeNodeHead⟩
        freeNodeHead := some i }

/-- `mix_hash_init`. -/
def mixHashInit (perBlock size : ℕ) : Table :=
  mixHashInitNodes perBlock
    { hashSize := size
      hashNodes := fun _ => ⟨0, none⟩
      freeNodeHead := none
      freeNodeNum := perBlock
      nodes := fun _ => ⟨0, 0, none⟩
      nodeNum := perBlock }

/-- Take the first free node off its list and fill it. -/
def Table.taken (hash : Table) (node key value : ℕ) : Table :=
  { hash with
    freeNodeHead := (hash.nodes node).next
    nodes := Function.update hash.nodes node ⟨key, value, none⟩
    freeNodeNum := hash.freeNodeNum - 1 }

/-- `mix_hash_node_get`. -/
def mixHashNodeGet (hash : Table) (key value : ℕ) : Option (ℕ × Table) :=
  match hash.freeNodeHead with
  | none => none
  | some node => some (node, hash.taken node key value)

/-- `mix_hash_node_free`. -/
def mixHashNodeFree (hash : Table) (node : ℕ) : Table :=
  { hash with
    nodes := Function.update hash.nodes node
      ⟨uint32Max, uint32Max, hash.freeNodeHead⟩
    freeNodeHead := some node
    freeNodeNum := hash.freeNodeNum + 1 }

/-- The successor of a node. -/
def Table.next (hash : Table) (node : ℕ) : Option ℕ := (hash.nodes node).next

/-- Write the `next` field of a node. -/
def Table.setNext (hash : Table) (node : ℕ) (next : Option ℕ) : Table :=
  { hash with
    nodes := Function.update hash.nodes node { hash.nodes node with next } }

/-- Write the list and the length of a bucket. -/
def Table.setNode (hash : Table) (hashKey : ℕ) (node : HashNode) : Table :=
  { hash with hashNodes := Function.update hash.hashNodes hashKey node }

/-- The loop of `mix_hash_get` and `mix_hash_delete`: the node with the key
and the node before it. -/
def Table.find (hash : Table) (hashKey key : ℕ) :
    Option (Option ℕ × Option ℕ) :=
  search (fun node => (hash.nodes node).key == key) hash.next hash.nodeNum
    none (hash.hashNodes hashKey).list

/-! ## Operations on one bucket -/

def mixHashPutAt (hash : Table) (hashKey key value : ℕ) : Option Table :=
  (mixHashNodeGet hash key value).map fun (newNode, hash) =>
    let node := hash.hashNodes hashKey
    (hash.setNext newNode node.list).setNode hashKey
      ⟨node.len + 1, some newNode⟩

def mixHashGetAt (hash : Table) (hashKey key : ℕ) : Option ℤ :=
  (hash.find hashKey key).map fun (_, cur) =>
    match cur with
    | some cur => toInt32 (hash.nodes cur).value
    | none => -1

def mixHashDeleteAt (hash : Table) (hashKey key : ℕ) : Option Table :=
  let node := hash.hashNodes hashKey
  (hash.find hashKey key).bind fun (prev, cur) =>
    match cur with
    | none => some (hash.setNode hashKey ⟨node.len - 1, node.list⟩)
    | some cur =>
        -- the head node is unlinked without being given back
        if some cur = node.list then
          some (hash.setNode hashKey ⟨node.len - 1, hash.next cur⟩)
        else prev.map fun prev =>
          (mixHashNodeFree (hash.setNext prev (hash.next cur)) cur).setNode
            hashKey ⟨node.len - 1, node.list⟩

/-- `mix_hash_get_entry_by_idx`. -/
def mixHashGetEntryByIdx (hash : Table) (idx : ℕ) : Option (MixKv × Table) :=
  let node := hash.hashNodes idx
  if 0 < node.len then
    node.list.map fun head =>
      (((hash.nodes head).key, (hash.nodes head).value),
        (mixHashNodeFree hash head).setNode idx
          ⟨node.len - 1, hash.next head⟩)
  else some ((uint32Max, uint32Max), hash)

variable (bucketOf : ℕ → ℕ → ℕ)

/-- `mix_hash_put`. -/
def mixHashPut (hash : Table) (key value : ℕ) : Option Table :=
  mixHashPutAt hash (bucketOf key hash.hashSize) key value

/-- `mix_hash_get`. -/
def mixHashGet (hash : Table) (key : ℕ) : Option ℤ :=
  mixHashGetAt hash (bucketOf key hash.hashSize) key

/-- `mix_hash_delete`. -/
def mixHashDelete (hash : Table) (key : ℕ) : Option Table :=
  mixHashDeleteAt hash (bucketOf key hash.hashSize) key

variable {bucketOf}

/-! ## The lists of a table -/

/-- The first node of the free list, for `none`, or of a bucket. -/
def Table.head (hash : Table) : Option ℕ → Option ℕ
  | none => hash.freeNodeHead
  | some i => (hash.hashNodes i).list

/-- The nodes of the free list, for `none`, or of a bucket. -/
def Table.cells (hash : Table) (o : Option ℕ) : List ℕ :=
  follow hash.next hash.nodeNum (hash.head o)

/-- The key and the value of a node. -/
def Table.pair (hash : Table) (node : ℕ) : MixKv :=
  ((hash.nodes node).key, (hash.nodes node).value)

/-- The table with its lists spelt out. -/
def Table.readOff (hash : Table) (lists : Option ℕ → List ℕ) : MixHash where
  hashSize := hash.hashSize
  hashNodes := fun i =>
    ⟨(hash.hashNodes i).len, (lists (some i)).map hash.pair⟩
  freeNodeNum := hash.freeNodeNum
  freeNodes := (lists none).length

/-- The table of lists that a table of nodes stands for. -/
def Table.toMixHash (hash : Table) : MixHash := hash.readOff hash.cells

/-- The free list and the buckets are given by the lists, without a common
node. -/
structure Table.Laid (hash : Table) (lists : Option ℕ → List ℕ) : Prop where
  chains : Chains hash.next hash.head lists
  lt_nodeNum : ∀ o, ∀ node ∈ lists o, node < hash.nodeNum

/-- The free list and the buckets end and have no common node. -/
def Table.Sound (hash : Table) : Prop := hash.Laid hash.cells

variable {hash hash' : Table} {lists : Option ℕ → List ℕ}

theorem Table.Laid.length_le (h : hash.Laid lists) (o : Option ℕ) :
    (lists o).length ≤ hash.nodeNum := by
  have hsub : lists o ⊆ List.range hash.nodeNum := fun node hnode =>
    List.mem_range.mpr (h.lt_nodeNum o node hnode)
  have hle := (h.chains.nodup o).subperm hsub |>.length_le
  rwa [List.length_range] at hle

theorem Table.Laid.cells_eq (h : hash.Laid lists) : hash.cells = lists := by
  funext o
  exact (h.chains.chain o).follow_eq (h.length_le o)

theorem Table.Laid.sound (h : hash.Laid lists) : hash.Sound := by
  rw [Table.Sound, h.cells_eq]
  exact h

theorem Table.Laid.toMixHash_eq (h : hash.Laid lists) :
    hash.toMixHash = hash.readOff lists := by
  rw [Table.toMixHash, h.cells_eq]

/-! ## What the operations write -/

/-- Writing a node writes its successor. -/
theorem next_update (nodes : ℕ → HashListNode) (node : ℕ) (n : HashListNode) :
    (fun i => (Function.update nodes node n i).next) =
      Function.update (fun i => (nodes i).next) node n.next := by
  funext i
  by_cases hi : i = node
  · subst hi
    simp
  · simp [hi]

@[simp] theorem setNode_next (hash : Table) (i : ℕ) (node : HashNode) :
    (hash.setNode i node).next = hash.next := rfl

@[simp] theorem setNode_pair (hash : Table) (i : ℕ) (node : HashNode) :
    (hash.setNode i node).pair = hash.pair := rfl

theorem setNode_head (hash : Table) (i : ℕ) (node : HashNode) :
    (hash.setNode i node).head =
      Function.update hash.head (some i) node.list := by
  funext o
  by_cases ho : o = some i
  · subst ho
    simp [Table.head, Table.setNode]
  · rw [Function.update_of_ne ho]
    rcases o with - | j
    · rfl
    · have hj : j ≠ i := fun heq => ho (congrArg some heq)
      simp [Table.head, Table.setNode, hj]

theorem setNext_next (hash : Table) (node : ℕ) (next : Option ℕ) :
    (hash.setNext node next).next = Function.update hash.next node next :=
  next_update hash.nodes node _

@[simp] theorem setNext_head (hash : Table) (node : ℕ) (next : Option ℕ) :
    (hash.setNext node next).head = hash.head := rfl

@[simp] theorem setNext_pair (hash : Table) (node : ℕ) (next : Option ℕ) :
    (hash.setNext node next).pair = hash.pair := by
  funext i
  by_cases hi : i = node
  · subst hi
    simp [Table.pair, Table.setNext]
  · simp [Table.pair, Table.setNext, hi]

theorem taken_next (hash : Table) (node key value : ℕ) :
    (hash.taken node key value).next = Function.update hash.next node none :=
  next_update hash.nodes node _

theorem taken_head (hash : Table) (node key value : ℕ) :
    (hash.taken node key value).head =
      Function.update hash.head none (hash.next node) := by
  funext o
  rcases o with - | i
  · rfl
  · rfl

theorem taken_pair (hash : Table) (node key value : ℕ) {i : ℕ}
    (hi : i ≠ node) : (hash.taken node key value).pair i = hash.pair i := by
  simp [Table.pair, Table.taken, hi]

theorem taken_pair_self (hash : Table) (node key value : ℕ) :
    (hash.taken node key value).pair node = (key, value) := by
  simp [Table.pair, Table.taken]

theorem nodeFree_next (hash : Table) (node : ℕ) :
    (mixHashNodeFree hash node).next =
      Function.update hash.next node hash.freeNodeHead :=
  next_update hash.nodes node _

theorem nodeFree_head (hash : Table) (node : ℕ) :
    (mixHashNodeFree hash node).head =
      Function.update hash.head none (some node) := by
  funext o
  rcases o with - | i
  · rfl
  · rfl

theorem nodeFree_pair (hash : Table) {node i : ℕ} (hi : i ≠ node) :
    (mixHashNodeFree hash node).pair i = hash.pair i := by
  simp [Table.pair, mixHashNodeFree, hi]

/-! ## The table after the writes -/

theorem readOff_setNode (hash : Table) (lists : Option ℕ → List ℕ) (i : ℕ)
    (node : HashNode) (l : List ℕ) :
    (hash.setNode i node).readOff (Function.update lists (some i) l) =
      (hash.readOff lists).setNode i ⟨node.len, l.map hash.pair⟩ := by
  simp only [Table.readOff, setNode_pair, MixHash.setNode, MixHash.mk.injEq]
  refine ⟨rfl, ?_, rfl, by simp⟩
  funext j
  by_cases hj : j = i
  · subst hj
    simp [Table.setNode]
  · simp [Table.setNode, hj]

@[simp] theorem readOff_setNext (hash : Table) (lists : Option ℕ → List ℕ)
    (node : ℕ) (next : Option ℕ) :
    (hash.setNext node next).readOff lists = hash.readOff lists := by
  rw [Table.readOff, setNext_pair]
  rfl

theorem readOff_nodeFree (hash : Table) {lists : Option ℕ → List ℕ} {node : ℕ}
    (hnode : ∀ o, node ∉ lists o) :
    (mixHashNodeFree hash node).readOff
        (Function.update lists none (node :: lists none)) =
      Uhs.mixHashNodeFree (hash.readOff lists) := by
  have hpair : ∀ i, (lists (some i)).map (mixHashNodeFree hash node).pair =
      (lists (some i)).map hash.pair := by
    intro i
    apply List.map_congr_left
    intro a ha
    apply nodeFree_pair
    rintro rfl
    exact hnode _ ha
  simp [Table.readOff, Uhs.mixHashNodeFree, hpair]
  exact ⟨rfl, rfl, rfl⟩

theorem readOff_taken (hash : Table) {lists : Option ℕ → List ℕ} {node : ℕ}
    {l : List ℕ} (hfree : lists none = node :: l)
    (hnode : ∀ o, node ∉ Function.update lists none l o) (key value : ℕ) :
    Uhs.mixHashNodeGet (hash.readOff lists) =
      some ((hash.taken node key value).readOff
        (Function.update lists none l)) := by
  have hpair : ∀ i, (lists (some i)).map (hash.taken node key value).pair =
      (lists (some i)).map hash.pair := by
    intro i
    apply List.map_congr_left
    intro a ha
    apply taken_pair
    rintro rfl
    exact hnode (some i) (by simpa using ha)
  simp [Uhs.mixHashNodeGet, Table.readOff, hfree, hpair]
  exact ⟨rfl, rfl, rfl⟩

/-! ## Moving a node -/

theorem Table.Laid.lt_update (h : hash.Laid lists) {o : Option ℕ} {l : List ℕ}
    (hl : ∀ node ∈ l, node < hash.nodeNum) (o' : Option ℕ) :
    ∀ node ∈ Function.update lists o l o', node < hash.nodeNum := by
  by_cases ho : o' = o
  · subst ho
    rw [Function.update_self]
    exact hl
  · rw [Function.update_of_ne ho]
    exact h.lt_nodeNum o'

/-- Giving back a node that is in no list. -/
theorem Table.Laid.nodeFree (h : hash.Laid lists) {node : ℕ}
    (hnode : ∀ o, node ∉ lists o) (hlt : node < hash.nodeNum) :
    (mixHashNodeFree hash node).Laid
      (Function.update lists none (node :: lists none)) where
  chains := by
    rw [nodeFree_next, nodeFree_head]
    exact h.chains.push hnode none
  lt_nodeNum := by
    apply h.lt_update
    intro i hi
    rcases List.mem_cons.mp hi with rfl | hi
    · exact hlt
    · exact h.lt_nodeNum none i hi

/-- Unlinking the head node of a bucket. -/
theorem Table.Laid.unlinkHead (h : hash.Laid lists) {i node : ℕ} {l : List ℕ}
    (hi : lists (some i) = node :: l) (len : ℤ) :
    (hash.setNode i ⟨len, hash.next node⟩).Laid
        (Function.update lists (some i) l) ∧
      ∀ o, node ∉ Function.update lists (some i) l o := by
  obtain ⟨hchains, hnode⟩ := h.chains.pop hi
  refine ⟨⟨?_, ?_⟩, hnode⟩
  · rw [setNode_next, setNode_head]
    exact hchains
  · apply h.lt_update
    intro j hj
    apply h.lt_nodeNum (some i)
    simp [hi, hj]

/-- Unlinking an inner node of a bucket. -/
theorem Table.Laid.unlinkInner (h : hash.Laid lists) {i prev cur : ℕ}
    {pre post : List ℕ} (hi : lists (some i) = pre ++ prev :: cur :: post)
    (len : ℤ) :
    ((hash.setNext prev (hash.next cur)).setNode i
        ⟨len, (hash.hashNodes i).list⟩).Laid
        (Function.update lists (some i) (pre ++ prev :: post)) ∧
      ∀ o, cur ∉ Function.update lists (some i) (pre ++ prev :: post) o := by
  obtain ⟨hchains, hcur⟩ := h.chains.unlink hi
  refine ⟨⟨?_, ?_⟩, hcur⟩
  · rw [setNode_next, setNode_head, setNext_next, setNext_head]
    have hhead : (hash.hashNodes i).list = hash.head (some i) := rfl
    rw [hhead, Function.update_eq_self]
    exact hchains
  · apply h.lt_update
    intro j hj
    apply h.lt_nodeNum (some i)
    rw [hi]
    simp only [List.mem_append, List.mem_cons] at hj ⊢
    tauto

/-- Writing the length of a bucket. -/
theorem Table.Laid.setLen (h : hash.Laid lists) (i : ℕ) (len : ℤ) :
    (hash.setNode i ⟨len, (hash.hashNodes i).list⟩).Laid lists where
  chains := by
    rw [setNode_next, setNode_head]
    have hhead : (hash.hashNodes i).list = hash.head (some i) := rfl
    rw [hhead, Function.update_eq_self]
    exact h.chains
  lt_nodeNum := h.lt_nodeNum

/-! ## The operations on lists of nodes -/

/-- Taking the first free node. -/
theorem Table.Laid.taken (h : hash.Laid lists) {node : ℕ} {l : List ℕ}
    (hfree : lists none = node :: l) (key value : ℕ) :
    (hash.taken node key value).Laid (Function.update lists none l) ∧
      ∀ o, node ∉ Function.update lists none l o := by
  obtain ⟨hchains, hnode⟩ := h.chains.pop hfree
  refine ⟨⟨?_, ?_⟩, hnode⟩
  · rw [taken_next, taken_head]
    exact hchains.write hnode none
  · apply h.lt_update
    intro j hj
    apply h.lt_nodeNum none
    simp [hfree, hj]

/-- Filling a bucket with a node that is in no list. -/
theorem Table.Laid.link (h : hash.Laid lists) {node : ℕ}
    (hnode : ∀ o, node ∉ lists o) (hlt : node < hash.nodeNum) (i : ℕ)
    (len : ℤ) :
    ((hash.setNext node (hash.hashNodes i).list).setNode i
      ⟨len, some node⟩).Laid
        (Function.update lists (some i) (node :: lists (some i))) where
  chains := by
    rw [setNode_next, setNode_head, setNext_next, setNext_head]
    exact h.chains.push hnode (some i)
  lt_nodeNum := by
    apply h.lt_update
    intro j hj
    rcases List.mem_cons.mp hj with rfl | hj
    · exact hlt
    · exact h.lt_nodeNum _ j hj

end Uhs.Linked
