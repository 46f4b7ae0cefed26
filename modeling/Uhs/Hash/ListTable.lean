import Uhs.Hash.Nodes

/-!
# The nodes refine the lists

On a table whose free list and buckets end and share no node, every operation
on nodes returns exactly when its counterpart on lists does, and the tables it
returns stand for the same lists.
-/

namespace Uhs.Linked

open Support

variable {hash hash' : Table}

/-! ## Initialisation -/

/-- The free list after `n` nodes were allocated; every bucket is empty. -/
def initLists (n : ℕ) : Option ℕ → List ℕ
  | none => (List.range n).reverse
  | some _ => []

theorem initLists_succ (n : ℕ) :
    initLists (n + 1) =
      Function.update (initLists n) none (n :: initLists n none) := by
  funext o
  rcases o with - | i
  · simp [initLists, List.range_succ]
  · rfl

theorem notMem_initLists (n : ℕ) (o : Option ℕ) : n ∉ initLists n o := by
  rcases o with - | i
  · simp [initLists]
  · simp [initLists]

theorem mixHashInitNodes_chains {n : ℕ}
    (h : Chains hash.next hash.head (initLists 0)) :
    Chains (mixHashInitNodes n hash).next (mixHashInitNodes n hash).head
      (initLists n) := by
  induction n with
  | zero => exact h
  | succ n ih =>
      have hpush := ih.push (notMem_initLists n) none
      rw [initLists_succ]
      have hnext : (mixHashInitNodes (n + 1) hash).next =
          Function.update (mixHashInitNodes n hash).next n
            ((mixHashInitNodes n hash).head none) :=
        next_update _ _ _
      have hhead : (mixHashInitNodes (n + 1) hash).head =
          Function.update (mixHashInitNodes n hash).head none (some n) := by
        funext o
        rcases o with - | i
        · rfl
        · rfl
      rw [hnext, hhead]
      exact hpush

theorem mixHashInitNodes_fields (n : ℕ) (hash : Table) :
    (mixHashInitNodes n hash).hashSize = hash.hashSize ∧
      (mixHashInitNodes n hash).hashNodes = hash.hashNodes ∧
      (mixHashInitNodes n hash).freeNodeNum = hash.freeNodeNum ∧
      (mixHashInitNodes n hash).nodeNum = hash.nodeNum := by
  induction n with
  | zero => exact ⟨rfl, rfl, rfl, rfl⟩
  | succ n ih => exact ih

theorem mixHashInit_laid (perBlock size : ℕ) :
    (mixHashInit perBlock size).Laid (initLists perBlock) where
  chains := by
    apply mixHashInitNodes_chains
    constructor
    · intro o
      rcases o with - | i
      · rfl
      · rfl
    · intro o
      rcases o with - | i
      · simp [initLists]
      · simp [initLists]
    · intro o o' a ha
      rcases o with - | i
      · simp [initLists] at ha
      · simp [initLists] at ha
  lt_nodeNum := by
    intro o node hnode
    have hfields := mixHashInitNodes_fields perBlock
      { hashSize := size
        hashNodes := fun _ => ⟨0, none⟩
        freeNodeHead := none
        freeNodeNum := perBlock
        nodes := fun _ => ⟨0, 0, none⟩
        nodeNum := perBlock }
    rw [mixHashInit, hfields.2.2.2]
    rcases o with - | i
    · simpa [initLists] using hnode
    · simp [initLists] at hnode

theorem mixHashInit_sound (perBlock size : ℕ) :
    (mixHashInit perBlock size).Sound :=
  (mixHashInit_laid perBlock size).sound

theorem mixHashInit_toMixHash (perBlock size : ℕ) :
    (mixHashInit perBlock size).toMixHash = Uhs.mixHashInit perBlock size := by
  rw [(mixHashInit_laid perBlock size).toMixHash_eq]
  obtain ⟨hsize, hnodes, hnum, -⟩ := mixHashInitNodes_fields perBlock
    { hashSize := size
      hashNodes := fun _ => ⟨0, none⟩
      freeNodeHead := none
      freeNodeNum := perBlock
      nodes := fun _ => ⟨0, 0, none⟩
      nodeNum := perBlock }
  simp [Table.readOff, mixHashInit, Uhs.mixHashInit, hsize, hnodes, hnum,
    initLists]

/-! ## Finding a key -/

/-- A search of a bucket ends, at the first node with the key if there is
one. -/
theorem Table.Sound.find_cases (h : hash.Sound) (i key : ℕ) :
    ((∀ node ∈ hash.cells (some i), (hash.pair node).1 ≠ key) ∧
      ∃ last, hash.find i key = some (last, none)) ∨
    ∃ pre cur post, hash.cells (some i) = pre ++ cur :: post ∧
      (∀ node ∈ pre, (hash.pair node).1 ≠ key) ∧ (hash.pair cur).1 = key ∧
      hash.find i key = some (pre.getLast?, some cur) := by
  have hchain := h.chains.chain (some i)
  have hlength := h.length_le (some i)
  rcases exists_first (fun node => (hash.nodes node).key == key)
    (hash.cells (some i)) with hnone | ⟨pre, cur, post, hl, hpre, hcur⟩
  · left
    constructor
    · simpa [Table.pair] using hnone
    · exact search_of_forall hchain hnone hlength
  · right
    refine ⟨pre, cur, post, hl, by simpa [Table.pair] using hpre,
      by simpa [Table.pair] using hcur, ?_⟩
    rw [hl] at hchain hlength
    have hlt : pre.length < hash.nodeNum := by
      rw [List.length_append, List.length_cons] at hlength
      omega
    rw [Table.find, ← Option.or_none (o := pre.getLast?)]
    exact search_of_split hchain hpre hcur hlt

/-- `mix_hash_get` returns, with the result on the lists. -/
theorem mixHashGetAt_eq (h : hash.Sound) (i key : ℕ) :
    mixHashGetAt hash i key = some (Uhs.mixHashGetAt hash.toMixHash i key) := by
  rw [mixHashGetAt, Uhs.mixHashGetAt]
  have hlist : (hash.toMixHash.hashNodes i).list =
      (hash.cells (some i)).map hash.pair := rfl
  rcases h.find_cases i key with ⟨hnone, last, hfind⟩ |
    ⟨pre, cur, post, hl, hpre, rfl, hfind⟩
  · have hlook : lookupKey ((hash.cells (some i)).map hash.pair) key = none :=
      lookupKey_eq_none_iff.mpr (List.forall_mem_map.mpr hnone)
    rw [hfind, hlist, hlook]
    rfl
  · have hlook : lookupKey ((hash.cells (some i)).map hash.pair)
        (hash.pair cur).1 = some (hash.pair cur).2 := by
      rw [hl, List.map_append, List.map_cons]
      exact lookupKey_of_split (List.forall_mem_map.mpr hpre)
    rw [hfind, hlist, hlook]
    rfl

/-! ## Put -/

theorem mixHashPutAt_eq (h : hash.Sound) (i key value : ℕ) :
    (mixHashPutAt hash i key value).map Table.toMixHash =
        Uhs.mixHashPutAt hash.toMixHash i key value ∧
      ∀ hash', mixHashPutAt hash i key value = some hash' → hash'.Sound := by
  have hchain := h.chains.chain none
  rcases hfree : hash.freeNodeHead with - | node
  · have hhead : hash.head none = none := hfree
    rw [hhead] at hchain
    have hput : mixHashPutAt hash i key value = none := by
      simp [mixHashPutAt, mixHashNodeGet, hfree]
    have hnil : hash.toMixHash.freeNodes = 0 :=
      List.length_eq_zero_iff.mpr hchain.eq_nil
    rw [hput]
    constructor
    · simp [Uhs.mixHashPutAt, Uhs.mixHashNodeGet, hnil]
    · intro hash' h'
      cases h'
  · have hhead : hash.head none = some node := hfree
    rw [hhead] at hchain
    obtain ⟨l, hl⟩ := hchain.eq_cons
    obtain ⟨hlaid, hnode⟩ := Table.Laid.taken h hl key value
    have hlt : node < hash.nodeNum := h.lt_nodeNum none node (by simp [hl])
    have hput : mixHashPutAt hash i key value =
        some (((hash.taken node key value).setNext node
          ((hash.taken node key value).hashNodes i).list).setNode i
            ⟨((hash.taken node key value).hashNodes i).len + 1, some node⟩) := by
      rw [mixHashPutAt, mixHashNodeGet, hfree]
      rfl
    have hlinked := hlaid.link hnode hlt i
      (((hash.taken node key value).hashNodes i).len + 1)
    rw [hput]
    constructor
    · rw [Option.map_some, hlinked.toMixHash_eq, Uhs.mixHashPutAt,
        Table.toMixHash, readOff_taken hash hl hnode key value, Option.map_some,
        readOff_setNode, readOff_setNext, setNext_pair, List.map_cons,
        taken_pair_self]
      rfl
    · intro hash' h'
      rw [← Option.some.inj h']
      exact hlinked.sound

/-! ## Delete -/

/-- A node that stands behind others is not the head. -/
theorem Table.Sound.head_ne (h : hash.Sound) {i cur prev : ℕ} {pre post : List ℕ}
    (hl : hash.cells (some i) = pre ++ [prev] ++ cur :: post)
    (hcur : cur ∉ pre ++ [prev]) : some cur ≠ hash.head (some i) := by
  intro heq
  have hchain := h.chains.chain (some i)
  rw [← heq] at hchain
  obtain ⟨l, hcons⟩ := hchain.eq_cons
  rw [hcons] at hl
  apply hcur
  rcases pre with - | ⟨a, pre⟩
  · simp only [List.nil_append, List.cons_append, List.cons.injEq] at hl
    simp [hl.1]
  · simp only [List.cons_append, List.cons.injEq] at hl
    simp [hl.1]

/-- A delete always returns. -/
theorem mixHashDeleteAt_eq (h : hash.Sound) (i key : ℕ) :
    ∃ hash', mixHashDeleteAt hash i key = some hash' ∧ hash'.Sound ∧
      hash'.toMixHash = Uhs.mixHashDeleteAt hash.toMixHash i key := by
  have hlist : (hash.toMixHash.hashNodes i).list =
      (hash.cells (some i)).map hash.pair := rfl
  have hchain := h.chains.chain (some i)
  rcases h.find_cases i key with ⟨hnone, last, hfind⟩ |
    ⟨pre, cur, post, hl, hpre, rfl, hfind⟩
  · have hlaid := h.setLen i ((hash.hashNodes i).len - 1)
    refine ⟨_, by rw [mixHashDeleteAt, hfind]; rfl, hlaid.sound, ?_⟩
    have hlisted : ∀ kv ∈ (hash.toMixHash.hashNodes i).list, kv.1 ≠ key :=
      List.forall_mem_map.mpr hnone
    rw [hlaid.toMixHash_eq, Uhs.mixHashDeleteAt_of_forall_ne hlisted]
    have hread := readOff_setNode hash hash.cells i
      ⟨(hash.hashNodes i).len - 1, (hash.hashNodes i).list⟩ (hash.cells (some i))
    rw [Function.update_eq_self] at hread
    rw [hread]
    rfl
  · rcases List.eq_nil_or_concat pre with rfl | ⟨pre, prev, rfl⟩
    · have hhead : hash.head (some i) = some cur := by
        rw [hl] at hchain
        exact hchain.1
      obtain ⟨hlaid, -⟩ := Table.Laid.unlinkHead h hl
        ((hash.hashNodes i).len - 1)
      refine ⟨_, ?_, hlaid.sound, ?_⟩
      · rw [mixHashDeleteAt, hfind]
        exact if_pos hhead.symm
      · rw [hlaid.toMixHash_eq, readOff_setNode,
          Uhs.mixHashDeleteAt_head (by rw [hlist, hl]; rfl)]
        rfl
    · rw [List.concat_eq_append] at hl hpre hfind
      rw [List.getLast?_concat] at hfind
      have hhead : some cur ≠ hash.head (some i) :=
        h.head_ne hl fun hmem => hpre cur hmem rfl
      rw [List.append_assoc, List.singleton_append] at hl
      obtain ⟨hlaid, hcur⟩ := Table.Laid.unlinkInner h hl
        ((hash.hashNodes i).len - 1)
      have hlt : cur < hash.nodeNum := h.lt_nodeNum (some i) cur (by simp [hl])
      have hfreed := hlaid.nodeFree hcur hlt
      refine ⟨_, ?_, hfreed.sound, ?_⟩
      · rw [mixHashDeleteAt, hfind]
        exact if_neg hhead
      · rw [hfreed.toMixHash_eq, readOff_nodeFree _ hcur, readOff_setNode,
          readOff_setNext, setNext_pair]
        have hsplit : (hash.toMixHash.hashNodes i).list =
            (pre ++ [prev]).map hash.pair ++
              hash.pair cur :: post.map hash.pair := by
          rw [hlist, hl]
          simp
        rw [Uhs.mixHashDeleteAt_inner hsplit (by simp)
          (List.forall_mem_map.mpr hpre)]
        simp only [List.map_append, List.map_cons, List.map_nil,
          List.append_assoc, List.cons_append, List.nil_append]
        rfl

/-! ## Popping a bucket -/

/-- While no length exceeds its list, popping a bucket returns. -/
theorem mixHashGetEntryByIdx_eq (h : hash.Sound) {i : ℕ}
    (hlen : (hash.toMixHash.hashNodes i).len ≤
      (hash.toMixHash.hashNodes i).list.length) :
    ∃ kv hash', mixHashGetEntryByIdx hash i = some (kv, hash') ∧
      hash'.Sound ∧ Uhs.mixHashGetEntryByIdx hash.toMixHash i =
        (kv, hash'.toMixHash) := by
  have hlist : (hash.toMixHash.hashNodes i).list =
      (hash.cells (some i)).map hash.pair := rfl
  have hchain := h.chains.chain (some i)
  by_cases hpos : 0 < (hash.hashNodes i).len
  · rcases hl : hash.cells (some i) with - | ⟨head, l⟩
    · rw [hlist, hl] at hlen
      exact absurd hpos (not_lt.mpr hlen)
    · have hhead : hash.head (some i) = some head := by
        rw [hl] at hchain
        exact hchain.1
      obtain ⟨hlaid, hnode⟩ := Table.Laid.unlinkHead h hl
        ((hash.hashNodes i).len - 1)
      have hlt : head < hash.nodeNum := h.lt_nodeNum (some i) head (by simp [hl])
      have hfreed := hlaid.nodeFree hnode hlt
      have hlisted : (hash.hashNodes i).list = some head := hhead
      refine ⟨hash.pair head, _, ?_, hfreed.sound, ?_⟩
      · rw [mixHashGetEntryByIdx]
        simp only [hpos, hlisted, if_true, Option.map_some]
        rfl
      · rw [hfreed.toMixHash_eq, readOff_nodeFree _ hnode, readOff_setNode]
        rw [Uhs.mixHashGetEntryByIdx_cons hpos (by rw [hlist, hl]; rfl)]
        rfl
  · refine ⟨_, hash, by rw [mixHashGetEntryByIdx]; exact if_neg hpos, h, ?_⟩
    exact Uhs.mixHashGetEntryByIdx_nil (not_lt.mp hpos)

end Uhs.Linked
