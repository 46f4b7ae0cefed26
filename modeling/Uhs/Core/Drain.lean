import Mathlib.Algebra.BigOperators.Group.List.Basic
import Mathlib.Algebra.Order.BigOperators.Group.List
import Mathlib.Data.List.TakeWhile
import Mathlib.Tactic.Ring
import Uhs.Core.Redirect

/-!
# What a migration does

Draining a bucket moves its pairs to the SSD up to the first sentinel pair,
which is dropped, and leaves the pairs behind it in place.  The passes of all
migrate threads together drain every bucket once.
-/

namespace Uhs

open Support

/-- The pairs of a bucket that a migration copies out. -/
def movedPart (l : List MixKv) : List MixKv :=
  l.takeWhile fun kv => !decide (IsSentinel kv)

/-- The pairs of a bucket that a migration leaves behind. -/
def leftPart (l : List MixKv) : List MixKv :=
  (l.dropWhile fun kv => !decide (IsSentinel kv)).tail

@[simp] theorem movedPart_nil : movedPart [] = [] := rfl

@[simp] theorem leftPart_nil : leftPart [] = [] := rfl

theorem movedPart_cons_of_sentinel {kv : MixKv} (l : List MixKv)
    (h : IsSentinel kv) : movedPart (kv :: l) = [] := by
  simp [movedPart, h]

theorem leftPart_cons_of_sentinel {kv : MixKv} (l : List MixKv)
    (h : IsSentinel kv) : leftPart (kv :: l) = l := by
  simp [leftPart, h]

theorem movedPart_cons_of_not {kv : MixKv} (l : List MixKv)
    (h : ¬ IsSentinel kv) : movedPart (kv :: l) = kv :: movedPart l := by
  simp [movedPart, h]

theorem leftPart_cons_of_not {kv : MixKv} (l : List MixKv)
    (h : ¬ IsSentinel kv) : leftPart (kv :: l) = leftPart l := by
  simp [leftPart, h]

theorem movedPart_sublist (l : List MixKv) : (movedPart l).Sublist l :=
  List.takeWhile_sublist _

theorem leftPart_sublist (l : List MixKv) : (leftPart l).Sublist l :=
  (List.tail_sublist _).trans (List.dropWhile_sublist _)

theorem not_sentinel_of_mem_movedPart {l : List MixKv} {kv : MixKv}
    (h : kv ∈ movedPart l) : ¬ IsSentinel kv := by
  simpa using List.mem_takeWhile_imp h

/-- Without a sentinel pair the whole bucket is moved. -/
theorem movedPart_eq_self {l : List MixKv} (h : ∀ kv ∈ l, ¬ IsSentinel kv) :
    movedPart l = l ∧ leftPart l = [] := by
  induction l with
  | nil => simp
  | cons kv l ih =>
      have hkv := h kv List.mem_cons_self
      obtain ⟨hmoved, hleft⟩ := ih fun e he => h e (List.mem_cons_of_mem _ he)
      rw [movedPart_cons_of_not l hkv, leftPart_cons_of_not l hkv, hmoved]
      exact ⟨rfl, hleft⟩

/-- With a sentinel pair at least that pair is neither moved nor left. -/
theorem length_lt_of_sentinel {l : List MixKv} (h : ∃ kv ∈ l, IsSentinel kv) :
    (movedPart l).length + (leftPart l).length < l.length := by
  induction l with
  | nil => simp at h
  | cons kv l ih =>
      by_cases hkv : IsSentinel kv
      · rw [movedPart_cons_of_sentinel l hkv, leftPart_cons_of_sentinel l hkv]
        simp
      · obtain ⟨e, he, hs⟩ := h
        rcases List.mem_cons.mp he with rfl | he
        · exact absurd hs hkv
        · have := ih ⟨e, he, hs⟩
          rw [movedPart_cons_of_not l hkv, leftPart_cons_of_not l hkv]
          simp only [List.length_cons]
          omega

theorem length_moved_add_left_le (l : List MixKv) :
    (movedPart l).length + (leftPart l).length ≤ l.length := by
  by_cases h : ∃ kv ∈ l, IsSentinel kv
  · exact le_of_lt (length_lt_of_sentinel h)
  · push Not at h
    obtain ⟨hmoved, hleft⟩ := movedPart_eq_self h
    rw [hmoved, hleft]
    simp

variable {σ β : Type*} [BlockDevice σ β]

/-! ## Copying pairs out -/

/-- Copy a list of pairs to the SSD, in order. -/
def moveOut (dev : Devices σ β) (kvs : List MixKv) : Devices σ β :=
  kvs.foldl (fun dev kv => migrateFromBufferToSsd dev kv.2 kv.1) dev

@[simp] theorem moveOut_nil (dev : Devices σ β) : moveOut dev [] = dev := rfl

@[simp] theorem moveOut_cons (dev : Devices σ β) (kv : MixKv)
    (kvs : List MixKv) :
    moveOut dev (kv :: kvs) =
      moveOut (migrateFromBufferToSsd dev kv.2 kv.1) kvs := rfl

theorem moveOut_append (dev : Devices σ β) (kvs kvs' : List MixKv) :
    moveOut dev (kvs ++ kvs') = moveOut (moveOut dev kvs) kvs' :=
  List.foldl_append

theorem migrateFromBufferToSsd_ssdBlock (dev : Devices σ β) (src dst a : ℕ) :
    (migrateFromBufferToSsd dev src dst).ssdBlock a =
      if a = dst then dev.buffer src else dev.ssdBlock a := by
  rw [migrateFromBufferToSsd, mixBufferClear_ssdBlock, mixSsdWrite_ssdBlock]
  have hiff : (dst ≤ a ∧ a < dst + 1) ↔ a = dst := by omega
  simp only [hiff]
  rfl

@[simp] theorem migrateFromBufferToSsd_buffer (dev : Devices σ β)
    (src dst : ℕ) : (migrateFromBufferToSsd dev src dst).buffer = dev.buffer :=
  rfl

@[simp] theorem moveOut_buffer (dev : Devices σ β) (kvs : List MixKv) :
    (moveOut dev kvs).buffer = dev.buffer := by
  induction kvs generalizing dev with
  | nil => rfl
  | cons kv kvs ih => simp [ih]

theorem moveOut_ssdBlock_of_notMem (dev : Devices σ β) {kvs : List MixKv}
    {a : ℕ} (ha : a ∉ kvs.map Prod.fst) :
    (moveOut dev kvs).ssdBlock a = dev.ssdBlock a := by
  induction kvs generalizing dev with
  | nil => rfl
  | cons kv kvs ih =>
      rw [List.map_cons, List.mem_cons, not_or] at ha
      rw [moveOut_cons, ih _ ha.2, migrateFromBufferToSsd_ssdBlock,
        if_neg ha.1]

/-- A block is untouched or holds what the slot of some pair contained. -/
theorem moveOut_ssdBlock_cases (dev : Devices σ β) (kvs : List MixKv)
    (a : ℕ) :
    (moveOut dev kvs).ssdBlock a = dev.ssdBlock a ∨
      ∃ kv ∈ kvs, kv.1 = a ∧
        (moveOut dev kvs).ssdBlock a = dev.buffer kv.2 := by
  induction kvs generalizing dev with
  | nil => exact Or.inl rfl
  | cons e kvs ih =>
      rw [moveOut_cons]
      rcases ih (migrateFromBufferToSsd dev e.2 e.1) with
        hsame | ⟨kv, hkv, ha, hmoved⟩
      · rw [hsame, migrateFromBufferToSsd_ssdBlock]
        by_cases hae : a = e.1
        · exact Or.inr ⟨e, List.mem_cons_self, hae.symm, if_pos hae⟩
        · exact Or.inl (if_neg hae)
      · exact Or.inr ⟨kv, List.mem_cons_of_mem e hkv, ha, hmoved⟩

/-- When equal keys have equal values, every pair reaches its SSD block. -/
theorem moveOut_ssdBlock_of_mem (dev : Devices σ β) {kvs : List MixKv}
    (hfun : ∀ e ∈ kvs, ∀ e' ∈ kvs, e.1 = e'.1 → e.2 = e'.2) {kv : MixKv}
    (hkv : kv ∈ kvs) :
    (moveOut dev kvs).ssdBlock kv.1 = dev.buffer kv.2 := by
  induction kvs generalizing dev kv with
  | nil => simp at hkv
  | cons e kvs ih =>
      have hfun' : ∀ e ∈ kvs, ∀ e' ∈ kvs, e.1 = e'.1 → e.2 = e'.2 :=
        fun e he e' he' => hfun e (List.mem_cons_of_mem _ he) e'
          (List.mem_cons_of_mem _ he')
      rw [moveOut_cons]
      by_cases hmem : kv.1 ∈ kvs.map Prod.fst
      · obtain ⟨e', he', hkey⟩ := List.mem_map.mp hmem
        have hvalue := hfun e' (List.mem_cons_of_mem _ he') kv hkv hkey
        have hmoved := ih (migrateFromBufferToSsd dev e.2 e.1) hfun' he'
        rw [hkey, hvalue] at hmoved
        exact hmoved
      · have hhead : kv = e := by
          rcases List.mem_cons.mp hkv with rfl | hkv
          · rfl
          · exact absurd (List.mem_map_of_mem hkv) hmem
        subst hhead
        rw [moveOut_ssdBlock_of_notMem _ hmem,
          migrateFromBufferToSsd_ssdBlock, if_pos rfl]

theorem migrateFromBufferToSsd_bufferMeta (dev : Devices σ β)
    (src dst p : ℕ) :
    (migrateFromBufferToSsd dev src dst).bufferMeta p =
      if p = src then { dev.bufferMeta p with status := 0 }
      else dev.bufferMeta p := by
  by_cases hp : p = src
  · subst hp
    simp [migrateFromBufferToSsd, mixBufferClear]
  · simp [migrateFromBufferToSsd, mixBufferClear, hp]

/-- The status words of the moved slots are cleared, and nothing else. -/
theorem moveOut_bufferMeta (dev : Devices σ β) (kvs : List MixKv) (p : ℕ) :
    (moveOut dev kvs).bufferMeta p =
      if p ∈ kvs.map Prod.snd then { dev.bufferMeta p with status := 0 }
      else dev.bufferMeta p := by
  induction kvs generalizing dev with
  | nil => simp
  | cons kv kvs ih =>
      rw [moveOut_cons, ih, migrateFromBufferToSsd_bufferMeta, List.map_cons]
      by_cases hmem : p ∈ kvs.map Prod.snd
      · by_cases hp : p = kv.2
        · subst hp
          simp only [hmem, List.mem_cons, true_or, if_true]
        · simp only [hmem, hp, List.mem_cons, or_true, if_true, if_false]
      · simp only [hmem, List.mem_cons, or_false, if_false]

@[simp] theorem moveOut_nvm (dev : Devices σ β) (kvs : List MixKv) :
    (moveOut dev kvs).nvm = dev.nvm := by
  induction kvs generalizing dev with
  | nil => rfl
  | cons kv kvs ih =>
      rw [moveOut_cons, ih]
      rfl

/-! ## Draining buckets -/

/-- The list of one bucket of a segment. -/
def Store.bucket (s : Store σ β) (idx : Fin 4) (i : ℕ) : List MixKv :=
  ((s.metaData.hash idx).hashNodes i).list

/-- Number of nodes that draining a bucket gives back to the free list. -/
def poppedCount (l : List MixKv) : ℕ := l.length - (leftPart l).length

/-- Effect of draining the buckets `is` of segment `idx`. -/
structure Drains (idx : Fin 4) (is : List ℕ) (s s' : Store σ β) : Prop
    extends MixMetadata.SameElsewhere idx s.metaData s'.metaData where
  hashSize : (s'.metaData.hash idx).hashSize = (s.metaData.hash idx).hashSize
  node_mem : ∀ i ∈ is, (s'.metaData.hash idx).hashNodes i =
    ⟨(leftPart (s.bucket idx i)).length, leftPart (s.bucket idx i)⟩
  node_notMem : ∀ i, i ∉ is → (s'.metaData.hash idx).hashNodes i =
    (s.metaData.hash idx).hashNodes i
  freeNodes : (s'.metaData.hash idx).freeNodes =
    (s.metaData.hash idx).freeNodes +
      (is.map fun i => poppedCount (s.bucket idx i)).sum
  bitmap : (s'.metaData.segments idx).bitmap =
    (s.metaData.segments idx).bitmap
  used : (s'.metaData.segments idx).usedBlockNum +
      (is.flatMap fun i => movedPart (s.bucket idx i)).length =
    (s.metaData.segments idx).usedBlockNum
  dev : s'.dev = moveOut s.dev (is.flatMap fun i => movedPart (s.bucket idx i))

theorem Drains.refl (idx : Fin 4) (s : Store σ β) : Drains idx [] s s where
  toSameElsewhere := MixMetadata.SameElsewhere.refl idx s.metaData
  hashSize := rfl
  node_mem := by simp
  node_notMem := fun _ _ => rfl
  freeNodes := by simp
  bitmap := rfl
  used := by simp
  dev := by simp

theorem Drains.bucket_of_notMem {idx : Fin 4} {is : List ℕ}
    {s s' : Store σ β} (h : Drains idx is s s') {i : ℕ} (hi : i ∉ is) :
    s'.bucket idx i = s.bucket idx i := by
  rw [Store.bucket, h.node_notMem i hi, Store.bucket]

theorem Drains.trans {idx : Fin 4} {is js : List ℕ} {s s' s'' : Store σ β}
    (h : Drains idx is s s') (h' : Drains idx js s' s'')
    (hdisj : ∀ i ∈ js, i ∉ is) : Drains idx (is ++ js) s s'' := by
  have hmoved : (js.flatMap fun i => movedPart (s'.bucket idx i)) =
      js.flatMap fun i => movedPart (s.bucket idx i) := by
    apply List.flatMap_congr
    intro i hi
    rw [h.bucket_of_notMem (hdisj i hi)]
  have hpopped : (js.map fun i => poppedCount (s'.bucket idx i)) =
      js.map fun i => poppedCount (s.bucket idx i) := by
    apply List.map_congr_left
    intro i hi
    rw [h.bucket_of_notMem (hdisj i hi)]
  refine
    { toSameElsewhere := h.toSameElsewhere.trans h'.toSameElsewhere
      hashSize := h'.hashSize.trans h.hashSize
      node_mem := ?_
      node_notMem := ?_
      freeNodes := ?_
      bitmap := h'.bitmap.trans h.bitmap
      used := ?_
      dev := ?_ }
  · intro i hi
    by_cases hjs : i ∈ js
    · rw [h'.node_mem i hjs, h.bucket_of_notMem (hdisj i hjs)]
    · have his : i ∈ is := (List.mem_append.mp hi).resolve_right hjs
      rw [h'.node_notMem i hjs, h.node_mem i his]
  · intro i hi
    rw [List.mem_append, not_or] at hi
    rw [h'.node_notMem i hi.2, h.node_notMem i hi.1]
  · rw [h'.freeNodes, h.freeNodes, hpopped, List.map_append, List.sum_append,
      Nat.add_assoc]
  · rw [← h.used, ← h'.used, hmoved, List.flatMap_append, List.length_append]
    push_cast
    ring
  · rw [h'.dev, h.dev, hmoved, List.flatMap_append, moveOut_append]

/-- The index of segment `idx` after a pop of bucket `i`. -/
def popBucket (metaData : MixMetadata) (idx : Fin 4) (i : ℕ)
    (tail : List MixKv) : MixMetadata :=
  let hash := metaData.hash idx
  metaData.setHash idx
    ((mixHashNodeFree hash).setNode i ⟨(hash.hashNodes i).len - 1, tail⟩)

theorem popBucket_node_self (metaData : MixMetadata) (idx : Fin 4) (i : ℕ)
    (tail : List MixKv) :
    ((popBucket metaData idx i tail).hash idx).hashNodes i =
      ⟨((metaData.hash idx).hashNodes i).len - 1, tail⟩ := by
  simp [popBucket, MixHash.setNode]

theorem popBucket_node_of_ne (metaData : MixMetadata) (idx : Fin 4) {i j : ℕ}
    (tail : List MixKv) (hj : j ≠ i) :
    ((popBucket metaData idx i tail).hash idx).hashNodes j =
      (metaData.hash idx).hashNodes j := by
  simp [popBucket, MixHash.setNode, mixHashNodeFree, hj]

/-- The store after one round of the inner loop that moved a pair out. -/
def moveHead (s : Store σ β) (idx : Fin 4) (i : ℕ) (kv : MixKv)
    (tail : List MixKv) : Store σ β where
  metaData := (popBucket s.metaData idx i tail).addUsed idx (-1)
  dev := migrateFromBufferToSsd s.dev kv.2 kv.1

theorem moveHead_node_self (s : Store σ β) (idx : Fin 4) (i : ℕ) (kv : MixKv)
    (tail : List MixKv) :
    ((moveHead s idx i kv tail).metaData.hash idx).hashNodes i =
      ⟨((s.metaData.hash idx).hashNodes i).len - 1, tail⟩ :=
  popBucket_node_self s.metaData idx i tail

@[simp] theorem moveHead_bucket_self (s : Store σ β) (idx : Fin 4) (i : ℕ)
    (kv : MixKv) (tail : List MixKv) :
    (moveHead s idx i kv tail).bucket idx i = tail := by
  rw [Store.bucket, moveHead_node_self]

theorem moveHead_freeNodes (s : Store σ β) (idx : Fin 4) (i : ℕ)
    (kv : MixKv) (tail : List MixKv) :
    ((moveHead s idx i kv tail).metaData.hash idx).freeNodes =
      (s.metaData.hash idx).freeNodes + 1 := by
  simp [moveHead, popBucket, mixHashNodeFree]

theorem moveHead_segment_self (s : Store σ β) (idx : Fin 4) (i : ℕ)
    (kv : MixKv) (tail : List MixKv) :
    (moveHead s idx i kv tail).metaData.segments idx =
      { s.metaData.segments idx with
        usedBlockNum := (s.metaData.segments idx).usedBlockNum - 1 } := by
  simp [moveHead, popBucket, sub_eq_add_neg]

/-- Draining a bucket whose head is no sentinel moves the head first. -/
theorem Drains.of_moveHead {idx : Fin 4} {i : ℕ} {s s' : Store σ β}
    {kv : MixKv} {tail : List MixKv} (hlist : s.bucket idx i = kv :: tail)
    (hkv : ¬ IsSentinel kv)
    (hrest : Drains idx [i] (moveHead s idx i kv tail) s') :
    Drains idx [i] s s' where
  toSameElsewhere :=
    ((MixMetadata.sameElsewhere_setHash _ _ _).trans
      (MixMetadata.sameElsewhere_addUsed _ _ _)).trans hrest.toSameElsewhere
  hashSize := by
    rw [hrest.hashSize]
    simp [moveHead, popBucket]
  node_mem := by
    intro j hj
    rw [hrest.node_mem j hj, List.mem_singleton.mp hj, moveHead_bucket_self,
      hlist, leftPart_cons_of_not tail hkv]
  node_notMem := by
    intro j hj
    rw [hrest.node_notMem j hj]
    exact popBucket_node_of_ne _ _ _ (by simpa using hj)
  freeNodes := by
    have hle := (leftPart_sublist tail).length_le
    rw [hrest.freeNodes, moveHead_freeNodes]
    simp only [List.map_cons, List.map_nil, List.sum_cons, List.sum_nil,
      moveHead_bucket_self, hlist, poppedCount, leftPart_cons_of_not tail hkv,
      List.length_cons]
    omega
  bitmap := by
    rw [hrest.bitmap, moveHead_segment_self]
  used := by
    have hused := hrest.used
    rw [moveHead_segment_self] at hused
    simp only [List.flatMap_cons, List.flatMap_nil, List.append_nil,
      moveHead_bucket_self] at hused
    simp only [List.flatMap_cons, List.flatMap_nil, List.append_nil, hlist,
      movedPart_cons_of_not tail hkv, List.length_cons]
    push_cast
    omega
  dev := by
    rw [hrest.dev]
    simp only [List.flatMap_cons, List.flatMap_nil, List.append_nil,
      moveHead_bucket_self, hlist, movedPart_cons_of_not tail hkv,
      moveOut_cons]
    rfl

/-- Draining a bucket whose head is a sentinel drops that pair only. -/
theorem drains_popBucket_of_sentinel {idx : Fin 4} {i : ℕ} {s : Store σ β}
    {kv : MixKv} {tail : List MixKv} (hlist : s.bucket idx i = kv :: tail)
    (hkv : IsSentinel kv)
    (hlen : ((s.metaData.hash idx).hashNodes i).len - 1 = tail.length) :
    Drains idx [i] s
      { s with metaData := popBucket s.metaData idx i tail } where
  toSameElsewhere := MixMetadata.sameElsewhere_setHash _ _ _
  hashSize := by simp [popBucket]
  node_mem := by
    simp [hlist, leftPart_cons_of_sentinel tail hkv, popBucket_node_self, hlen]
  node_notMem := fun _ hj =>
    popBucket_node_of_ne _ _ _ (by simpa using hj)
  freeNodes := by
    simp [hlist, poppedCount, popBucket, mixHashNodeFree,
      leftPart_cons_of_sentinel tail hkv]
  bitmap := rfl
  used := by simp [hlist, movedPart_cons_of_sentinel tail hkv, popBucket]
  dev := by simp [hlist, movedPart_cons_of_sentinel tail hkv]

theorem drains_empty_bucket {idx : Fin 4} {i : ℕ} {s : Store σ β}
    (hnode : (s.metaData.hash idx).hashNodes i = ⟨0, []⟩) :
    Drains idx [i] s
      { s with metaData :=
          s.metaData.setHash idx (s.metaData.hash idx) } := by
  have hlist : s.bucket idx i = [] := by rw [Store.bucket, hnode]
  exact
    { toSameElsewhere := MixMetadata.sameElsewhere_setHash _ _ _
      hashSize := by simp
      node_mem := by simpa [hlist] using hnode
      node_notMem := by simp
      freeNodes := by simp [hlist, poppedCount]
      bitmap := rfl
      used := by simp [hlist]
      dev := by simp [hlist] }

/-- The inner loop of a migrate thread, with enough rounds. -/
theorem migrateBucket_drains {idx : Fin 4} {i fuel : ℕ} {s : Store σ β}
    (hlen : ((s.metaData.hash idx).hashNodes i).len =
      (s.bucket idx i).length)
    (hfuel : (s.bucket idx i).length < fuel) :
    Drains idx [i] s (migrateBucket idx i fuel s) := by
  induction fuel generalizing s with
  | zero => omega
  | succ fuel ih =>
      cases hlist : s.bucket idx i with
      | nil =>
          rw [hlist, List.length_nil, Nat.cast_zero] at hlen
          have hnode : (s.metaData.hash idx).hashNodes i = ⟨0, []⟩ := by
            rw [← hlen, ← hlist]
            rfl
          have hsentinel : IsSentinel (uint32Max, uint32Max) := Or.inl rfl
          rw [migrateBucket, mixHashGetEntryByIdx_nil hlen.le]
          simp only [hsentinel, if_true]
          exact drains_empty_bucket hnode
      | cons kv tail =>
          rw [hlist, List.length_cons] at hlen hfuel
          have hpos : 0 < ((s.metaData.hash idx).hashNodes i).len := by
            rw [hlen]
            omega
          have hlenTail : ((s.metaData.hash idx).hashNodes i).len - 1 =
              tail.length := by
            rw [hlen]
            simp
          rw [migrateBucket, mixHashGetEntryByIdx_cons hpos hlist]
          by_cases hkv : IsSentinel kv
          · simp only [hkv, if_true]
            exact drains_popBucket_of_sentinel hlist hkv hlenTail
          · simp only [hkv, if_false]
            refine Drains.of_moveHead hlist hkv (ih ?_ ?_)
            · rw [moveHead_bucket_self, moveHead_node_self]
              exact hlenTail
            · rw [moveHead_bucket_self]
              omega

/-! ## All buckets of a segment -/

theorem foldl_drainBucket_drains {idx : Fin 4} {is : List ℕ} {s : Store σ β}
    (hnodup : is.Nodup)
    (hlen : ∀ i ∈ is, ((s.metaData.hash idx).hashNodes i).len =
      (s.bucket idx i).length) :
    Drains idx is s (is.foldl (drainBucket idx) s) := by
  induction is generalizing s with
  | nil => exact Drains.refl idx s
  | cons i is ih =>
      rw [List.nodup_cons] at hnodup
      have hfirst : Drains idx [i] s (drainBucket idx s i) :=
        migrateBucket_drains (hlen i List.mem_cons_self)
          (Nat.lt_succ_self _)
      have hnotMem : ∀ j ∈ is, j ∉ [i] := by
        intro j hj hji
        rw [List.mem_singleton] at hji
        exact hnodup.1 (hji ▸ hj)
      have hrest := ih (s := drainBucket idx s i) hnodup.2 (by
        intro j hj
        rw [hfirst.bucket_of_notMem (hnotMem j hj),
          hfirst.node_notMem j (hnotMem j hj)]
        exact hlen j (List.mem_cons_of_mem i hj))
      exact hfirst.trans hrest hnotMem

/-- The buckets that the migrate threads of a segment visit, in the order of
the sequential run. -/
def visited (n threads : ℕ) : List ℕ :=
  (List.range threads).flatMap (stride n threads)

theorem foldl_migrateThread_eq {idx : Fin 4} {n threads : ℕ} (ts : List ℕ)
    {s : Store σ β} (hsize : (s.metaData.hash idx).hashSize = n)
    (hthreads : s.metaData.migrateThreadNum = threads)
    (hnodup : (ts.flatMap (stride n threads)).Nodup)
    (hlen : ∀ i ∈ ts.flatMap (stride n threads),
      ((s.metaData.hash idx).hashNodes i).len = (s.bucket idx i).length) :
    ts.foldl (migrateThread idx) s =
      (ts.flatMap (stride n threads)).foldl (drainBucket idx) s := by
  induction ts generalizing s with
  | nil => rfl
  | cons t ts ih =>
      rw [List.flatMap_cons] at hnodup hlen
      have hfirst : Drains idx (stride n threads t) s
          (migrateThread idx s t) := by
        rw [migrateThread, hsize, hthreads]
        exact foldl_drainBucket_drains hnodup.of_append_left
          fun i hi => hlen i (List.mem_append_left _ hi)
      have hdisj := List.disjoint_of_nodup_append hnodup
      rw [List.foldl_cons, List.flatMap_cons, List.foldl_append,
        ih (hfirst.hashSize.trans hsize)
          (hfirst.migrateThreadNum.trans hthreads) hnodup.of_append_right]
      · rw [migrateThread, hsize, hthreads]
      · intro i hi
        have hnot : i ∉ stride n threads t := fun h => hdisj h hi
        rw [hfirst.node_notMem i hnot, hfirst.bucket_of_notMem hnot]
        exact hlen i (List.mem_append_right _ hi)

theorem visited_perm_range (n : ℕ) {threads : ℕ} (hthreads : 0 < threads) :
    (visited n threads).Perm (List.range n) :=
  flatMap_stride_perm_range n hthreads

/-- Effect of a whole migration of segment `idx` that copied the pairs `es`
out, in this order. -/
structure Migrated (idx : Fin 4) (es : List MixKv) (s s' : Store σ β) :
    Prop extends MixMetadata.SameElsewhere idx s.metaData s'.metaData where
  hashSize : (s'.metaData.hash idx).hashSize = (s.metaData.hash idx).hashSize
  wf : (s'.metaData.hash idx).Wf
  bucket : ∀ i < (s.metaData.hash idx).hashSize,
    s'.bucket idx i = leftPart (s.bucket idx i)
  freeNodes : (s'.metaData.hash idx).freeNodes =
    (s.metaData.hash idx).freeNodes +
      ((List.range (s.metaData.hash idx).hashSize).map fun i =>
        poppedCount (s.bucket idx i)).sum
  bitmap : (s'.metaData.segments idx).bitmap =
    mixBitmapClear (s.metaData.segments idx).bitmap
  used : (s'.metaData.segments idx).usedBlockNum + es.length =
    (s.metaData.segments idx).usedBlockNum
  moved : es.Perm (entries (s.metaData.hash idx).hashSize fun i =>
    movedPart (s.bucket idx i))
  dev : s'.dev = moveOut s.dev es

/-- A migration drains every bucket once and then clears the bitmap. -/
theorem mixMigrateSegment_migrated {idx : Fin 4} {s : Store σ β}
    (hthreads : 0 < s.metaData.migrateThreadNum)
    (hwf : (s.metaData.hash idx).Wf) :
    ∃ es, Migrated idx es s (mixMigrateSegment s idx) := by
  set n := (s.metaData.hash idx).hashSize with hn
  have hperm := visited_perm_range n hthreads
  have hnodup := hperm.nodup_iff.mpr List.nodup_range
  have hmem : ∀ i, i ∈ visited n s.metaData.migrateThreadNum ↔ i < n :=
    fun i => hperm.mem_iff.trans List.mem_range
  have hlen : ∀ i ∈ visited n s.metaData.migrateThreadNum,
      ((s.metaData.hash idx).hashNodes i).len = (s.bucket idx i).length :=
    fun i hi => hwf.len_eq i ((hmem i).mp hi)
  have hdrains := foldl_drainBucket_drains hnodup hlen
  rw [mixMigrateSegment, foldl_migrateThread_eq _ hn.symm rfl hnodup hlen]
  change ∃ es, Migrated idx es s (mixSegmentMigrationEnd
    ((visited n s.metaData.migrateThreadNum).foldl (drainBucket idx) s) idx)
  generalize (visited n s.metaData.migrateThreadNum).foldl (drainBucket idx) s
    = s₁ at hdrains
  have hnode : ∀ i < n, (s₁.metaData.hash idx).hashNodes i =
      ⟨(leftPart (s.bucket idx i)).length, leftPart (s.bucket idx i)⟩ :=
    fun i hi => hdrains.node_mem i ((hmem i).mpr hi)
  refine ⟨(visited n s.metaData.migrateThreadNum).flatMap fun i =>
    movedPart (s.bucket idx i), ?_⟩
  exact
    { toSameElsewhere := hdrains.toSameElsewhere.trans
        (MixMetadata.sameElsewhere_setBitmap _ _ _)
      hashSize := hdrains.hashSize
      wf := by
        refine ⟨?_, ?_, ?_⟩
        · exact hdrains.hashSize ▸ hwf.size_pos
        · intro i hi
          have hi' : i < n := by
            rw [hn, ← hdrains.hashSize]
            exact hi
          simp [mixSegmentMigrationEnd, hnode i hi']
        · intro i hi kv hkv
          have hi' : i < n := by
            rw [hn, ← hdrains.hashSize]
            exact hi
          simp only [MixHash.buckets, mixSegmentMigrationEnd,
            MixMetadata.setBitmap_hash, hnode i hi'] at hkv
          simp only [mixSegmentMigrationEnd, MixMetadata.setBitmap_hash,
            hdrains.hashSize]
          exact hwf.placed i hi' kv ((leftPart_sublist _).subset hkv)
      bucket := by
        intro i hi
        simp [Store.bucket, mixSegmentMigrationEnd, hnode i hi]
      freeNodes := by
        have hsum := (hperm.map fun i =>
          poppedCount (s.bucket idx i)).sum_eq
        simp only [mixSegmentMigrationEnd, MixMetadata.setBitmap_hash,
          hdrains.freeNodes, hsum]
        rw [hn]
      bitmap := by
        simp [mixSegmentMigrationEnd, hdrains.bitmap]
      used := by
        simpa [mixSegmentMigrationEnd] using hdrains.used
      moved := hperm.flatMap_right _
      dev := hdrains.dev }

variable {idx : Fin 4} {es : List MixKv} {s s' : Store σ β}

theorem Migrated.entries_eq (h : Migrated idx es s s') :
    (s'.metaData.hash idx).entries =
      entries (s.metaData.hash idx).hashSize fun i =>
        leftPart (s.bucket idx i) := by
  rw [MixHash.entries, h.hashSize]
  exact entries_congr h.bucket

/-- Without a sentinel key everything is moved out. -/
theorem Migrated.of_sentinelFree (h : Migrated idx es s s')
    (hfree : ∀ kv ∈ (s.metaData.hash idx).entries, ¬ IsSentinel kv) :
    es.Perm (s.metaData.hash idx).entries ∧
      (s'.metaData.hash idx).entries = [] ∧
      (s'.metaData.hash idx).freeNodes =
        (s.metaData.hash idx).freeNodes +
          (s.metaData.hash idx).entries.length := by
  have hbucket : ∀ i < (s.metaData.hash idx).hashSize,
      movedPart (s.bucket idx i) = s.bucket idx i ∧
        leftPart (s.bucket idx i) = [] := by
    intro i hi
    apply movedPart_eq_self
    intro kv hkv
    exact hfree kv (mem_entries.mpr ⟨i, hi, hkv⟩)
  refine ⟨?_, ?_, ?_⟩
  · refine h.moved.trans (List.Perm.of_eq ?_)
    exact entries_congr fun i hi => (hbucket i hi).1
  · rw [h.entries_eq, entries_eq_nil_iff]
    exact fun i hi => (hbucket i hi).2
  · rw [h.freeNodes, MixHash.entries, Support.entries, List.length_flatMap]
    congr 2
    apply List.map_congr_left
    intro i hi
    have hi' := List.mem_range.mp hi
    rw [poppedCount, (hbucket i hi').2]
    simp [Store.bucket, MixHash.buckets]

/-- A sentinel key is lost: it is neither moved out nor left in the table. -/
theorem Migrated.length_lt (h : Migrated idx es s s')
    (hsentinel : ∃ kv ∈ (s.metaData.hash idx).entries, IsSentinel kv) :
    es.length + (s'.metaData.hash idx).entries.length <
      (s.metaData.hash idx).entries.length := by
  obtain ⟨kv, hkv, hs⟩ := hsentinel
  obtain ⟨i, hi, hmem⟩ := mem_entries.mp hkv
  rw [h.entries_eq, h.moved.length_eq, MixHash.entries, Support.entries,
    Support.entries, Support.entries, List.length_flatMap,
    List.length_flatMap, List.length_flatMap, ← List.sum_map_add]
  apply List.sum_lt_sum
  · intro j _
    exact length_moved_add_left_le _
  · exact ⟨i, List.mem_range.mpr hi, length_lt_of_sentinel ⟨kv, hmem, hs⟩⟩

end Uhs
