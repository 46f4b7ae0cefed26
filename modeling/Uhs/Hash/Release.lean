import Uhs.Hash.Conservation

/-!
# Freeing a table

Model of the loops of `mix_hash_free` over the nodes.  After any history of
calls it frees the linked nodes, each once, and no other: it does not walk the
free list.
-/

namespace Uhs.Linked

open Support

/-- The loop of `mix_hash_free` over the first buckets: the nodes freed. -/
def mixHashFreeBuckets (hash : Table) : ℕ → Option (List ℕ)
  | 0 => some []
  | i + 1 => (mixHashFreeBuckets hash i).bind
      (freeChain hash.next hash.nodeNum (hash.hashNodes i).list)

/-- `mix_hash_free`; `none` when a node is used that has been freed. -/
def mixHashFree (hash : Table) : Option (List ℕ) :=
  mixHashFreeBuckets hash hash.hashSize

/-- All linked nodes are freed, each once; the nodes of the free list are not,
and with the freed ones they are at most those allocated. -/
structure Frees (perBlock : ℕ) (hash : Table) (freed : List ℕ) : Prop where
  nodup : freed.Nodup
  mem_iff : ∀ node, node ∈ freed ↔ node ∈ hash.linked
  kept : ∀ node ∈ hash.freeList, node ∉ freed
  length_le : freed.length + hash.freeList.length ≤ perBlock

/-- `mix_hash_free` would return. -/
def Releases (perBlock : ℕ) (hash : Table) : Prop :=
  ∃ freed, mixHashFree hash = some freed ∧ Frees perBlock hash freed

variable {bucketOf : ℕ → ℕ → ℕ} {hash : Table} {size : ℕ} {n : ℤ}

/-- The buckets have no common node. -/
theorem Table.Sound.nodup_entries (h : hash.Sound) (n : ℕ) :
    (entries n fun i => hash.cells (some i)).Nodup := by
  refine List.nodup_flatMap.mpr ⟨fun i _ => h.chains.nodup (some i), ?_⟩
  refine List.nodup_range.imp fun {i j} hij => ?_
  intro node hi hj
  exact hij (Option.some.inj (h.chains.disjoint _ _ node hi hj))

theorem entries_succ {ε : Type*} (n : ℕ) (b : ℕ → List ε) :
    entries (n + 1) b = entries n b ++ b n := by
  rw [entries, List.range_succ, List.flatMap_append, List.flatMap_singleton]
  rfl

/-- The first buckets are freed without using a freed node. -/
theorem mixHashFreeBuckets_eq (h : hash.Sound) (n : ℕ) :
    mixHashFreeBuckets hash n =
      some (entries n fun i => hash.cells (some i)).reverse := by
  induction n with
  | zero => rfl
  | succ n ih =>
      have hnodup := h.nodup_entries (n + 1)
      rw [entries_succ] at hnodup ⊢
      have hdisjoint := (List.nodup_append.mp hnodup).2.2
      have hchain : Chain hash.next (hash.hashNodes n).list
          (hash.cells (some n)) := h.chains.chain (some n)
      rw [mixHashFreeBuckets, ih, Option.bind_some,
        hchain.freeChain_eq (h.chains.nodup (some n)) ?_ (h.length_le _),
        List.reverse_append]
      intro node hnode hfreed
      exact hdisjoint node (List.mem_reverse.mp hfreed) node hnode rfl

theorem Table.Sound.mixHashFree_eq (h : hash.Sound) :
    mixHashFree hash = some hash.linked.reverse :=
  mixHashFreeBuckets_eq h hash.hashSize

theorem Table.Counted.releases {perBlock : ℕ} (h : hash.Counted size n)
    (hn : n ≤ perBlock) : Releases perBlock hash := by
  refine ⟨_, h.sound.mixHashFree_eq, ?_⟩
  refine
    { nodup := List.nodup_reverse.mpr (h.sound.nodup_entries hash.hashSize)
      mem_iff := fun node => List.mem_reverse
      kept := fun node hfree hmem => ?_
      length_le := ?_ }
  · obtain ⟨i, -, hi⟩ := mem_entries.mp (List.mem_reverse.mp hmem)
    exact absurd (h.sound.chains.disjoint _ _ node hfree hi) (by simp)
  · have htotal := h.total_eq
    have hnum : hash.freeNodeNum = hash.freeList.length :=
      h.lists.freeNodeNum_eq
    rw [List.length_reverse]
    omega

/-- After every history of calls on a fresh table `mix_hash_free` frees the
linked nodes, each once, and uses no node that it has freed. -/
theorem mixHashFree_allStates (bucketOf : ℕ → ℕ → ℕ) (perBlock size : ℕ)
    (hbucket : ∀ key, bucketOf key size < size) (ops : List HashOp) :
    Releases perBlock (mixHashInit perBlock size) ∧
      AllStates (hashStep bucketOf) (Releases perBlock)
        (mixHashInit perBlock size) ops := by
  refine ⟨(mixHashInit_counted perBlock size).releases le_rfl,
    (allStates_of_invariant
      (I := fun hash => ∃ n : ℤ, n ≤ perBlock ∧ hash.Counted size n) ?_
      ⟨perBlock, le_rfl, mixHashInit_counted perBlock size⟩).mono ?_⟩
  · rintro hash op hash' ⟨n, hn, hcounted⟩ hstep
    refine ⟨_, ?_, hcounted.step hbucket hstep⟩
    split <;> omega
  · rintro hash ⟨n, hn, hcounted⟩
    exact hcounted.releases hn

/-- Three keys in one bucket, of which the head and an inner one go. -/
theorem mixHashFree_allStates_colliding :
    Releases 4 (mixHashInit 4 1) ∧
      AllStates (hashStep mixHashHash) (Releases 4) (mixHashInit 4 1)
        [.update (.put 5 0), .update (.put 6 1), .update (.put 7 2),
          .update (.delete 6), .update (.delete 7)] :=
  mixHashFree_allStates mixHashHash 4 1
    (fun key => mixHashHash_lt key Nat.one_pos) _

end Uhs.Linked
