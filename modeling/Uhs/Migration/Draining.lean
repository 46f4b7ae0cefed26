import Uhs.Core.Drain
import Uhs.Migration.Handshake
import Uhs.Support.Runs

/-!
# What the threads drain

The invariant of the table of the segment that is being migrated.  A thread
that has counted, or has moved on to a later bucket, has emptied the buckets of
its residue class; the pairs passed to `migrate_from_buffer_to_ssd` and the
pairs still in the table are those of the start; and the counter of used
blocks lags behind by the pairs that are being copied.
-/

namespace Uhs

open Support

/-- Lengths are right and no pair ends a drain. -/
structure TableOk (hash : MixHash) : Prop where
  len_eq : ∀ i < hash.hashSize,
    (hash.hashNodes i).len = (hash.hashNodes i).list.length
  sentinelFree : ∀ i < hash.hashSize, ∀ kv ∈ (hash.hashNodes i).list,
    ¬ IsSentinel kv

/-- Popping the empty bucket ends its drain. -/
theorem TableOk.pop_nil {hash : MixHash} (h : TableOk hash) {i : ℕ}
    (hi : i < hash.hashSize) (hnil : (hash.hashNodes i).list = []) :
    mixHashGetEntryByIdx hash i = ((uint32Max, uint32Max), hash) := by
  apply mixHashGetEntryByIdx_nil
  rw [h.len_eq i hi, hnil]
  rfl

/-- The table after the head of bucket `i` has been popped. -/
def MixHash.popped (hash : MixHash) (i : ℕ) (tail : List MixKv) : MixHash :=
  (mixHashNodeFree hash).setNode i ⟨(hash.hashNodes i).len - 1, tail⟩

theorem MixHash.popped_node_self (hash : MixHash) (i : ℕ)
    (tail : List MixKv) :
    (hash.popped i tail).hashNodes i = ⟨(hash.hashNodes i).len - 1, tail⟩ := by
  simp [popped, setNode]

theorem MixHash.popped_node_of_ne (hash : MixHash) {i j : ℕ}
    (tail : List MixKv) (hj : j ≠ i) :
    (hash.popped i tail).hashNodes j = hash.hashNodes j := by
  simp [popped, setNode, mixHashNodeFree, hj]

theorem MixHash.popped_entries {hash : MixHash} {i : ℕ} {kv : MixKv}
    {tail : List MixKv} (hi : i < hash.hashSize)
    (hlist : (hash.hashNodes i).list = kv :: tail) :
    hash.entries.Perm (kv :: (hash.popped i tail).entries) := by
  rw [MixHash.entries, MixHash.entries, popped, MixHash.setNode_buckets]
  exact entries_perm_append_update (l := [kv]) hi (by
    rw [MixHash.buckets, hlist]
    rfl)

theorem TableOk.pop_cons {hash : MixHash} (h : TableOk hash) {i : ℕ}
    (hi : i < hash.hashSize) {kv : MixKv} {tail : List MixKv}
    (hlist : (hash.hashNodes i).list = kv :: tail) :
    mixHashGetEntryByIdx hash i = (kv, hash.popped i tail) ∧
      ¬ IsSentinel kv ∧ TableOk (hash.popped i tail) := by
  have hlen := h.len_eq i hi
  rw [hlist, List.length_cons] at hlen
  have hmem : ∀ e ∈ kv :: tail, ¬ IsSentinel e :=
    hlist ▸ h.sentinelFree i hi
  refine ⟨mixHashGetEntryByIdx_cons (by omega) hlist,
    hmem kv List.mem_cons_self, ?_, ?_⟩
  · intro j hj
    by_cases hji : j = i
    · subst hji
      rw [MixHash.popped_node_self, hlen]
      simp
    · rw [MixHash.popped_node_of_ne _ _ hji]
      exact h.len_eq j hj
  · intro j hj
    by_cases hji : j = i
    · subst hji
      rw [MixHash.popped_node_self]
      exact fun e he => hmem e (List.mem_cons_of_mem kv he)
    · rw [MixHash.popped_node_of_ne _ _ hji]
      exact h.sentinelFree j hj

/-- What has been popped tells what was at the head of the bucket. -/
theorem TableOk.of_pop {hash hash' : MixHash} (h : TableOk hash) {i : ℕ}
    (hi : i < hash.hashSize) {kv : MixKv}
    (hpop : mixHashGetEntryByIdx hash i = (kv, hash')) :
    (IsSentinel kv ∧ (hash.hashNodes i).list = [] ∧ hash' = hash) ∨
      ¬ IsSentinel kv ∧ ∃ tail, (hash.hashNodes i).list = kv :: tail ∧
        hash' = hash.popped i tail := by
  cases hlist : (hash.hashNodes i).list with
  | nil =>
      obtain ⟨rfl, rfl⟩ := Prod.mk.inj ((h.pop_nil hi hlist).symm.trans hpop)
      exact Or.inl ⟨Or.inl rfl, rfl, rfl⟩
  | cons head tail =>
      obtain ⟨hpop', hnot, -⟩ := h.pop_cons hi hlist
      obtain ⟨rfl, rfl⟩ := Prod.mk.inj (hpop'.symm.trans hpop)
      exact Or.inr ⟨hnot, tail, rfl, rfl⟩

theorem TableOk.of_pop_sentinel {hash hash' : MixHash} (h : TableOk hash)
    {i : ℕ} (hi : i < hash.hashSize) {kv : MixKv} (hkv : IsSentinel kv)
    (hpop : mixHashGetEntryByIdx hash i = (kv, hash')) :
    (hash.hashNodes i).list = [] ∧ hash' = hash := by
  rcases h.of_pop hi hpop with ⟨-, hnil⟩ | ⟨hnot, -⟩
  · exact hnil
  · exact absurd hkv hnot

theorem TableOk.of_pop_pair {hash hash' : MixHash} (h : TableOk hash)
    {i : ℕ} (hi : i < hash.hashSize) {kv : MixKv} (hkv : ¬ IsSentinel kv)
    (hpop : mixHashGetEntryByIdx hash i = (kv, hash')) :
    ∃ tail, (hash.hashNodes i).list = kv :: tail ∧
      hash' = hash.popped i tail := by
  rcases h.of_pop hi hpop with ⟨hsentinel, -⟩ | ⟨-, hcons⟩
  · exact absurd hsentinel hkv
  · exact hcons

/-! ## Progress of one thread -/

/-- What thread `t` of `T` threads has emptied of a table of `n` buckets. -/
def ThreadPc.Emptied (n T t : ℕ) (empty : ℕ → Prop) : ThreadPc → Prop
  | .scan _ i => i % T = t ∧ ∀ j < i, j < n → j % T = t → empty j
  | .pop _ i => i < n ∧ i % T = t ∧ ∀ j < i, j % T = t → empty j
  | .read _ i _ => i < n ∧ i % T = t ∧ ∀ j < i, j % T = t → empty j
  | .ssdWrite _ i _ => i < n ∧ i % T = t ∧ ∀ j < i, j % T = t → empty j
  | .clear _ i _ => i < n ∧ i % T = t ∧ ∀ j < i, j % T = t → empty j
  | .dec _ i => i < n ∧ i % T = t ∧ ∀ j < i, j % T = t → empty j
  | .count _ => ∀ j < n, j % T = t → empty j
  | _ => True

theorem ThreadPc.Emptied.mono {n T t : ℕ} {empty empty' : ℕ → Prop}
    (hmono : ∀ j, empty j → empty' j) {pc : ThreadPc}
    (h : pc.Emptied n T t empty) : pc.Emptied n T t empty' := by
  cases pc with
  | test | fetch | reset => trivial
  | scan idx i =>
      exact ⟨h.1, fun j hj hn ht => hmono j (h.2 j hj hn ht)⟩
  | pop idx i | read idx i kv | ssdWrite idx i kv | clear idx i kv
  | dec idx i =>
      exact ⟨h.1, h.2.1, fun j hj ht => hmono j (h.2.2 j hj ht)⟩
  | count idx => exact fun j hj ht => hmono j (h j hj ht)

/-- The next bucket of the residue class. -/
theorem emptied_next {n T t i : ℕ} {empty : ℕ → Prop} (idx : Fin 4)
    (h : i < n ∧ i % T = t ∧ ∀ j < i, j % T = t → empty j)
    (hempty : empty i) :
    (ThreadPc.scan idx (i + T)).Emptied n T t empty := by
  refine ⟨by rw [Nat.add_mod_right]; exact h.2.1, ?_⟩
  intro j hj _ hjt
  rcases lt_trichotomy j i with hlt | rfl | hgt
  · exact h.2.2 j hlt hjt
  · exact hempty
  · -- two buckets of one residue class are `T` apart
    have hmod : i ≡ j [MOD T] := h.2.1.trans hjt.symm
    have hdvd := (Nat.modEq_iff_dvd' hgt.le).mp hmod
    have hzero := Nat.eq_zero_of_dvd_of_lt hdvd (by omega)
    omega

/-- A popped pair has not yet been subtracted from the used blocks. -/
def ThreadPc.Owes : ThreadPc → Prop
  | .read _ _ _ => True
  | .ssdWrite _ _ _ => True
  | .clear _ _ _ => True
  | .dec _ _ => True
  | _ => False

instance : DecidablePred ThreadPc.Owes
  | .test => isFalse fun h => h
  | .fetch => isFalse fun h => h
  | .scan _ _ => isFalse fun h => h
  | .pop _ _ => isFalse fun h => h
  | .read _ _ _ => isTrue trivial
  | .ssdWrite _ _ _ => isTrue trivial
  | .clear _ _ _ => isTrue trivial
  | .dec _ _ => isTrue trivial
  | .count _ => isFalse fun h => h
  | .reset => isFalse fun h => h

theorem ThreadPc.Owes.busy {pc : ThreadPc} (h : pc.Owes) : pc.Busy := by
  cases pc with
  | read _ _ _ | ssdWrite _ _ _ | clear _ _ _ | dec _ _ => trivial
  | test | fetch | scan _ _ | pop _ _ | count _ | reset => exact h.elim

theorem ThreadPc.emptied_of_not_busy {n T t : ℕ} {empty : ℕ → Prop}
    {pc : ThreadPc} (h : ¬ pc.Busy) : pc.Emptied n T t empty := by
  cases pc with
  | test | fetch | reset => trivial
  | scan _ _ | pop _ _ | read _ _ _ | ssdWrite _ _ _ | clear _ _ _ | dec _ _
  | count _ => exact absurd trivial h

/-! ## The invariant -/

variable {T : ℕ} {σ β : Type*}

/-- Number of popped pairs not yet subtracted from the used blocks. -/
def Machine.owed (s : Machine T σ β) : ℕ :=
  countWith ThreadPc.Owes s.threads

/-- Bucket `i` of segment `idx` is empty. -/
def Machine.BucketEmpty (s : Machine T σ β) (idx : Fin 4) (i : ℕ) : Prop :=
  ((s.store.metaData.hash idx).hashNodes i).list = []

/-- The invariant of a running migration of segment `idx`. -/
structure DrainInv (idx : Fin 4) (s : Machine T σ β) : Prop where
  table : TableOk (s.store.metaData.hash idx)
  hashSize : (s.store.metaData.hash idx).hashSize =
    (s.start.metaData.hash idx).hashSize
  calls : (s.start.metaData.hash idx).entries.Perm
    (s.calls ++ (s.store.metaData.hash idx).entries)
  used : (s.store.metaData.segments idx).usedBlockNum + s.calls.length =
    (s.start.metaData.segments idx).usedBlockNum + s.owed
  bitmap : (s.store.metaData.segments idx).bitmap =
    (s.start.metaData.segments idx).bitmap
  counted : ∀ t, s.counted t = true →
    ∀ i < (s.store.metaData.hash idx).hashSize, i % T = t.val →
      s.BucketEmpty idx i
  emptied : ∀ t : Fin T, (s.threads t).Emptied
    (s.store.metaData.hash idx).hashSize T t.val (s.BucketEmpty idx)

variable {s s' : Machine T σ β} {t : Fin T} {idx : Fin 4}

theorem Machine.owed_goto (s : Machine T σ β) (t : Fin T) (pc : ThreadPc) :
    (s.goto t pc).owed + (if (s.threads t).Owes then 1 else 0) =
      s.owed + (if pc.Owes then 1 else 0) :=
  countWith_update s.threads t pc

theorem Machine.owed_goto_take {pc : ThreadPc} (hold : ¬ (s.threads t).Owes)
    (hnew : pc.Owes) : (s.goto t pc).owed = s.owed + 1 := by
  have hgoto := s.owed_goto t pc
  rwa [if_neg hold, if_pos hnew, Nat.add_zero] at hgoto

theorem Machine.owed_goto_give {pc : ThreadPc} (hold : (s.threads t).Owes)
    (hnew : ¬ pc.Owes) : (s.goto t pc).owed + 1 = s.owed := by
  have hgoto := s.owed_goto t pc
  rwa [if_pos hold, if_neg hnew, Nat.add_zero] at hgoto

theorem Machine.owed_goto_same {pc : ThreadPc}
    (h : (s.threads t).Owes ↔ pc.Owes) : (s.goto t pc).owed = s.owed := by
  have hgoto := s.owed_goto t pc
  simp only [h] at hgoto
  omega

/-- A step that leaves the table, the counter and the history alone. -/
theorem DrainInv.move (h : DrainInv idx s) {pc : ThreadPc}
    (hhash : s'.store.metaData.hash idx = s.store.metaData.hash idx)
    (hsegment : s'.store.metaData.segments idx =
      s.store.metaData.segments idx)
    (hstart : s'.start = s.start) (hcalls : s'.calls = s.calls)
    (hcounted : s'.counted = s.counted)
    (hthreads : s'.threads = (s.goto t pc).threads)
    (howes : (s.threads t).Owes ↔ pc.Owes)
    (hpc : pc.Emptied (s.store.metaData.hash idx).hashSize T t.val
      (s.BucketEmpty idx)) : DrainInv idx s' := by
  have hempty : s'.BucketEmpty idx = s.BucketEmpty idx := by
    funext i
    rw [Machine.BucketEmpty, hhash, Machine.BucketEmpty]
  have howed : s'.owed = s.owed := by
    rw [Machine.owed, hthreads]
    exact Machine.owed_goto_same howes
  refine ⟨?_, ?_, ?_, ?_, ?_, ?_, ?_⟩
  · rw [hhash]
    exact h.table
  · rw [hhash, hstart]
    exact h.hashSize
  · rw [hhash, hstart, hcalls]
    exact h.calls
  · rw [hsegment, hstart, hcalls, howed]
    exact h.used
  · rw [hsegment, hstart]
    exact h.bitmap
  · rw [hcounted, hhash, hempty]
    exact h.counted
  · intro u
    rw [hthreads, hhash, hempty]
    rcases threads_goto_cases s t pc u with ⟨rfl, heq⟩ | ⟨-, heq⟩
    · rw [heq]
      exact hpc
    · rw [heq]
      exact h.emptied u

/-- The machine after thread `t` has popped the pair `kv` of bucket `i`. -/
def popStep (s : Machine T σ β) (t : Fin T) (idx : Fin 4) (i : ℕ)
    (kv : MixKv) (tail : List MixKv) : Machine T σ β :=
  { (s.setMetaData (s.store.metaData.setHash idx
      ((s.store.metaData.hash idx).popped i tail))).goto t (.read idx i kv)
    with calls := s.calls ++ [kv] }

theorem popStep_hash (s : Machine T σ β) (t : Fin T) (idx : Fin 4) (i : ℕ)
    (kv : MixKv) (tail : List MixKv) :
    (popStep s t idx i kv tail).store.metaData.hash idx =
      (s.store.metaData.hash idx).popped i tail := by
  simp [popStep, Machine.goto, Machine.setMetaData]

theorem popStep_empty {i : ℕ} {kv : MixKv} {tail : List MixKv}
    (hlist : ((s.store.metaData.hash idx).hashNodes i).list = kv :: tail)
    {j : ℕ} (hj : s.BucketEmpty idx j) :
    (popStep s t idx i kv tail).BucketEmpty idx j := by
  have hji : j ≠ i := by
    rintro rfl
    rw [Machine.BucketEmpty, hlist] at hj
    exact List.cons_ne_nil kv tail hj
  rw [Machine.BucketEmpty, popStep_hash, MixHash.popped_node_of_ne _ _ hji]
  exact hj

/-- A thread takes a pair out of the table. -/
theorem DrainInv.pop (h : DrainInv idx s) {i : ℕ} {kv : MixKv}
    {tail : List MixKv} (hpc : s.threads t = .pop idx i)
    (hi : i < (s.store.metaData.hash idx).hashSize)
    (hlist : ((s.store.metaData.hash idx).hashNodes i).list = kv :: tail) :
    DrainInv idx (popStep s t idx i kv tail) := by
  obtain ⟨-, -, htable⟩ := h.table.pop_cons hi hlist
  have hsize : ((popStep s t idx i kv tail).store.metaData.hash idx).hashSize =
      (s.store.metaData.hash idx).hashSize := by
    rw [popStep_hash]
    rfl
  refine ⟨?_, hsize.trans h.hashSize, ?_, ?_, h.bitmap, ?_, ?_⟩
  · rw [popStep_hash]
    exact htable
  · rw [popStep_hash]
    change List.Perm _ ((s.calls ++ [kv]) ++ _)
    rw [List.append_assoc]
    exact h.calls.trans ((MixHash.popped_entries hi hlist).append_left _)
  · have howed : (s.goto t (.read idx i kv)).owed = s.owed + 1 :=
      Machine.owed_goto_take (by rw [hpc]; exact fun h => h) trivial
    have hused := h.used
    change (s.store.metaData.segments idx).usedBlockNum +
      ((s.calls ++ [kv]).length : ℤ) =
        (s.start.metaData.segments idx).usedBlockNum +
          ((s.goto t (.read idx i kv)).owed : ℤ)
    rw [List.length_append, List.length_singleton, howed]
    push_cast
    omega
  · intro u hu j hj hjt
    rw [hsize] at hj
    exact popStep_empty hlist (h.counted u hu j hj hjt)
  · intro u
    rw [hsize]
    have hmono := fun j hj => popStep_empty (t := t) (j := j) hlist hj
    change ((s.goto t (.read idx i kv)).threads u).Emptied _ _ _ _
    rcases threads_goto_cases s t (.read idx i kv) u with
      ⟨rfl, heq⟩ | ⟨-, heq⟩
    · rw [heq]
      have hemptied := h.emptied u
      rw [hpc] at hemptied
      change ThreadPc.Emptied _ _ _ _ (.read idx i kv) at hemptied
      exact hemptied.mono hmono
    · rw [heq]
      exact (h.emptied u).mono hmono

/-- A thread accounts for the pair it has copied. -/
theorem DrainInv.dec (h : DrainInv idx s) {i : ℕ}
    (hpc : s.threads t = .dec idx i) :
    DrainInv idx ((s.setMetaData (s.store.metaData.addUsed idx (-1))).goto t
      (.pop idx i)) := by
  refine ⟨h.table, h.hashSize, h.calls, ?_, ?_, h.counted, ?_⟩
  · have howed : (s.goto t (.pop idx i)).owed + 1 = s.owed :=
      Machine.owed_goto_give (by rw [hpc]; trivial) fun h => h
    have hused := h.used
    change ((s.store.metaData.addUsed idx (-1)).segments idx).usedBlockNum +
      (s.calls.length : ℤ) =
        (s.start.metaData.segments idx).usedBlockNum +
          ((s.goto t (.pop idx i)).owed : ℤ)
    rw [MixMetadata.addUsed_self]
    simp only
    omega
  · change ((s.store.metaData.addUsed idx (-1)).segments idx).bitmap = _
    rw [MixMetadata.addUsed_self]
    exact h.bitmap
  · intro u
    change ((s.goto t (.pop idx i)).threads u).Emptied _ _ _ _
    rcases threads_goto_cases s t (.pop idx i) u with ⟨rfl, heq⟩ | ⟨-, heq⟩
    · rw [heq]
      have hemptied := h.emptied u
      rw [hpc] at hemptied
      exact hemptied
    · rw [heq]
      exact h.emptied u

/-- A thread counts when its residue class is empty. -/
theorem DrainInv.count (h : DrainInv idx s) {idx' : Fin 4}
    (hpc : s.threads t = .count idx') : DrainInv idx (countStep s t idx') := by
  have hempty := h.emptied t
  rw [hpc] at hempty
  refine ⟨h.table, h.hashSize, h.calls, ?_, h.bitmap, ?_, ?_⟩
  · have howed : (s.goto t .reset).owed = s.owed :=
      Machine.owed_goto_same (by rw [hpc]; exact Iff.rfl)
    have hused := h.used
    rw [← howed] at hused
    exact hused
  · intro u hu
    by_cases hut : u = t
    · subst hut
      exact hempty
    · exact h.counted u ((countStep_counted_of_ne hut idx').symm.trans hu)
  · intro u
    change ((s.goto t .reset).threads u).Emptied _ _ _ _
    rcases threads_goto_cases s t .reset u with ⟨rfl, heq⟩ | ⟨-, heq⟩
    · rw [heq]
      trivial
    · rw [heq]
      exact h.emptied u

theorem CoordPc.Signalled.eq_of_active {coord : CoordPc} {idx' : Fin 4}
    (h : coord.Signalled t idx') (hactive : coord.Active idx) : idx' = idx := by
  cases coord with
  | signal idx₀ i => exact h.1.symm.trans hactive
  | wait idx₀ => exact (show idx₀ = idx' from h).symm.trans hactive
  | idle | storeIdx _ | zero _ | rezero _ | clearBitmap _ | returned _ =>
      exact h.elim

variable [BlockDevice σ β]

theorem threadStep_drainInv (h : DrainInv idx s) (hhand : HandshakeInv s)
    (hactive : s.coord.Active idx) (hstep : threadStep t s = some s') :
    DrainInv idx s' := by
  have hsegment : ∀ idx', (s.threads t).segment = some idx' → idx' = idx :=
    fun idx' hseg => (hhand.segment t idx' hseg).eq_of_active hactive
  have hemptied := h.emptied t
  cases threadStep_cases hstep with
  | test hpc =>
      refine h.move rfl rfl rfl rfl rfl rfl ?_ trivial
      rw [hpc]
      exact Iff.rfl
  | fetch hpc =>
      refine h.move rfl rfl rfl rfl rfl rfl (by rw [hpc]; exact Iff.rfl)
        ⟨Nat.mod_eq_of_lt t.isLt, ?_⟩
      intro j hj _ hjt
      rw [Nat.mod_eq_of_lt (hj.trans t.isLt)] at hjt
      exact absurd hjt hj.ne
  | scan hpc hi =>
      obtain rfl := hsegment _ (by rw [hpc]; rfl)
      rw [hpc] at hemptied
      exact h.move rfl rfl rfl rfl rfl rfl (by rw [hpc]; exact Iff.rfl)
        ⟨hi, hemptied.1, fun j hj hjt =>
          hemptied.2 j hj (hj.trans hi) hjt⟩
  | scanEnd hpc hi =>
      obtain rfl := hsegment _ (by rw [hpc]; rfl)
      rw [hpc] at hemptied
      exact h.move rfl rfl rfl rfl rfl rfl (by rw [hpc]; exact Iff.rfl)
        fun j hj hjt => hemptied.2 j (hj.trans_le hi) hj hjt
  | pop hpc hpop hkv =>
      obtain rfl := hsegment _ (by rw [hpc]; rfl)
      rw [hpc] at hemptied
      obtain ⟨tail, hlist, rfl⟩ := h.table.of_pop_pair hemptied.1 hkv hpop
      exact h.pop hpc hemptied.1 hlist
  | popEnd hpc hpop hkv =>
      obtain rfl := hsegment _ (by rw [hpc]; rfl)
      rw [hpc] at hemptied
      obtain ⟨hlist, rfl⟩ := h.table.of_pop_sentinel hemptied.1 hkv hpop
      refine h.move ?_ rfl rfl rfl rfl rfl (by rw [hpc]; exact Iff.rfl)
        (emptied_next _ hemptied hlist)
      exact MixMetadata.setHash_self _
  | read hpc | ssdWrite hpc | clear hpc =>
      rw [hpc] at hemptied
      exact h.move rfl rfl rfl rfl rfl rfl (by rw [hpc]; exact Iff.rfl)
        hemptied
  | dec hpc =>
      obtain rfl := hsegment _ (by rw [hpc]; rfl)
      exact h.dec hpc
  | count hpc => exact h.count hpc
  | reset hpc =>
      exact h.move rfl rfl rfl rfl rfl rfl (by rw [hpc]; exact Iff.rfl)
        trivial

end Uhs
