import Uhs.Migration.Redirect

/-!
# Segments that can be migrated

What the return of a migration and of `redirect_write` rests on.  It does not
depend on the contents of the devices nor on where a segment lies in the
buffer; only the block `2 ^ 32 - 1`, which would end the drain of its bucket,
must not be mapped.
-/

namespace Uhs

open Support

variable {T : ℕ} {σ β : Type*} {s s' : Machine T σ β} {t : Fin T}
  {idx : Fin 4} {task : IoTask β}

/-- The invariant of the index of segment `idx` next to the machine. -/
structure TableInv (idx : Fin 4) (s : Machine T σ β) : Prop where
  shape : SegmentShape idx s.store.metaData
  nodes : (s.store.metaData.hash idx).freeNodes +
    (s.store.metaData.hash idx).entries.length = s.store.metaData.perBlockNum
  free : uint32Max ∉ (s.store.metaData.hash idx).keys
  settled : ¬ s.coord.Active idx → PrefixInv idx s.store.metaData
  emptied : s.coord = .returned idx →
    (s.store.metaData.hash idx).entries = []
  drain : s.coord.Active idx → DrainInv idx s
  started : s.coord.Active idx → PrefixInv idx s.start.metaData

/-- The handshake and the four indexes. -/
structure TablesInv (s : Machine T σ β) : Prop where
  handshake : HandshakeInv s
  table : ∀ idx, TableInv idx s

theorem TableInv.of_prefixInv (hactive : ¬ s.coord.Active idx)
    (hpre : PrefixInv idx s.store.metaData)
    (hfree : uint32Max ∉ (s.store.metaData.hash idx).keys)
    (hemptied : s.coord = .returned idx →
      (s.store.metaData.hash idx).entries = []) : TableInv idx s where
  shape := hpre.toSegmentShape
  nodes := hpre.nodes
  free := hfree
  settled := fun _ => hpre
  emptied := hemptied
  drain := fun h => absurd h hactive
  started := fun h => absurd h hactive

/-- A segment that is not being migrated after a step that leaves its index
alone. -/
theorem TableInv.of_inactive (h : TableInv idx s)
    (hactive' : ¬ s'.coord.Active idx)
    (hreturned : s'.coord = .returned idx → s.coord = .returned idx)
    (hhash : s'.store.metaData.hash idx = s.store.metaData.hash idx)
    (hpre : PrefixInv idx s'.store.metaData) : TableInv idx s' := by
  refine TableInv.of_prefixInv hactive' hpre (hhash ▸ h.free) fun hs' => ?_
  rw [hhash]
  exact h.emptied (hreturned hs')

/-! ## Steps of a thread -/

theorem TableInv.popStep (h : TableInv idx s) {i : ℕ} {kv : MixKv}
    {tail : List MixKv} (hi : i < (s.store.metaData.hash idx).hashSize)
    (hlist : ((s.store.metaData.hash idx).hashNodes i).list = kv :: tail) :
    SegmentShape idx (popStep s t idx i kv tail).store.metaData ∧
      ((popStep s t idx i kv tail).store.metaData.hash idx).freeNodes +
          ((popStep s t idx i kv tail).store.metaData.hash
            idx).entries.length =
        (popStep s t idx i kv tail).store.metaData.perBlockNum ∧
      uint32Max ∉
        ((popStep s t idx i kv tail).store.metaData.hash idx).keys := by
  have hperm := MixHash.popped_entries hi hlist
  have hwf := h.shape.wf.popped hi hlist
  have hnodes := h.nodes
  have hfree := h.free
  have hlength := hperm.length_eq
  rw [List.length_cons] at hlength
  rw [MixHash.keys, (hperm.map Prod.fst).mem_iff, List.map_cons,
    List.mem_cons, not_or] at hfree
  rw [popStep_hash]
  refine ⟨⟨h.shape.per_lt, h.shape.threads_pos, ?_, h.shape.ready⟩, ?_,
    hfree.2⟩
  · rw [popStep_hash]
    exact hwf
  · change (s.store.metaData.hash idx).freeNodes + 1 + _ =
      s.store.metaData.perBlockNum
    omega

variable [BlockDevice σ β]

/-- A thread of the running migration. -/
theorem TableInv.threadStep (h : TableInv idx s) (hhand : HandshakeInv s)
    (hactive : s.coord.Active idx) (hstep : threadStep t s = some s') :
    TableInv idx s' := by
  have hsegment : ∀ idx', (s.threads t).segment = some idx' → idx' = idx :=
    fun idx' hseg => (hhand.segment t idx' hseg).eq_of_active hactive
  have hdrain := h.drain hactive
  have hemptied := hdrain.emptied t
  obtain ⟨hcoord, hstart⟩ := threadStep_frame hstep
  -- what has to be shown of the index
  have hkeep : SegmentShape idx s'.store.metaData →
      (s'.store.metaData.hash idx).freeNodes +
          (s'.store.metaData.hash idx).entries.length =
        s'.store.metaData.perBlockNum →
      uint32Max ∉ (s'.store.metaData.hash idx).keys → TableInv idx s' := by
    intro hshape hnodes hfree
    refine ⟨hshape, hnodes, hfree, fun hnot => ?_, fun hreturned => ?_,
      fun _ => threadStep_drainInv hdrain hhand hactive hstep,
      fun _ => hstart ▸ h.started hactive⟩
    · exact absurd (hcoord ▸ hactive) hnot
    · rw [← hcoord, hreturned] at hactive
      exact hactive.elim
  cases threadStep_cases hstep with
  | test | fetch | scan | scanEnd | read | ssdWrite | clear | count | reset =>
      exact hkeep h.shape h.nodes h.free
  | pop hpc hpop hkv =>
      obtain rfl := hsegment _ (by rw [hpc]; rfl)
      rw [hpc] at hemptied
      obtain ⟨tail, hlist, rfl⟩ :=
        hdrain.table.of_pop_pair hemptied.1 hkv hpop
      obtain ⟨hshape, hnodes, hfree⟩ :=
        h.popStep (t := t) hemptied.1 hlist
      exact hkeep hshape hnodes hfree
  | popEnd hpc hpop hkv =>
      obtain rfl := hsegment _ (by rw [hpc]; rfl)
      rw [hpc] at hemptied
      obtain ⟨-, rfl⟩ := hdrain.table.of_pop_sentinel hemptied.1 hkv hpop
      rw [MixMetadata.setHash_eq_self] at hkeep ⊢
      exact hkeep h.shape h.nodes h.free
  | dec hpc =>
      obtain rfl := hsegment _ (by rw [hpc]; rfl)
      refine hkeep ⟨h.shape.per_lt, h.shape.threads_pos, h.shape.wf, ?_⟩
        h.nodes h.free
      change ((s.store.metaData.addUsed _ (-1)).segments _).bitmap.Ready _
      rw [MixMetadata.addUsed_self]
      exact h.shape.ready

theorem TablesInv.threadStep (h : TablesInv s) (hT : T ≤ 127)
    (hstep : threadStep t s = some s') : TablesInv s' := by
  refine ⟨threadStep_handshakeInv h.handshake hT hstep, fun j => ?_⟩
  obtain ⟨hcoord, -⟩ := threadStep_frame hstep
  by_cases hactive : s.coord.Active j
  · exact (h.table j).threadStep h.handshake hactive hstep
  -- the threads work on another segment, or on none
  have hsame : s'.store.metaData.hash j = s.store.metaData.hash j ∧
      PrefixInv j s'.store.metaData := by
    have hpre := (h.table j).settled hactive
    by_cases hbusy : (s.threads t).Busy
    · obtain ⟨-, -, idx, hsignalled⟩ := h.handshake.busy t hbusy
      have helsewhere := threadStep_sameElsewhere hstep fun idx' hseg =>
        (h.handshake.segment t idx' hseg).eq_of_active hsignalled.active
      have hj : j ≠ idx := by
        rintro rfl
        exact hactive hsignalled.active
      exact ⟨helsewhere.hash_ne j hj, helsewhere.prefixInv hj hpre⟩
    · rw [(threadStep_of_not_busy hstep hbusy).1]
      exact ⟨rfl, hpre⟩
  exact (h.table j).of_inactive (hcoord ▸ hactive) (fun hs' => hcoord ▸ hs')
    hsame.1 hsame.2

omit [BlockDevice σ β]

/-- A thread that pops is inside of the table. -/
theorem TablesInv.pop_lt (h : TablesInv s) {i : ℕ}
    (hpc : s.threads t = .pop idx i) :
    i < (s.store.metaData.hash idx).hashSize := by
  have hactive := (h.handshake.segment t idx (by rw [hpc]; rfl)).active
  have hemptied := ((h.table idx).drain hactive).emptied t
  rw [hpc] at hemptied
  exact hemptied.1

/-! ## Steps of the coordinator -/

theorem TableInv.finish (h : TableInv idx s) (hhand : HandshakeInv s)
    (hT : 0 < T) (hcoord : s.coord = .clearBitmap idx) :
    PrefixInv idx (mixSegmentMigrationEnd s.store idx).metaData ∧
      (s.store.metaData.hash idx).entries = [] := by
  have hactive : s.coord.Active idx := by
    rw [hcoord]
    rfl
  have hdrain := h.drain hactive
  have hall := hhand.late (by rw [hcoord]; trivial)
  have hnil := entries_eq_nil_of_empty (hdrain.empty_of_counted hT hall)
  have hcalls := hdrain.calls
  have hused := hdrain.used
  have hnodes := h.nodes
  rw [hnil, List.append_nil] at hcalls
  rw [hhand.owed_eq_zero hall, (h.started hactive).used,
    hcalls.length_eq] at hused
  rw [hnil, List.length_nil, Nat.add_zero] at hnodes
  have hshape : SegmentShape idx
      (mixSegmentMigrationEnd s.store idx).metaData :=
    h.shape.setBitmap (mixBitmapClear_ready h.shape.ready)
  refine ⟨PrefixInv.of_empty (IndexInv.of_empty hshape hnil ?_) hnil ?_ ?_
    hnodes, hnil⟩
  · simp only [mixSegmentMigrationEnd, MixMetadata.setBitmap_self]
    omega
  · intro b hb
    simp only [mixSegmentMigrationEnd, MixMetadata.setBitmap_self]
    exact testBit_mixBitmapClear h.shape.ready hb
  · simp only [mixSegmentMigrationEnd, MixMetadata.setBitmap_self]
    rfl

theorem TablesInv.coordStep (h : TablesInv s) (hT : 0 < T)
    (hstep : coordStep s = some s') : TablesInv s' := by
  refine ⟨coordStep_handshakeInv h.handshake hstep, fun j => ?_⟩
  rcases coordStep_cases hstep with ⟨idx, hcoord, rfl⟩ |
    ⟨hstore, hstart, hcalls, hcounted, hthreads, -, hactive, hnot⟩
  · obtain ⟨hpre, hnil⟩ := (h.table idx).finish h.handshake hT hcoord
    by_cases hj : j = idx
    · subst hj
      exact TableInv.of_prefixInv (fun h => h) hpre (h.table j).free
        fun _ => hnil
    · have helsewhere := MixMetadata.sameElsewhere_setBitmap
        s.store.metaData idx
        (mixBitmapClear (s.store.metaData.segments idx).bitmap)
      have hquiet : ¬ s.coord.Active j := by
        rw [hcoord]
        exact Ne.symm hj
      refine (h.table j).of_inactive (fun h => h) (fun hs' => ?_) rfl
        (helsewhere.prefixInv hj ((h.table j).settled hquiet))
      cases hs'
      exact absurd rfl hj
  · have hj := h.table j
    refine ⟨hstore ▸ hj.shape, hstore ▸ hj.nodes, hstore ▸ hj.free,
      fun hnot' => hstore ▸ hj.settled fun hact => hnot' ((hactive j).mpr hact),
      fun hs' => absurd hs' (hnot j), fun hact => ?_,
      fun hact => hstart ▸ hj.started ((hactive j).mp hact)⟩
    exact (hj.drain ((hactive j).mp hact)).setCoord hstore hstart hcalls
      hcounted hthreads

/-! ## Steps of a worker -/

theorem TablesInv.not_active (hidle : s.coord = .idle) :
    ¬ s.coord.Active idx := by
  rw [hidle]
  exact fun h => h

theorem TablesInv.call (h : TablesInv s) (hidle : s.coord = .idle)
    (idx : Fin 4) : TablesInv (callMigration idx s) := by
  refine ⟨h.handshake.call hidle idx, fun j => ?_⟩
  have hj := h.table j
  have hpre := hj.settled (TablesInv.not_active hidle)
  by_cases hji : j = idx
  · subst hji
    have htable : TableOk (s.store.metaData.hash j) := by
      refine ⟨hpre.wf.len_eq, fun i hi kv hkv => ?_⟩
      exact hpre.sentinelFree_iff.mpr hj.free kv
        (mem_entries.mpr ⟨i, hi, hkv⟩)
    exact ⟨hj.shape, hj.nodes, hj.free, fun hnot => absurd rfl hnot,
      fun hs' => by simp [callMigration] at hs',
      fun _ => h.handshake.callMigration_drainInv hidle htable,
      fun _ => hpre⟩
  · exact hj.of_inactive (fun hact => hji (hact : idx = j).symm)
      (fun hs' => by simp [callMigration] at hs') rfl hpre

theorem TablesInv.release (h : TablesInv s)
    (hcoord : s.coord = .returned idx) :
    TablesInv { s with coord := .idle } := by
  have hstep : Uhs.coordStep s = some { s with coord := .idle } := by
    simp [Uhs.coordStep, hcoord]
  refine ⟨coordStep_handshakeInv h.handshake hstep, fun j => ?_⟩
  have hquiet : ¬ s.coord.Active j := by
    rw [hcoord]
    exact fun h => h
  exact (h.table j).of_inactive (fun h => h) (fun hs' => by cases hs') rfl
    ((h.table j).settled hquiet)

/-- A change of the devices. -/
theorem TablesInv.setDev (h : TablesInv s) (dev : Devices σ β) :
    TablesInv (s.setDev dev) := by
  refine ⟨h.handshake.setStore _, fun j => ?_⟩
  have hj := h.table j
  exact ⟨hj.shape, hj.nodes, hj.free, hj.settled, hj.emptied,
    fun hact => (hj.drain hact).setStore rfl rfl, hj.started⟩

/-- The worker of a segment that is not being migrated enters a block. -/
theorem TablesInv.claim (h : TablesInv s) (hheld : ¬ s.coord.Held idx)
    {key slot : ℕ} {store : Store σ β}
    (hclaimed : Claimed idx key slot s.store.metaData store.metaData)
    (hpre : PrefixInv idx store.metaData) (hkey : key ≠ uint32Max) :
    TablesInv (s.setStore store) := by
  rw [CoordPc.Held, not_or] at hheld
  refine ⟨h.handshake.setStore store, fun j => ?_⟩
  have hj := h.table j
  by_cases hji : j = idx
  · subst hji
    refine TableInv.of_prefixInv hheld.1 hpre ?_
      fun hs' => absurd hs' hheld.2
    change uint32Max ∉ (store.metaData.hash j).keys
    rw [MixHash.keys, (hclaimed.entries.map Prod.fst).mem_iff, List.map_cons,
      List.mem_cons, not_or]
    exact ⟨Ne.symm hkey, hj.free⟩
  · have hhash := hclaimed.hash_ne j hji
    refine ⟨⟨hclaimed.perBlockNum ▸ hj.shape.per_lt,
      hclaimed.migrateThreadNum ▸ hj.shape.threads_pos, ?_, ?_⟩, ?_, ?_,
      fun hnot => hclaimed.toSameElsewhere.prefixInv hji (hj.settled hnot),
      fun hs' => ?_, fun hact => (hj.drain hact).setStore hhash
        (hclaimed.segments_ne j hji), hj.started⟩
    · change (store.metaData.hash j).Wf
      rw [hhash]
      exact hj.shape.wf
    · change (store.metaData.segments j).bitmap.Ready
        store.metaData.perBlockNum
      rw [hclaimed.segments_ne j hji, hclaimed.perBlockNum]
      exact hj.shape.ready
    · change (store.metaData.hash j).freeNodes +
        (store.metaData.hash j).entries.length = store.metaData.perBlockNum
      rw [hhash, hclaimed.perBlockNum]
      exact hj.nodes
    · change uint32Max ∉ (store.metaData.hash j).keys
      rw [hhash]
      exact hj.free
    · change (store.metaData.hash j).entries = []
      rw [hhash]
      exact hj.emptied hs'

/-- With room left a slot is taken. -/
theorem TablesInv.takeSlot (h : TablesInv s) (hheld : ¬ s.coord.Held idx)
    (hkey : lbaKey task.offset ∉ (s.store.metaData.hash idx).keys)
    (hmax : lbaKey task.offset ≠ uint32Max)
    (hroom : ¬ IsFull idx s.store.metaData) (migrated : Bool) :
    ∃ choice, Uhs.takeSlot s.store task idx migrated = some choice ∧
      TablesInv (s.setStore choice.store) := by
  have hpre := (h.table idx).settled fun hact => hheld (Or.inl hact)
  obtain ⟨choice, slot, htake, -, -, -, -, -, hclaimed, hchoice⟩ :=
    hpre.takeSlot_spec hroom hkey migrated
  exact ⟨choice, htake, h.claim hheld hclaimed hchoice hmax⟩

/-- `redirect_write` comes to its copy or to its migration. -/
theorem TablesInv.workerStart (h : TablesInv s) (hheld : ¬ s.coord.Held idx)
    (hmax : lbaKey task.offset ≠ uint32Max) :
    ∃ m pc, workerStart idx s task = some (m, pc) ∧ TablesInv m := by
  have hpre := (h.table idx).settled fun hact => hheld (Or.inl hact)
  by_cases hkey : lbaKey task.offset ∈ (s.store.metaData.hash idx).keys
  · obtain ⟨v, hv⟩ := MixHash.mem_keys.mp hkey
    exact ⟨s, _, workerStart_of_hit (hpre.blockTest_of_mem hv) (by omega), h⟩
  · have hmiss := hpre.blockTest_of_notMem hkey
    by_cases hfull : IsFull idx s.store.metaData
    · exact ⟨s, _, workerStart_of_full hmiss hfull, h⟩
    · obtain ⟨choice, htake, hinv⟩ := h.takeSlot hheld hkey hmax hfull false
      refine ⟨_, .data task choice.slot, ?_, hinv⟩
      rw [workerStart_of_room hpre.toSegmentShape hmiss hfull, htake]
      rfl

/-- After its migration `redirect_write` comes to its copy. -/
theorem TablesInv.workerResume (h : TablesInv s)
    (hcoord : s.coord = .returned idx)
    (hmax : lbaKey task.offset ≠ uint32Max) :
    ∃ m pc, workerResume idx { s with coord := .idle } (some task) =
      some (m, pc) ∧ TablesInv m := by
  have hrelease := h.release hcoord
  have hnil := (h.table idx).emptied hcoord
  have hheld : ¬ CoordPc.Held idx .idle := by
    rintro (hact | hreturned)
    · exact hact
    · cases hreturned
  have hpre := (hrelease.table idx).settled fun hact => hact
  obtain ⟨choice, htake, hinv⟩ := hrelease.takeSlot hheld
    (by simp [MixHash.keys, hnil]) hmax (hpre.not_isFull_of_nil hnil) true
  refine ⟨_, .data task choice.slot, ?_, hinv⟩
  rw [Uhs.workerResume]
  simp only [htake]
  rfl

/-! ## Flags of the segments -/

/-- The flags that `mix_buffer_migrating` looks at, which nothing sets. -/
def MixMetadata.flags (metaData : MixMetadata) : Fin 4 → Bool :=
  fun idx => (metaData.segments idx).migration

section Flags

variable (metaData : MixMetadata) (idx : Fin 4)

theorem MixMetadata.setSegment_flags {segment : FreeSegment}
    (h : segment.migration = (metaData.segments idx).migration) :
    (metaData.setSegment idx segment).flags = metaData.flags := by
  funext j
  by_cases hj : j = idx
  · subst hj
    simpa [flags, setSegment] using h
  · simp [flags, setSegment, hj]

@[simp] theorem MixMetadata.setBitmap_flags (bitmap : MixBitmap) :
    (metaData.setBitmap idx bitmap).flags = metaData.flags :=
  metaData.setSegment_flags idx rfl

@[simp] theorem MixMetadata.addUsed_flags (count : ℤ) :
    (metaData.addUsed idx count).flags = metaData.flags :=
  metaData.setSegment_flags idx rfl

@[simp] theorem MixMetadata.setHash_flags (hash : MixHash) :
    (metaData.setHash idx hash).flags = metaData.flags := rfl

end Flags

theorem mixBufferMigrating_eq_false {metaData : MixMetadata}
    (h : ∃ j, metaData.flags j = false) :
    mixBufferMigrating metaData = false := by
  obtain ⟨j, hj⟩ := h
  have hsegment : (metaData.segments j).migration = false := hj
  simp only [mixBufferMigrating, Bool.and_eq_false_iff]
  match j with
  | 0 => exact Or.inl (Or.inl (Or.inl hsegment))
  | 1 => exact Or.inl (Or.inl (Or.inr hsegment))
  | 2 => exact Or.inl (Or.inr hsegment)
  | 3 => exact Or.inr hsegment

theorem mixWriteRedirectBlockmeta_flags {m m' : MixMetadata} {lba : ℕ}
    {value : ℤ} (h : mixWriteRedirectBlockmeta m idx lba value = some m') :
    m'.flags = m.flags := by
  simp only [mixWriteRedirectBlockmeta] at h
  split at h
  · cases h
    exact m.setBitmap_flags idx _
  · rw [Option.map_eq_some_iff] at h
    obtain ⟨hash, -, rfl⟩ := h
    simp

theorem mixGetNextFreeBlock_flags {m : MixMetadata} {r : ℤ × MixMetadata}
    (h : mixGetNextFreeBlock m idx = some r) : r.2.flags = m.flags := by
  unfold mixGetNextFreeBlock at h
  split at h
  · cases h
    rfl
  · rw [Option.map_eq_some_iff] at h
    obtain ⟨q, -, rfl⟩ := h
    exact m.setBitmap_flags idx _

theorem claimSlot_flags {store : Store σ β} {migrated : Bool} {offset : ℤ}
    {choice : SlotChoice σ β}
    (h : claimSlot store task idx migrated offset = some choice) :
    choice.store.metaData.flags = store.metaData.flags := by
  rw [claimSlot, Option.map_eq_some_iff] at h
  obtain ⟨metaData, hwrite, rfl⟩ := h
  exact mixWriteRedirectBlockmeta_flags hwrite

theorem redirectStep_flags {m : Machine T σ β} {pc pc' : WorkerPc β}
    (h : redirectStep idx s pc = some (m, pc')) :
    m.store.metaData.flags = s.store.metaData.flags := by
  cases pc with
  | ready | nvmRead _ _ | nvmWrite _ _ | finish _ _ => cases h
  | data task slot | record task slot =>
      cases h
      rfl
  | lock task =>
      simp only [redirectStep] at h
      split at h
      · cases h
        rfl
      · cases h
  | migrating task =>
      simp only [redirectStep] at h
      split at h
      · cases task with
        | none =>
            cases h
            rfl
        | some task =>
            simp only [Uhs.workerResume, Uhs.takeSlot, Option.map_eq_some_iff,
              Prod.mk.injEq, Option.bind_eq_some_iff] at h
            obtain ⟨choice, ⟨r, hnext, hclaim⟩, rfl, -⟩ := h
            exact (claimSlot_flags hclaim).trans
              (mixGetNextFreeBlock_flags hnext)
      · cases h
  | start task =>
      simp only [redirectStep, Uhs.workerStart] at h
      split at h
      · rw [Option.bind_eq_some_iff] at h
        obtain ⟨r, hnext, h⟩ := h
        split at h
        · cases h
          exact mixGetNextFreeBlock_flags hnext
        · simp only [Option.map_eq_some_iff, Prod.mk.injEq] at h
          obtain ⟨choice, hclaim, rfl, -⟩ := h
          exact (claimSlot_flags hclaim).trans
            (mixGetNextFreeBlock_flags hnext)
      · cases h
        rfl

theorem coordStep_flags (h : coordStep s = some s') :
    s'.store.metaData.flags = s.store.metaData.flags := by
  rcases coordStep_cases h with ⟨idx, -, rfl⟩ | ⟨hstore, -⟩
  · exact s.store.metaData.setBitmap_flags idx _
  · rw [hstore]

theorem threadStep_flags [BlockDevice σ β] (h : threadStep t s = some s') :
    s'.store.metaData.flags = s.store.metaData.flags := by
  cases threadStep_cases h with
  | dec => exact MixMetadata.addUsed_flags _ _ _
  | test | fetch | scan | scanEnd | pop | popEnd | read | ssdWrite | clear
  | count | reset => rfl

/-- The machine over a freshly initialised store. -/
theorem initial_tablesInv {blockNum : ℕ} (hsize : ValidSize blockNum)
    (migration : Fin 4 → Bool) (dev : Devices σ β) (segmentIdx : Fin 4)
    (migrateBuf : Fin T → β) :
    TablesInv (Machine.initial T (freshStore blockNum migration dev)
      segmentIdx migrateBuf) := by
  refine ⟨initial_handshakeInv _ segmentIdx migrateBuf, fun j => ?_⟩
  refine TableInv.of_prefixInv (fun h => h)
    (mixMetadataInit_prefixInv hsize migration j) ?_ fun h => by cases h
  have hnil : ((mixMetadataInit blockNum migration).hash j).entries = [] :=
    mixMetadataInit_entries migration j
  change uint32Max ∉ ((mixMetadataInit blockNum migration).hash j).keys
  simp [MixHash.keys, hnil]

end Uhs
