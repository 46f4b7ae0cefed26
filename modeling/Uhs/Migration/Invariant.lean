import Uhs.Migration.Live

/-!
# The invariant of the machine

The handshake, the four segments and the copies in flight, taken together, and
what every kind of step keeps of them.
-/

namespace Uhs

open Support

variable {T : ℕ} {σ β : Type*} {s s' : Machine T σ β} {t : Fin T}
  {idx : Fin 4}

/-- A segment is well formed as soon as its index is, outside of its
migration. -/
theorem SegmentInv.of_prefixInv (hhand : HandshakeInv s)
    (hactive : ¬ s.coord.Active idx)
    (hpre : PrefixInv idx s.store.metaData)
    (hemptied : s.coord = .returned idx →
      (s.store.metaData.hash idx).entries = []) : SegmentInv idx s := by
  have hlive := hhand.live_eq_entries hactive
  refine
    { shape := hpre.toSegmentShape
      keys_nodup := ?_
      values_nodup := ?_
      value_lt := ?_
      nodes := hpre.nodes
      settled := fun _ => hpre
      emptied := hemptied
      drain := fun h => absurd h hactive
      started := fun h => absurd h hactive
      place := fun h => absurd h hactive }
  · rw [hlive]
    exact hpre.keys_nodup
  · rw [hlive]
    exact hpre.values_nodup
  · rw [hlive]
    exact hpre.value_lt

/-- The index of a segment only depends on its hash and its counters. -/
theorem PrefixInv.congr {m m' : MixMetadata} (h : PrefixInv idx m)
    (hhash : m'.hash idx = m.hash idx)
    (hsegment : m'.segments idx = m.segments idx)
    (hper : m'.perBlockNum = m.perBlockNum)
    (hthreads : m'.migrateThreadNum = m.migrateThreadNum) :
    PrefixInv idx m' where
  per_lt := hper ▸ h.per_lt
  threads_pos := hthreads ▸ h.threads_pos
  wf := hhash ▸ h.wf
  ready := by
    rw [hsegment, hper]
    exact h.ready
  keys_nodup := hhash ▸ h.keys_nodup
  values_nodup := hhash ▸ h.values_nodup
  value_lt := by
    rw [hhash, hper]
    exact h.value_lt
  bit := by
    rw [hhash, hsegment]
    exact h.bit
  used := by
    rw [hhash, hsegment]
    exact h.used
  bit_iff := by
    rw [hhash, hsegment, hper]
    exact h.bit_iff
  nextBit := by
    rw [hhash, hsegment, hper]
    exact h.nextBit
  nodes := by
    rw [hhash, hper]
    exact h.nodes

theorem MixMetadata.SameElsewhere.prefixInv {m m' : MixMetadata} {j : Fin 4}
    (h : MixMetadata.SameElsewhere idx m m') (hj : j ≠ idx)
    (hpre : PrefixInv j m) : PrefixInv j m' :=
  hpre.congr (h.hash_ne j hj) (h.segments_ne j hj) h.perBlockNum
    h.migrateThreadNum

/-! ## Return of a migration -/

/-- A migration that is about to return has emptied its segment. -/
theorem SegmentInv.drained (h : SegmentInv idx s) (hhand : HandshakeInv s)
    (hT : 0 < T) (hcoord : s.coord = .clearBitmap idx) :
    (s.store.metaData.hash idx).entries = [] ∧
      (s.store.metaData.segments idx).usedBlockNum = 0 := by
  have hactive : s.coord.Active idx := by
    rw [hcoord]
    rfl
  have hdrain := h.drain hactive
  have hall := hhand.late (by rw [hcoord]; trivial)
  have hnil := entries_eq_nil_of_empty (hdrain.empty_of_counted hT hall)
  refine ⟨hnil, ?_⟩
  have hcalls := hdrain.calls
  rw [hnil, List.append_nil] at hcalls
  have hused := hdrain.used
  rw [hhand.owed_eq_zero hall, (h.started hactive).used,
    hcalls.length_eq] at hused
  omega

theorem SegmentInv.finish (h : SegmentInv idx s) (hhand : HandshakeInv s)
    (hT : 0 < T) (hcoord : s.coord = .clearBitmap idx) :
    PrefixInv idx (mixSegmentMigrationEnd s.store idx).metaData := by
  obtain ⟨hnil, hused⟩ := h.drained hhand hT hcoord
  have hshape : SegmentShape idx
      (mixSegmentMigrationEnd s.store idx).metaData :=
    h.shape.setBitmap (mixBitmapClear_ready h.shape.ready)
  have hnodes := h.nodes
  rw [hnil, List.length_nil, Nat.add_zero] at hnodes
  refine PrefixInv.of_empty (IndexInv.of_empty hshape hnil ?_) hnil ?_ ?_
    hnodes
  · simpa [mixSegmentMigrationEnd] using hused
  · intro b hb
    simp only [mixSegmentMigrationEnd, MixMetadata.setBitmap_self]
    exact testBit_mixBitmapClear h.shape.ready hb
  · simp only [mixSegmentMigrationEnd, MixMetadata.setBitmap_self]
    rfl

/-! ## The machine -/

variable [BlockDevice σ β]

/-- The invariant of the machine. -/
structure MachineInv (s : Machine T σ β) : Prop where
  handshake : HandshakeInv s
  segment : ∀ idx, SegmentInv idx s
  copy : ∀ idx, CopyInv idx s

theorem CopyInv.of_inactive (hhand : HandshakeInv s)
    (hactive : ¬ s.coord.Active idx) : CopyInv idx s where
  staged := fun t i kv hpc => absurd (hhand.segment t idx (by
    rw [hpc]
    rfl)).active hactive
  copied := fun t i kv hpc => absurd (hhand.segment t idx (by
    rw [hpc]
    rfl)).active hactive

/-- A transfer only takes pairs away. -/
theorem Transfer.exists_perm (h : Transfer idx s s') :
    ∃ gone, (s.live idx).Perm (gone ++ s'.live idx) := by
  cases h with
  | quiet hlive hdev => exact ⟨[], hlive⟩
  | copy kv hkv hlive hdev => exact ⟨[], hlive⟩
  | release kv hlive hssd hdev => exact ⟨[kv], hlive⟩

theorem ThreadEffect.segmentInv (heff : ThreadEffect idx s s')
    (h : SegmentInv idx s) (hactive : s.coord.Active idx)
    (hcoord : s'.coord = s.coord) (hstart : s'.start = s.start)
    (hper : s'.store.metaData.perBlockNum = s.store.metaData.perBlockNum)
    (hdrain : DrainInv idx s') : SegmentInv idx s' := by
  obtain ⟨gone, hperm⟩ := heff.transfer.exists_perm
  have hkeys := (hperm.map Prod.fst).nodup_iff.mp h.keys_nodup
  have hvalues := (hperm.map Prod.snd).nodup_iff.mp h.values_nodup
  rw [List.map_append] at hkeys hvalues
  refine
    { shape := heff.shape
      keys_nodup := hkeys.of_append_right
      values_nodup := hvalues.of_append_right
      value_lt := ?_
      nodes := hper ▸ heff.nodes
      settled := fun hnot => absurd (hcoord ▸ hactive) hnot
      emptied := ?_
      drain := fun _ => hdrain
      started := fun _ => hstart ▸ h.started hactive
      place := ?_ }
  · intro v hv
    rw [hper]
    refine h.value_lt v ((hperm.map Prod.snd).mem_iff.mpr ?_)
    rw [List.map_append]
    exact List.mem_append_right _ hv
  · intro hreturned
    rw [hcoord] at hreturned
    rw [hreturned] at hactive
    exact hactive.elim
  · intro _
    refine (h.place hactive).imp id fun hnil => ?_
    rw [hnil] at hperm
    exact (List.append_eq_nil_iff.mp (List.nil_perm.mp hperm)).2

omit [BlockDevice σ β] in
/-- A segment that is not being migrated after a step that leaves its index
alone. -/
theorem SegmentInv.of_inactive (h : SegmentInv idx s)
    (hhand : HandshakeInv s') (hactive' : ¬ s'.coord.Active idx)
    (hreturned : s'.coord = .returned idx → s.coord = .returned idx)
    (hhash : s'.store.metaData.hash idx = s.store.metaData.hash idx)
    (hpre : PrefixInv idx s'.store.metaData) : SegmentInv idx s' := by
  refine SegmentInv.of_prefixInv hhand hactive' hpre fun hs' => ?_
  rw [hhash]
  exact h.emptied (hreturned hs')

omit [BlockDevice σ β] in
/-- The pairs of a segment that is not being migrated. -/
theorem live_congr_of_inactive (hhand : HandshakeInv s)
    (hhand' : HandshakeInv s') (hactive : ¬ s.coord.Active idx)
    (hactive' : ¬ s'.coord.Active idx)
    (hhash : s'.store.metaData.hash idx = s.store.metaData.hash idx) :
    s'.live idx = s.live idx := by
  rw [hhand'.live_eq_entries hactive', hhand.live_eq_entries hactive, hhash]

/-- What a step of a thread does to the store. -/
structure ThreadMoves (idx : Fin 4) (s s' : Machine T σ β) : Prop where
  active : s.coord.Active idx
  transfer : Transfer idx s s'
  elsewhere : MixMetadata.SameElsewhere idx s.store.metaData
    s'.store.metaData
  live_ne : ∀ j, j ≠ idx → s'.live j = s.live j

theorem MachineInv.threadStep (h : MachineInv s) (hT : T ≤ 127)
    (hstep : threadStep t s = some s') :
    MachineInv s' ∧
      (s'.store = s.store ∧ (∀ j, s'.live j = s.live j) ∨
        ∃ idx, ThreadMoves idx s s') := by
  have hhand' := threadStep_handshakeInv h.handshake hT hstep
  obtain ⟨hcoord, hstart⟩ := threadStep_frame hstep
  -- what holds of a segment that is not being migrated
  have hother : ∀ j, ¬ s.coord.Active j →
      s'.store.metaData.hash j = s.store.metaData.hash j →
      PrefixInv j s'.store.metaData →
      SegmentInv j s' ∧ CopyInv j s' ∧ s'.live j = s.live j := by
    intro j hj hhash hpre
    have hj' : ¬ s'.coord.Active j := hcoord ▸ hj
    exact ⟨(h.segment j).of_inactive hhand' hj'
        (fun hs' => hcoord ▸ hs') hhash hpre,
      CopyInv.of_inactive hhand' hj',
      live_congr_of_inactive h.handshake hhand' hj hj' hhash⟩
  by_cases hactive : ∃ idx, s.coord.Active idx
  · obtain ⟨idx, hactive⟩ := hactive
    have helsewhere := threadStep_sameElsewhere hstep fun idx' hseg =>
      (h.handshake.segment t idx' hseg).eq_of_active hactive
    have heff := threadStep_effect (h.segment idx) (h.copy idx) h.handshake
      hactive hstep
    have hrest : ∀ j, j ≠ idx →
        SegmentInv j s' ∧ CopyInv j s' ∧ s'.live j = s.live j := by
      intro j hj
      have hnot : ¬ s.coord.Active j := fun hjactive =>
        hj (hjactive.eq hactive)
      exact hother j hnot (helsewhere.hash_ne j hj)
        (helsewhere.prefixInv hj ((h.segment j).settled hnot))
    have hsegment := heff.segmentInv (h.segment idx) hactive hcoord hstart
      helsewhere.perBlockNum (threadStep_drainInv
        ((h.segment idx).drain hactive) h.handshake hactive hstep)
    have hcopy := threadStep_copyInv (h.segment idx) (h.copy idx)
      h.handshake hactive hstep
    refine ⟨⟨hhand', fun j => ?_, fun j => ?_⟩, Or.inr ⟨idx, hactive,
      heff.transfer, helsewhere, fun j hj => (hrest j hj).2.2⟩⟩
    · by_cases hj : j = idx
      · exact hj ▸ hsegment
      · exact (hrest j hj).1
    · by_cases hj : j = idx
      · exact hj ▸ hcopy
      · exact (hrest j hj).2.1
  · rw [not_exists] at hactive
    have hbusy : ¬ (s.threads t).Busy := fun hbusy => by
      obtain ⟨-, -, idx, hsignalled⟩ := h.handshake.busy t hbusy
      exact hactive idx hsignalled.active
    obtain ⟨hstore, -⟩ := threadStep_of_not_busy hstep hbusy
    have hall : ∀ j, SegmentInv j s' ∧ CopyInv j s' ∧ s'.live j = s.live j :=
      fun j => hother j (hactive j) (by rw [hstore]) (by
        rw [hstore]
        exact (h.segment j).settled (hactive j))
    exact ⟨⟨hhand', fun j => (hall j).1, fun j => (hall j).2.1⟩,
      Or.inl ⟨hstore, fun j => (hall j).2.2⟩⟩

/-! ## Steps of the coordinator and calls -/

/-- What leaves the data alone: the devices, the tables and the pairs in hand
do not change. -/
structure Unmoved (s s' : Machine T σ β) : Prop where
  dev : s'.store.dev = s.store.dev
  live : ∀ j, s'.live j = s.live j
  hash : s'.store.metaData.hash = s.store.metaData.hash
  perBlockNum : s'.store.metaData.perBlockNum = s.store.metaData.perBlockNum

omit [BlockDevice σ β] in
theorem live_congr (hstore : s'.store = s.store)
    (hthreads : s'.threads = s.threads) : s'.live idx = s.live idx := by
  have hhands : s'.hands idx = s.hands idx := by
    funext t
    simp only [Machine.hands, hthreads]
  rw [Machine.live, hstore, hhands, Machine.live]

omit [BlockDevice σ β] in
/-- A step of the coordinator inside or outside of a migration. -/
theorem SegmentInv.setCoord (h : SegmentInv idx s)
    (hstore : s'.store = s.store) (hstart : s'.start = s.start)
    (hcalls : s'.calls = s.calls) (hcounted : s'.counted = s.counted)
    (hthreads : s'.threads = s.threads)
    (hactive : s'.coord.Active idx ↔ s.coord.Active idx)
    (hreturned : s'.coord = .returned idx → s.coord = .returned idx) :
    SegmentInv idx s' := by
  have hlive : s'.live idx = s.live idx := live_congr hstore hthreads
  refine
    { shape := hstore ▸ h.shape
      keys_nodup := hlive ▸ h.keys_nodup
      values_nodup := hlive ▸ h.values_nodup
      value_lt := by
        rw [hlive, hstore]
        exact h.value_lt
      nodes := hstore ▸ h.nodes
      settled := fun hnot => hstore ▸ h.settled fun hact =>
        hnot (hactive.mpr hact)
      emptied := fun hs' => hstore ▸ h.emptied (hreturned hs')
      drain := fun hact => (h.drain (hactive.mp hact)).setCoord hstore hstart
        hcalls hcounted hthreads
      started := fun hact => hstart ▸ h.started (hactive.mp hact)
      place := fun hact => hlive ▸ h.place (hactive.mp hact) }

theorem CopyInv.congr {s s' : Machine T σ β} (h : CopyInv idx s)
    (hthreads : s'.threads = s.threads) (hbuf : s'.migrateBuf = s.migrateBuf)
    (hdev : s'.store.dev = s.store.dev)
    (hper : s'.store.metaData.perBlockNum = s.store.metaData.perBlockNum) :
    CopyInv idx s' := by
  have hblock : ∀ slot : ℤ, s'.store.metaData.bufferBlock idx slot =
      s.store.metaData.bufferBlock idx slot :=
    fun slot => MixMetadata.bufferBlock_congr hper idx slot
  constructor
  · intro t i kv hpc
    rw [hthreads] at hpc
    rw [hbuf, hdev, hblock]
    exact h.staged t i kv hpc
  · intro t i kv hpc
    rw [hthreads] at hpc
    rw [hdev, hblock]
    exact h.copied t i kv hpc

theorem CopyInv.setStore (h : CopyInv idx s) {store : Store σ β}
    (hper : store.metaData.perBlockNum = s.store.metaData.perBlockNum)
    (hbuf : ∀ kv ∈ s.live idx,
      store.dev.buffer (s.store.metaData.bufferBlock idx kv.2) =
        s.store.dev.buffer (s.store.metaData.bufferBlock idx kv.2))
    (hssd : ∀ kv ∈ s.live idx,
      store.dev.ssdBlock kv.1 = s.store.dev.ssdBlock kv.1) :
    CopyInv idx (s.setStore store) := by
  have hblock : ∀ slot : ℤ, store.metaData.bufferBlock idx slot =
      s.store.metaData.bufferBlock idx slot :=
    fun slot => MixMetadata.bufferBlock_congr hper idx slot
  have hlive : ∀ {t : Fin T} (kv : MixKv) {pc : ThreadPc},
      s.threads t = pc → pc.hand idx = some kv → kv ∈ s.live idx :=
    fun kv _ hpc hhand => Machine.mem_live_of_hand (by
      rw [Machine.hands, hpc, hhand])
  constructor
  · intro t i kv hpc
    have hkv := hlive kv hpc (by simp [ThreadPc.hand,
      ThreadPc.segment, ThreadPc.inHand])
    rw [Machine.setStore, hblock, hbuf kv hkv]
    exact h.staged t i kv hpc
  · intro t i kv hpc
    have hkv := hlive kv hpc (by simp [ThreadPc.hand,
      ThreadPc.segment, ThreadPc.inHand])
    rw [Machine.setStore, hblock, hbuf kv hkv, hssd kv hkv]
    exact h.copied t i kv hpc

/-- The mutex is held for a migration of `idx`. -/
def CoordPc.Held (idx : Fin 4) (coord : CoordPc) : Prop :=
  coord.Active idx ∨ coord = .returned idx

omit [BlockDevice σ β] in
theorem coordAdvance_eq_some (hstep : coordAdvance s = some s') :
    (∀ j, s.coord ≠ .returned j) ∧ coordStep s = some s' := by
  unfold coordAdvance at hstep
  split at hstep
  · cases hstep
  · rename_i hnot
    exact ⟨hnot, hstep⟩

omit [BlockDevice σ β] in
/-- The coordinator goes on with the same segment until it returns. -/
theorem coordAdvance_held (hstep : coordAdvance s = some s') (j : Fin 4) :
    s'.coord.Held j ↔ s.coord.Held j := by
  obtain ⟨hreturned, hstep⟩ := coordAdvance_eq_some hstep
  rcases coordStep_cases hstep with ⟨idx, hcoord, rfl⟩ |
    ⟨-, -, -, -, -, -, hactive, hnot⟩
  · rw [CoordPc.Held, CoordPc.Held, hcoord]
    simp [CoordPc.Active]
  · rw [CoordPc.Held, CoordPc.Held, hactive]
    simp [hnot j, hreturned j]

theorem MachineInv.coordAdvance (h : MachineInv s) (hT : 0 < T)
    (hstep : coordAdvance s = some s') :
    MachineInv s' ∧ Unmoved s s' := by
  obtain ⟨-, hstep⟩ := coordAdvance_eq_some hstep
  have hhand' := coordStep_handshakeInv h.handshake hstep
  rcases coordStep_cases hstep with ⟨idx, hcoord, rfl⟩ |
    ⟨hstore, hstart, hcalls, hcounted, hthreads, hbuf, hactive, hnot⟩
  · have hactive : ∀ j, s.coord.Active j ↔ idx = j := by
      intro j
      rw [hcoord]
      rfl
    have hfinish := (h.segment idx).finish h.handshake hT hcoord
    have hnil := ((h.segment idx).drained h.handshake hT hcoord).1
    have helsewhere := MixMetadata.sameElsewhere_setBitmap s.store.metaData
      idx (mixBitmapClear (s.store.metaData.segments idx).bitmap)
    refine ⟨⟨hhand', fun j => ?_, fun j =>
      CopyInv.of_inactive hhand' fun h => h.elim⟩,
      ⟨rfl, fun j => rfl, rfl, rfl⟩⟩
    by_cases hj : j = idx
    · subst hj
      exact SegmentInv.of_prefixInv hhand' (fun h => h.elim) hfinish
        fun _ => hnil
    · refine (h.segment j).of_inactive hhand' (fun h => h.elim)
        (fun heq => ?_) rfl (helsewhere.prefixInv hj
          ((h.segment j).settled fun hact => hj ((hactive j).mp hact).symm))
      cases heq
      exact absurd rfl hj
  · refine ⟨⟨hhand', fun j => ?_, fun j => ?_⟩, ?_⟩
    · exact (h.segment j).setCoord hstore hstart hcalls hcounted hthreads
        (hactive j) fun hs' => absurd hs' (hnot j)
    · exact (h.copy j).congr hthreads hbuf (by rw [hstore]) (by rw [hstore])
    · exact ⟨by rw [hstore], fun j => live_congr hstore hthreads,
        by rw [hstore], by rw [hstore]⟩

/-- A migration of segment `idx` moves its data: the segment is segment `0`,
or nothing is mapped in it, and the block `2 ^ 32 - 1` is not mapped. -/
def Movable (idx : Fin 4) (m : MixMetadata) : Prop :=
  (idx = 0 ∨ (m.hash idx).entries = []) ∧ uint32Max ∉ (m.hash idx).keys

instance (idx : Fin 4) (m : MixMetadata) : Decidable (Movable idx m) :=
  inferInstanceAs (Decidable (_ ∧ _))

/-- The call of a migration that can be carried out. -/
theorem MachineInv.call (h : MachineInv s) (hidle : s.coord = .idle)
    (hplace : idx = 0 ∨ (s.store.metaData.hash idx).entries = [])
    (hfree : uint32Max ∉ (s.store.metaData.hash idx).keys) :
    MachineInv (callMigration idx s) := by
  have hhand' := h.handshake.call hidle idx
  have hquiet : ∀ j, ¬ s.coord.Active j := by
    intro j hj
    rw [hidle] at hj
    exact hj
  have hpre := (h.segment idx).settled (hquiet idx)
  refine ⟨hhand', fun j => ?_, fun j => (h.copy j).congr rfl rfl rfl rfl⟩
  by_cases hj : j = idx
  · subst hj
    have hsegment := h.segment j
    have htable : TableOk (s.store.metaData.hash j) := by
      refine ⟨hpre.wf.len_eq, fun i hi kv hkv => ?_⟩
      exact hpre.sentinelFree_iff.mpr hfree kv
        (mem_entries.mpr ⟨i, hi, hkv⟩)
    exact
      { shape := hsegment.shape
        keys_nodup := hsegment.keys_nodup
        values_nodup := hsegment.values_nodup
        value_lt := hsegment.value_lt
        nodes := hsegment.nodes
        settled := fun hnot => absurd rfl hnot
        emptied := fun hs' => by simp [callMigration] at hs'
        drain := fun _ => h.handshake.callMigration_drainInv hidle htable
        started := fun _ => hpre
        place := fun _ => hplace.imp id fun hnil => by
          change s.live j = []
          rw [h.handshake.live_eq_entries (hquiet j), hnil] }
  · refine (h.segment j).of_inactive hhand'
      (fun hact => hj (hact : idx = j).symm) (fun hs' => ?_) rfl
      ((h.segment j).settled (hquiet j))
    simp [callMigration] at hs'

/-- The mutex is given back. -/
theorem MachineInv.release (h : MachineInv s)
    (hcoord : s.coord = .returned idx) :
    MachineInv { s with coord := .idle } := by
  have hstep : coordStep s = some { s with coord := .idle } := by
    simp [coordStep, hcoord]
  have hhand' := coordStep_handshakeInv h.handshake hstep
  have hquiet : ∀ j, ¬ s.coord.Active j := by
    intro j hj
    rw [hcoord] at hj
    exact hj
  refine ⟨hhand', fun j => ?_, fun j => (h.copy j).congr rfl rfl rfl rfl⟩
  exact (h.segment j).of_inactive hhand' (fun hact => hact)
    (fun hs' => by cases hs') rfl ((h.segment j).settled (hquiet j))

/-! ## Changes of the store by others -/

omit [BlockDevice σ β] in
/-- A change of the store that does not touch segment `idx`. -/
theorem SegmentInv.setStore (h : SegmentInv idx s) {store : Store σ β}
    (hhash : store.metaData.hash idx = s.store.metaData.hash idx)
    (hsegment : store.metaData.segments idx = s.store.metaData.segments idx)
    (hper : store.metaData.perBlockNum = s.store.metaData.perBlockNum)
    (hthreads : store.metaData.migrateThreadNum =
      s.store.metaData.migrateThreadNum) :
    SegmentInv idx (s.setStore store) := by
  have hlive : (s.setStore store).live idx = s.live idx := by
    rw [Machine.live, Machine.setStore, hhash]
    rfl
  refine
    { shape :=
        { per_lt := hper ▸ h.shape.per_lt
          threads_pos := hthreads ▸ h.shape.threads_pos
          wf := ?_
          ready := ?_ }
      keys_nodup := hlive ▸ h.keys_nodup
      values_nodup := hlive ▸ h.values_nodup
      value_lt := ?_
      nodes := ?_
      settled := fun hactive =>
        (h.settled hactive).congr hhash hsegment hper hthreads
      emptied := ?_
      drain := fun hactive => ?_
      started := h.started
      place := fun hactive => hlive ▸ h.place hactive }
  · change (store.metaData.hash idx).Wf
    rw [hhash]
    exact h.shape.wf
  · change (store.metaData.segments idx).bitmap.Ready _
    rw [hsegment]
    exact hper ▸ h.shape.ready
  · rw [hlive]
    exact hper ▸ h.value_lt
  · change (store.metaData.hash idx).freeNodes +
      (store.metaData.hash idx).entries.length = store.metaData.perBlockNum
    rw [hhash, hper]
    exact h.nodes
  · change s.coord = .returned idx → (store.metaData.hash idx).entries = []
    rw [hhash]
    exact h.emptied
  · exact (h.drain hactive).setStore hhash hsegment

/-- A change of the devices that does not touch what is live. -/
theorem MachineInv.setDevAside (h : MachineInv s) {dev : Devices σ β}
    (hbuf : dev.buffer = s.store.dev.buffer)
    (hssd : ∀ j, ∀ kv ∈ s.live j,
      dev.ssdBlock kv.1 = s.store.dev.ssdBlock kv.1) :
    MachineInv (s.setDev dev) := by
  change MachineInv (s.setStore ⟨s.store.metaData, dev⟩)
  refine ⟨h.handshake.setStore _, fun j => ?_, fun j => ?_⟩
  · exact (h.segment j).setStore rfl rfl rfl rfl
  · exact (h.copy j).setStore rfl (fun kv _ => by rw [hbuf]) (hssd j)

/-- The worker of a segment that is not being migrated changes its index and
the devices. -/
theorem MachineInv.setStore (h : MachineInv s) {store : Store σ β}
    (hheld : ¬ s.coord.Held idx)
    (helsewhere : MixMetadata.SameElsewhere idx s.store.metaData
      store.metaData)
    (hpre : PrefixInv idx store.metaData)
    (hbuf : ∀ j, j ≠ idx → ∀ kv ∈ s.live j,
      store.dev.buffer (s.store.metaData.bufferBlock j kv.2) =
        s.store.dev.buffer (s.store.metaData.bufferBlock j kv.2))
    (hssd : ∀ j, j ≠ idx → ∀ kv ∈ s.live j,
      store.dev.ssdBlock kv.1 = s.store.dev.ssdBlock kv.1) :
    MachineInv (s.setStore store) := by
  have hhand' := h.handshake.setStore store
  rw [CoordPc.Held, not_or] at hheld
  refine ⟨hhand', fun j => ?_, fun j => ?_⟩
  · by_cases hj : j = idx
    · subst hj
      exact SegmentInv.of_prefixInv hhand' hheld.1 hpre
        fun hs' => absurd hs' hheld.2
    · exact (h.segment j).setStore (helsewhere.hash_ne j hj)
        (helsewhere.segments_ne j hj) helsewhere.perBlockNum
        helsewhere.migrateThreadNum
  · by_cases hj : j = idx
    · subst hj
      exact CopyInv.of_inactive hhand' hheld.1
    · exact (h.copy j).setStore helsewhere.perBlockNum (hbuf j hj)
        (hssd j hj)

/-- The machine over a freshly initialised store. -/
theorem initial_machineInv {blockNum : ℕ} (hsize : ValidSize blockNum)
    (migration : Fin 4 → Bool) (dev : Devices σ β) (segmentIdx : Fin 4)
    (migrateBuf : Fin T → β) :
    MachineInv (Machine.initial T (freshStore blockNum migration dev)
      segmentIdx migrateBuf) := by
  have hhand := initial_handshakeInv (freshStore blockNum migration dev)
    segmentIdx migrateBuf
  refine ⟨hhand, fun j => ?_, fun j => CopyInv.of_inactive hhand fun h => h⟩
  exact SegmentInv.of_prefixInv hhand (fun h => h)
    (mixMetadataInit_prefixInv hsize migration j) fun h => by cases h

omit [BlockDevice σ β] in
theorem initial_live (blockNum : ℕ) (migration : Fin 4 → Bool)
    (dev : Devices σ β) (segmentIdx : Fin 4) (migrateBuf : Fin T → β)
    (j : Fin 4) :
    (Machine.initial T (freshStore blockNum migration dev) segmentIdx
      migrateBuf).live j = [] := by
  have hhand := initial_handshakeInv (freshStore blockNum migration dev)
    segmentIdx migrateBuf
  rw [hhand.live_eq_entries fun h => h]
  exact mixMetadataInit_entries migration j

end Uhs
