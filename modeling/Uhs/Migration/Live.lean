import Uhs.Migration.Completion
import Uhs.Migration.Worker
import Uhs.Segment.MoveOut
import Uhs.Segment.Prefix
import Uhs.Support.Holders

/-!
# Live pairs

A pair of a segment is live while it is in the table or in the hands of a
migrate thread.  A thread copies a live pair to the SSD before it releases it,
so at any time the data of a block are in the slot of its live pair or, when
it has none, on the SSD.
-/

namespace Uhs

open Support

variable {T : ℕ} {σ β : Type*}

/-- The pair of segment `idx` that a thread has in hand. -/
def ThreadPc.hand (idx : Fin 4) (pc : ThreadPc) : Option MixKv :=
  if pc.segment = some idx then pc.inHand else none

/-- The pairs of segment `idx` that the threads have in hand. -/
def Machine.hands (s : Machine T σ β) (idx : Fin 4) : Fin T → Option MixKv :=
  fun t => (s.threads t).hand idx

/-- The live pairs of segment `idx`. -/
def Machine.live (s : Machine T σ β) (idx : Fin 4) : List MixKv :=
  (s.store.metaData.hash idx).entries ++ held (s.hands idx)

variable {s s' : Machine T σ β} {t : Fin T} {idx : Fin 4}

theorem Machine.hands_goto (s : Machine T σ β) (t : Fin T) (pc : ThreadPc) :
    (s.goto t pc).hands idx =
      Function.update (s.hands idx) t (pc.hand idx) := by
  funext u
  by_cases hut : u = t
  · subst hut
    simp [Machine.hands, Machine.goto]
  · simp [Machine.hands, Machine.goto, hut]

theorem Machine.hands_goto_same {pc : ThreadPc}
    (h : pc.hand idx = (s.threads t).hand idx) :
    (s.goto t pc).hands idx = s.hands idx := by
  rw [Machine.hands_goto, h]
  exact Function.update_eq_self t (s.hands idx)

theorem ThreadPc.hand_eq_some {pc : ThreadPc} {kv : MixKv}
    (h : pc.hand idx = some kv) :
    pc.segment = some idx ∧ pc.inHand = some kv := by
  unfold ThreadPc.hand at h
  split at h
  · exact ⟨‹_›, h⟩
  · cases h

theorem CoordPc.Signalled.active {coord : CoordPc}
    (h : coord.Signalled t idx) : coord.Active idx := by
  cases coord with
  | signal idx' i => exact h.1
  | wait idx' => exact h
  | idle | storeIdx _ | zero _ | rezero _ | clearBitmap _ | returned _ =>
      exact h.elim

theorem CoordPc.Active.eq {coord : CoordPc} {idx' : Fin 4}
    (h : coord.Active idx) (h' : coord.Active idx') : idx = idx' := by
  cases coord with
  | idle | returned _ => exact h.elim
  | storeIdx _ | zero _ | signal _ _ | wait _ | rezero _ | clearBitmap _ =>
      exact h.symm.trans h'

/-- Outside of its migration no pair of a segment is in hand. -/
theorem HandshakeInv.hands_eq_none (h : HandshakeInv s)
    (hactive : ¬ s.coord.Active idx) (t : Fin T) : s.hands idx t = none := by
  cases hhand : s.hands idx t with
  | none => rfl
  | some kv =>
      have hsegment := (ThreadPc.hand_eq_some hhand).1
      exact absurd (h.segment t idx hsegment).active hactive

theorem HandshakeInv.live_eq_entries (h : HandshakeInv s)
    (hactive : ¬ s.coord.Active idx) :
    s.live idx = (s.store.metaData.hash idx).entries := by
  rw [Machine.live, held_eq_nil_iff.mpr (h.hands_eq_none hactive),
    List.append_nil]

theorem Machine.mem_live_of_hand {kv : MixKv}
    (h : s.hands idx t = some kv) : kv ∈ s.live idx :=
  List.mem_append_right _ (mem_held.mpr ⟨t, h⟩)

/-! ## The invariant of one segment -/

/-- The invariant of segment `idx` next to the machine.  A migration is only
called on segment `0` or on an empty table. -/
structure SegmentInv (idx : Fin 4) (s : Machine T σ β) : Prop where
  shape : SegmentShape idx s.store.metaData
  keys_nodup : ((s.live idx).map Prod.fst).Nodup
  values_nodup : ((s.live idx).map Prod.snd).Nodup
  value_lt : ∀ v ∈ (s.live idx).map Prod.snd,
    v < s.store.metaData.perBlockNum
  nodes : (s.store.metaData.hash idx).freeNodes +
    (s.store.metaData.hash idx).entries.length = s.store.metaData.perBlockNum
  settled : ¬ s.coord.Active idx → PrefixInv idx s.store.metaData
  emptied : s.coord = .returned idx →
    (s.store.metaData.hash idx).entries = []
  drain : s.coord.Active idx → DrainInv idx s
  started : s.coord.Active idx → PrefixInv idx s.start.metaData
  place : s.coord.Active idx → idx = 0 ∨ s.live idx = []

/-- While its segment is migrated, the block of a live pair is its slot. -/
theorem SegmentInv.bufferBlock_eq (h : SegmentInv idx s)
    (hactive : s.coord.Active idx) {kv : MixKv} (hkv : kv ∈ s.live idx) :
    s.store.metaData.bufferBlock idx kv.2 = kv.2 := by
  have hlt := h.value_lt _ (List.mem_map_of_mem hkv)
  have hper := h.shape.per_lt
  rcases h.place hactive with rfl | hnil
  · exact bufferBlock_zero (by omega)
  · rw [hnil] at hkv
    exact absurd hkv List.not_mem_nil

variable [BlockDevice σ β]

/-- What the threads of a migration of `idx` have staged and copied. -/
structure CopyInv (idx : Fin 4) (s : Machine T σ β) : Prop where
  staged : ∀ t i kv, s.threads t = .ssdWrite idx i kv →
    s.migrateBuf t =
      s.store.dev.buffer (s.store.metaData.bufferBlock idx kv.2)
  copied : ∀ t i kv, s.threads t = .clear idx i kv →
    s.store.dev.ssdBlock kv.1 =
      s.store.dev.buffer (s.store.metaData.bufferBlock idx kv.2)

/-- How a migration passes the pairs of segment `idx` to the SSD. -/
inductive Transfer (idx : Fin 4) (s s' : Machine T σ β) : Prop
  | quiet (hlive : (s.live idx).Perm (s'.live idx))
      (hdev : s'.store.dev = s.store.dev)
  | copy (kv : MixKv) (hkv : kv ∈ s.live idx)
      (hlive : (s.live idx).Perm (s'.live idx))
      (hdev : s'.store.dev = mixSsdWrite s.store.dev (fun _ =>
        s.store.dev.buffer (s.store.metaData.bufferBlock idx kv.2)) 1 kv.1)
  | release (kv : MixKv) (hlive : (s.live idx).Perm (kv :: s'.live idx))
      (hssd : s.store.dev.ssdBlock kv.1 =
        s.store.dev.buffer (s.store.metaData.bufferBlock idx kv.2))
      (hdev : s'.store.dev = mixBufferClear s.store.dev
        (s.store.metaData.bufferBlock idx kv.2))

/-! ## One step of a thread -/

/-- What a thread of the running migration does to the segment. -/
structure ThreadEffect (idx : Fin 4) (s s' : Machine T σ β) : Prop where
  transfer : Transfer idx s s'
  shape : SegmentShape idx s'.store.metaData
  nodes : (s'.store.metaData.hash idx).freeNodes +
    (s'.store.metaData.hash idx).entries.length =
      s.store.metaData.perBlockNum

/-- A step that leaves the store and the pairs in hand alone. -/
theorem SegmentInv.threadEffect_quiet (h : SegmentInv idx s)
    (hstore : s'.store = s.store) (hhands : s'.hands idx = s.hands idx) :
    ThreadEffect idx s s' := by
  refine ⟨.quiet ?_ ?_, ?_, ?_⟩
  · rw [Machine.live, Machine.live, hstore, hhands]
  · rw [hstore]
  · rw [hstore]
    exact h.shape
  · rw [hstore]
    exact h.nodes

theorem MixHash.Wf.popped {hash : MixHash} (hwf : hash.Wf) {i : ℕ}
    (hi : i < hash.hashSize) {kv : MixKv} {tail : List MixKv}
    (hlist : (hash.hashNodes i).list = kv :: tail) :
    (hash.popped i tail).Wf := by
  refine hwf.nodeFree.setNode ?_ ?_
  · have hlen := hwf.len_eq i hi
    rw [hlist, List.length_cons] at hlen
    simp only
    omega
  · intro e he
    refine hwf.placed i hi e ?_
    rw [MixHash.buckets, hlist]
    exact List.mem_cons_of_mem kv he

/-- A thread takes a pair out of the table into its hands. -/
theorem SegmentInv.popStep_effect (h : SegmentInv idx s) {i : ℕ}
    {kv : MixKv} {tail : List MixKv} (hpc : s.threads t = .pop idx i)
    (hi : i < (s.store.metaData.hash idx).hashSize)
    (hlist : ((s.store.metaData.hash idx).hashNodes i).list = kv :: tail) :
    ThreadEffect idx s (popStep s t idx i kv tail) := by
  have hperm := MixHash.popped_entries hi hlist
  have hhands : (popStep s t idx i kv tail).hands idx =
      Function.update (s.hands idx) t (some kv) := by
    change (s.goto t (.read idx i kv)).hands idx = _
    rw [Machine.hands_goto]
    simp [ThreadPc.hand, ThreadPc.segment, ThreadPc.inHand]
  have hnone : s.hands idx t = none := by
    simp [Machine.hands, hpc, ThreadPc.hand, ThreadPc.inHand]
  refine ⟨.quiet ?_ rfl, ?_, ?_⟩
  · rw [Machine.live, Machine.live, hhands, popStep_hash]
    have htake := held_take hnone kv
    exact (hperm.append_right _).trans
      ((List.perm_middle.symm).trans (htake.symm.append_left _))
  · exact
      { per_lt := h.shape.per_lt
        threads_pos := h.shape.threads_pos
        wf := by
          rw [popStep_hash]
          exact h.shape.wf.popped hi hlist
        ready := h.shape.ready }
  · have hnodes := h.nodes
    have hlen := hperm.length_eq
    rw [List.length_cons] at hlen
    rw [popStep_hash]
    change (s.store.metaData.hash idx).freeNodes + 1 + _ = _
    omega

theorem threadStep_effect (h : SegmentInv idx s) (hcopy : CopyInv idx s)
    (hhand : HandshakeInv s) (hactive : s.coord.Active idx)
    (hstep : threadStep t s = some s') : ThreadEffect idx s s' := by
  have hsegment : ∀ idx', (s.threads t).segment = some idx' → idx' = idx :=
    fun idx' hseg => (hhand.segment t idx' hseg).eq_of_active hactive
  have hemptied := (h.drain hactive).emptied t
  cases threadStep_cases hstep with
  | test hpc | fetch hpc | scan hpc | scanEnd hpc =>
      refine h.threadEffect_quiet rfl (Machine.hands_goto_same ?_)
      simp [hpc, ThreadPc.hand, ThreadPc.inHand]
  | pop hpc hpop hkv =>
      obtain rfl := hsegment _ (by rw [hpc]; rfl)
      rw [hpc] at hemptied
      obtain ⟨tail, hlist, rfl⟩ :=
        (h.drain hactive).table.of_pop_pair hemptied.1 hkv hpop
      exact h.popStep_effect hpc hemptied.1 hlist
  | popEnd hpc hpop hkv =>
      obtain rfl := hsegment _ (by rw [hpc]; rfl)
      rw [hpc] at hemptied
      obtain ⟨hlist, rfl⟩ :=
        (h.drain hactive).table.of_pop_sentinel hemptied.1 hkv hpop
      rw [MixMetadata.setHash_eq_self]
      refine h.threadEffect_quiet rfl (Machine.hands_goto_same ?_)
      simp [hpc, ThreadPc.hand, ThreadPc.inHand, Machine.setMetaData]
  | @read idx' i kv hpc =>
      refine h.threadEffect_quiet rfl ?_
      change (s.goto t (.ssdWrite idx' i kv)).hands idx = _
      apply Machine.hands_goto_same
      rw [hpc]
      rfl
  | @ssdWrite idx' i kv hpc =>
      obtain rfl := hsegment _ (by rw [hpc]; rfl)
      have hheld : s.hands idx' t = some kv := by
        simp [Machine.hands, hpc, ThreadPc.hand, ThreadPc.segment,
          ThreadPc.inHand]
      rw [hcopy.staged t i kv hpc]
      refine ⟨.copy kv (Machine.mem_live_of_hand hheld) ?_ rfl, h.shape,
        h.nodes⟩
      rw [Machine.live, Machine.live, Machine.hands_goto_same]
      · rfl
      · rw [Machine.setDev, hpc]
        rfl
  | @clear idx' i kv hpc =>
      obtain rfl := hsegment _ (by rw [hpc]; rfl)
      have hheld : s.hands idx' t = some kv := by
        simp [Machine.hands, hpc, ThreadPc.hand, ThreadPc.segment,
          ThreadPc.inHand]
      have hblock := h.bufferBlock_eq hactive (Machine.mem_live_of_hand hheld)
      refine ⟨.release kv ?_ (hcopy.copied t i kv hpc) ?_, h.shape,
        h.nodes⟩
      · rw [Machine.live, Machine.live, Machine.hands_goto]
        have hgive := held_give hheld
        simp only [ThreadPc.hand, ThreadPc.segment]
        exact (hgive.append_left _).trans List.perm_middle
      · rw [hblock]
        rfl
  | dec hpc =>
      obtain rfl := hsegment _ (by rw [hpc]; rfl)
      refine ⟨.quiet ?_ rfl, ?_, ?_⟩
      · rw [Machine.live, Machine.live, Machine.hands_goto_same]
        · rfl
        · rw [Machine.setMetaData, hpc]
          rfl
      · exact
          { per_lt := h.shape.per_lt
            threads_pos := h.shape.threads_pos
            wf := h.shape.wf
            ready := by
              have hready := h.shape.ready
              simpa [Machine.goto, Machine.setMetaData] using hready }
      · exact h.nodes
  | count hpc =>
      refine h.threadEffect_quiet rfl ?_
      change (s.goto t .reset).hands idx = _
      apply Machine.hands_goto_same
      simp [hpc, ThreadPc.hand, ThreadPc.inHand]
  | reset hpc =>
      refine h.threadEffect_quiet rfl ?_
      change (s.goto t .test).hands idx = _
      apply Machine.hands_goto_same
      rw [hpc]
      rfl

/-- What a thread does to the devices and to its staging buffer. -/
structure ThreadDevices (t : Fin T) (s s' : Machine T σ β) : Prop where
  buffer : s'.store.dev.buffer = s.store.dev.buffer
  perBlockNum : s'.store.metaData.perBlockNum = s.store.metaData.perBlockNum
  threads_ne : ∀ u, u ≠ t → s'.threads u = s.threads u
  migrateBuf_ne : ∀ u, u ≠ t → s'.migrateBuf u = s.migrateBuf u
  ssd_ne : ∀ a, (∀ idx i kv, s.threads t = .ssdWrite idx i kv → a ≠ kv.1) →
    s'.store.dev.ssdBlock a = s.store.dev.ssdBlock a
  staged : ∀ idx i kv, s'.threads t = .ssdWrite idx i kv →
    s.threads t = .read idx i kv ∧
      s'.migrateBuf t = s.store.dev.buffer kv.2
  copied : ∀ idx i kv, s'.threads t = .clear idx i kv →
    s.threads t = .ssdWrite idx i kv ∧
      s'.store.dev.ssdBlock kv.1 = s.migrateBuf t

omit [BlockDevice σ β] in
theorem Machine.goto_threads_self (s : Machine T σ β) (t : Fin T)
    (pc : ThreadPc) : (s.goto t pc).threads t = pc := by
  simp [Machine.goto]

omit [BlockDevice σ β] in
theorem Machine.goto_threads_of_ne (s : Machine T σ β) {t u : Fin T}
    (pc : ThreadPc) (hut : u ≠ t) :
    (s.goto t pc).threads u = s.threads u := by
  simp [Machine.goto, hut]

/-- A step to a place where nothing is staged or copied. -/
theorem ThreadDevices.of_goto {pc : ThreadPc}
    (hthreads : s'.threads = (s.goto t pc).threads)
    (hbuf : s'.migrateBuf = s.migrateBuf)
    (hdev : s'.store.dev = s.store.dev)
    (hper : s'.store.metaData.perBlockNum = s.store.metaData.perBlockNum)
    (hstaged : ∀ idx i kv, pc ≠ .ssdWrite idx i kv)
    (hcopied : ∀ idx i kv, pc ≠ .clear idx i kv) : ThreadDevices t s s' where
  buffer := by rw [hdev]
  perBlockNum := hper
  threads_ne := by
    intro u hut
    rw [hthreads, Machine.goto_threads_of_ne _ _ hut]
  migrateBuf_ne := by
    intro u _
    rw [hbuf]
  ssd_ne := by
    intro a _
    rw [hdev]
  staged := by
    intro idx i kv hpc
    rw [hthreads, Machine.goto_threads_self] at hpc
    exact absurd hpc (hstaged idx i kv)
  copied := by
    intro idx i kv hpc
    rw [hthreads, Machine.goto_threads_self] at hpc
    exact absurd hpc (hcopied idx i kv)

theorem threadStep_devices (hstep : threadStep t s = some s') :
    ThreadDevices t s s' := by
  cases threadStep_cases hstep with
  | @read idx i kv hpc =>
      refine ⟨rfl, rfl, ?_, ?_, fun _ _ => rfl, ?_, ?_⟩
      · exact fun u hut => Machine.goto_threads_of_ne s _ hut
      · exact fun u hut => Function.update_of_ne hut _ _
      · intro idx' i' kv' hpc'
        obtain ⟨rfl, rfl, rfl⟩ : idx = idx' ∧ i = i' ∧ kv = kv' := by
          simpa [Machine.goto] using hpc'
        exact ⟨hpc, Function.update_self _ _ _⟩
      · intro idx' i' kv' hpc'
        simp [Machine.goto] at hpc'
  | @ssdWrite idx i kv hpc =>
      refine ⟨rfl, rfl, ?_, fun _ _ => rfl, ?_, ?_, ?_⟩
      · exact fun u hut => Machine.goto_threads_of_ne s _ hut
      · intro a ha
        change (mixSsdWrite s.store.dev _ 1 kv.1).ssdBlock a = _
        have hne := ha idx i kv hpc
        rw [mixSsdWrite_ssdBlock, if_neg (by omega)]
      · intro idx' i' kv' hpc'
        simp [Machine.goto, Machine.setDev] at hpc'
      · intro idx' i' kv' hpc'
        obtain ⟨rfl, rfl, rfl⟩ : idx = idx' ∧ i = i' ∧ kv = kv' := by
          simpa [Machine.goto] using hpc'
        refine ⟨hpc, ?_⟩
        change (mixSsdWrite s.store.dev _ 1 kv.1).ssdBlock kv.1 = _
        rw [mixSsdWrite_ssdBlock, if_pos (by omega)]
  | clear hpc =>
      refine ⟨rfl, rfl, ?_, fun _ _ => rfl, fun _ _ => rfl, ?_, ?_⟩
      · exact fun u hut => Machine.goto_threads_of_ne s _ hut
      · intro idx' i' kv' hpc'
        simp [Machine.goto, Machine.setDev] at hpc'
      · intro idx' i' kv' hpc'
        simp [Machine.goto, Machine.setDev] at hpc'
  | test | fetch | scan | scanEnd | pop | popEnd | dec | count | reset =>
      exact ThreadDevices.of_goto rfl rfl rfl rfl (by simp) (by simp)

theorem threadStep_copyInv (h : SegmentInv idx s) (hcopy : CopyInv idx s)
    (hhand : HandshakeInv s) (hactive : s.coord.Active idx)
    (hstep : threadStep t s = some s') : CopyInv idx s' := by
  have hdev := threadStep_devices hstep
  have hblock : ∀ slot : ℤ, s'.store.metaData.bufferBlock idx slot =
      s.store.metaData.bufferBlock idx slot :=
    fun slot => MixMetadata.bufferBlock_congr hdev.perBlockNum idx slot
  have hheld : ∀ {u : Fin T} (kv : MixKv) {pc : ThreadPc},
      s.threads u = pc → pc.hand idx = some kv → s.hands idx u = some kv :=
    fun kv _ hpc hhand => by rw [Machine.hands, hpc, hhand]
  have hnodup : ((held (s.hands idx)).map Prod.fst).Nodup := by
    have hkeys := h.keys_nodup
    rw [Machine.live, List.map_append] at hkeys
    exact hkeys.of_append_right
  have hplace : ∀ {i : ℕ} {kv : MixKv}, s.threads t = .read idx i kv →
      s.store.metaData.bufferBlock idx kv.2 = kv.2 := by
    intro i kv hpc
    have hread := hheld kv hpc (by simp [ThreadPc.hand,
      ThreadPc.segment, ThreadPc.inHand])
    exact h.bufferBlock_eq hactive (Machine.mem_live_of_hand hread)
  constructor
  · intro u i kv hpc
    rw [hblock, hdev.buffer]
    by_cases hut : u = t
    · subst hut
      obtain ⟨hread, hbuf⟩ := hdev.staged idx i kv hpc
      rw [hbuf, hplace hread]
    · rw [hdev.threads_ne u hut] at hpc
      rw [hdev.migrateBuf_ne u hut]
      exact hcopy.staged u i kv hpc
  · intro u i kv hpc
    rw [hblock, hdev.buffer]
    by_cases hut : u = t
    · subst hut
      obtain ⟨hwrite, hssd⟩ := hdev.copied idx i kv hpc
      rw [hssd]
      exact hcopy.staged u i kv hwrite
    · rw [hdev.threads_ne u hut] at hpc
      rw [hdev.ssd_ne kv.1 ?_]
      · exact hcopy.copied u i kv hpc
      · intro idx' i' kv' hwrite hkey
        -- two threads never have the same block in hand
        obtain rfl : idx' = idx := (hhand.segment t idx' (by
          rw [hwrite]
          rfl)).eq_of_active hactive
        have hclear := hheld kv hpc (by simp [ThreadPc.hand,
          ThreadPc.segment, ThreadPc.inHand])
        have hwrite' := hheld kv' hwrite (by simp [ThreadPc.hand,
          ThreadPc.segment, ThreadPc.inHand])
        exact hut (holder_unique hnodup hclear hwrite' hkey)

end Uhs
