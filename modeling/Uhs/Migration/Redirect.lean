import Uhs.Migration.Invariant

/-!
# What a worker does to the machine

The steps of `redirect_write` next to the running machine: it hits a mapped
slot, takes a new one, or goes to migrate a full segment first.  The copy of
the data and of the metadata record each change one buffer block.
-/

namespace Uhs

open Support

variable {T : ℕ} {σ β : Type*} {s s' : Machine T σ β} {idx : Fin 4}
  {task : IoTask β} {pc : WorkerPc β}

/-! ## The paths of `redirect_write` -/

theorem workerStart_of_hit {v : ℤ}
    (hit : mixBufferBlockTest s.store.metaData task.offset idx = v)
    (hv : v ≠ -1) : workerStart idx s task = some (s, .data task v) := by
  simp [workerStart, hit, hv]

theorem workerStart_of_full
    (hmiss : mixBufferBlockTest s.store.metaData task.offset idx = -1)
    (hfull : IsFull idx s.store.metaData) :
    workerStart idx s task = some (s, .lock (some task)) := by
  simp [workerStart, hmiss, mixGetNextFreeBlock_of_full hfull,
    Machine.setMetaData]

theorem workerStart_of_room (hshape : SegmentShape idx s.store.metaData)
    (hmiss : mixBufferBlockTest s.store.metaData task.offset idx = -1)
    (hroom : ¬ IsFull idx s.store.metaData) :
    workerStart idx s task =
      (takeSlot s.store task idx false).map fun choice =>
        (s.setStore choice.store, .data task choice.slot) := by
  rw [workerStart, takeSlot]
  simp only [hmiss, if_true]
  cases hnext : mixGetNextFreeBlock s.store.metaData idx with
  | none => rfl
  | some r =>
      obtain ⟨slot, bitmap, rfl, -⟩ :=
        mixGetNextFreeBlock_of_room hshape hroom hnext
      have hslot : ¬ ((slot : ℤ) = -1) := by omega
      simp only [Option.bind_some, hslot, if_false]
      rfl

variable [BlockDevice σ β]

/-- The worker of segment `idx` enters `key` with a slot that was free. -/
structure Takes (idx : Fin 4) (key slot : ℕ) (s s' : Machine T σ β) :
    Prop where
  inv : MachineInv s'
  coord : s'.coord = s.coord
  dev : s'.store.dev = s.store.dev
  elsewhere : MixMetadata.SameElsewhere idx s.store.metaData
    s'.store.metaData
  live : (s'.live idx).Perm ((key, slot) :: s.live idx)
  live_ne : ∀ j, j ≠ idx → s'.live j = s.live j
  mem : (key, slot) ∈ (s'.store.metaData.hash idx).entries

theorem MachineInv.takeSlot (h : MachineInv s)
    (hheld : ¬ s.coord.Held idx) (hlba : task.offset < 2 ^ 32)
    (hkey : task.offset ∉ (s.store.metaData.hash idx).keys)
    (hroom : ¬ IsFull idx s.store.metaData) (migrated : Bool) :
    ∃ choice, takeSlot s.store task idx migrated = some choice ∧
      ∃ slot : ℕ, choice.slot = slot ∧
        Takes idx task.offset slot s (s.setStore choice.store) := by
  have hactive : ¬ s.coord.Active idx := fun hact => hheld (Or.inl hact)
  have hpre := (h.segment idx).settled hactive
  have hkeyEq : lbaKey task.offset = task.offset := Nat.mod_eq_of_lt hlba
  obtain ⟨choice, slot, htake, hslot, -, hdev, -, -, hclaimed, hchoice⟩ :=
    hpre.takeSlot_spec hroom (by rw [hkeyEq]; exact hkey) migrated
  rw [hkeyEq] at hclaimed
  have hinv : MachineInv (s.setStore choice.store) :=
    h.setStore hheld hclaimed.toSameElsewhere hchoice
      (fun _ _ _ _ => by rw [hdev]) (fun _ _ _ _ => by rw [hdev])
  refine ⟨choice, htake, slot, hslot, hinv, rfl, hdev,
    hclaimed.toSameElsewhere, ?_, ?_, ?_⟩
  · rw [hinv.handshake.live_eq_entries hactive,
      h.handshake.live_eq_entries hactive]
    exact hclaimed.entries
  · intro j hj
    rw [Machine.live, Machine.live, Machine.setStore,
      hclaimed.hash_ne j hj]
    rfl
  · exact hclaimed.entries.mem_iff.mpr List.mem_cons_self

/-- `redirect_write` up to its copy or its migration. -/
theorem MachineInv.workerStart_cases (h : MachineInv s)
    (hheld : ¬ s.coord.Held idx) (hlba : task.offset < 2 ^ 32)
    (hstep : workerStart idx s task = some (s', pc)) :
    (s' = s ∧ ∃ v : ℕ, pc = .data task v ∧
        (task.offset, v) ∈ (s.store.metaData.hash idx).entries) ∨
      task.offset ∉ (s.store.metaData.hash idx).keys ∧
        (s' = s ∧ pc = .lock (some task) ∧ IsFull idx s.store.metaData ∨
          ∃ slot : ℕ, pc = .data task slot ∧
            Takes idx task.offset slot s s') := by
  have hactive : ¬ s.coord.Active idx := fun hact => hheld (Or.inl hact)
  have hpre := (h.segment idx).settled hactive
  have hkeyEq : lbaKey task.offset = task.offset := Nat.mod_eq_of_lt hlba
  by_cases hkey : task.offset ∈ (s.store.metaData.hash idx).keys
  · obtain ⟨v, hv⟩ := MixHash.mem_keys.mp hkey
    have hit := hpre.blockTest_of_mem (by rw [hkeyEq]; exact hv)
    rw [workerStart_of_hit hit (by omega)] at hstep
    cases hstep
    exact Or.inl ⟨rfl, v, rfl, hv⟩
  · refine Or.inr ⟨hkey, ?_⟩
    have hmiss := hpre.blockTest_of_notMem
      (by rw [hkeyEq]; exact hkey)
    by_cases hfull : IsFull idx s.store.metaData
    · rw [workerStart_of_full hmiss hfull] at hstep
      cases hstep
      exact Or.inl ⟨rfl, rfl, hfull⟩
    · obtain ⟨choice, htake, slot, hslot, htakes⟩ :=
        h.takeSlot hheld hlba hkey hfull false
      rw [workerStart_of_room hpre.toSegmentShape hmiss hfull, htake]
        at hstep
      cases hstep
      exact Or.inr ⟨slot, by rw [hslot], htakes⟩

/-- After its migration `redirect_write` finds a slot. -/
theorem MachineInv.workerResume_cases (h : MachineInv s)
    (hcoord : s.coord = .returned idx)
    (hlba : task.offset < 2 ^ 32)
    (hstep : workerResume idx { s with coord := .idle } (some task) =
      some (s', pc)) :
    ∃ slot : ℕ, pc = .data task slot ∧
      Takes idx task.offset slot { s with coord := .idle } s' := by
  have hrelease := h.release hcoord
  have hnil := (h.segment idx).emptied hcoord
  have hheld : ¬ CoordPc.Held idx .idle := by
    rintro (hact | hret)
    · exact hact
    · cases hret
  have hpre := (hrelease.segment idx).settled fun hact => hact
  obtain ⟨choice, htake, slot, hslot, htakes⟩ := hrelease.takeSlot
    hheld hlba (by simp [MixHash.keys, hnil])
    (hpre.not_isFull_of_nil hnil) true
  rw [workerResume] at hstep
  simp only [htake, Option.map_some, Option.some.injEq, Prod.mk.injEq]
    at hstep
  obtain ⟨rfl, rfl⟩ := hstep
  exact ⟨slot, by rw [hslot], htakes⟩

/-! ## The copy -/

theorem MachineInv.live_lt (h : MachineInv s) {kv : MixKv}
    (hkv : kv ∈ s.live idx) : kv.2 < s.store.metaData.perBlockNum :=
  (h.segment idx).value_lt _ (List.mem_map_of_mem hkv)

/-- The worker writes to the block of a mapped slot. -/
theorem MachineInv.setDev (h : MachineInv s) (hheld : ¬ s.coord.Held idx)
    {key v : ℕ} (hmem : (key, v) ∈ (s.store.metaData.hash idx).entries)
    {dev : Devices σ β}
    (hbuf : ∀ p, p ≠ s.store.metaData.bufferBlock idx v →
      dev.buffer p = s.store.dev.buffer p)
    (hssd : dev.ssd = s.store.dev.ssd) : MachineInv (s.setDev dev) := by
  have hactive : ¬ s.coord.Active idx := fun hact => hheld (Or.inl hact)
  have hlive : (key, v) ∈ s.live idx := List.mem_append_left _ hmem
  have hv : v < s.store.metaData.perBlockNum := h.live_lt hlive
  change MachineInv (s.setStore ⟨s.store.metaData, dev⟩)
  refine h.setStore hheld
    (MixMetadata.SameElsewhere.refl _ _) ((h.segment idx).settled hactive)
    ?_ fun _ _ _ _ => by simp only [Devices.ssdBlock, hssd]
  intro j hj kv hkv
  refine hbuf _ fun hblock => hj ?_
  exact (MixMetadata.bufferBlock_inj (h.segment j).shape.per_lt
    (h.live_lt hkv) hv hblock).1

end Uhs
