import Uhs.Migration.Invariant
import Uhs.Segment.MoveOut
import Uhs.Segment.BufferedWrite
import Uhs.Store.Dispatch

/-!
# Small writes

A small write of the SSD range is buffered in the segment of its block, for
length `0` just as for length `1`.  What it changes is settled here, block by
block, for a block that is mapped or finds a free slot.
-/

namespace Uhs

open Support

variable {σ β : Type*} [BlockDevice σ β]

/-- The segment of an SSD block. -/
def segmentOf (b : ℕ) : Fin 4 := Fin.ofNat 4 b

/-- The logical contents of an SSD block. -/
def Store.contents (s : Store σ β) (b : ℕ) : β :=
  let slot := mixBufferBlockTest s.metaData b (segmentOf b)
  if slot = -1 then s.dev.ssdBlock b
  else s.dev.buffer (s.metaData.bufferBlock (segmentOf b) slot)

/-- What `nvm_worker` makes of a task that it takes from its queue. -/
def handleTask (s : Store σ β) (task : IoTask β) : Option (Store σ β) :=
  match workerBranch task with
  | .nvmRead => some s
  | .nvmWrite =>
      some { s with dev := mixNvmWrite s.dev task.buf task.len task.offset }
  | .clear => some (mixClearBlock s task (smallQueue task))
  | .redirectRead => some s
  | .redirectWrite => bufferedWrite s (smallQueue task, task)
  | .skip => some s

/-- A buffered write by the worker of its segment. -/
def bufferTask (s : Store σ β) (task : IoTask β) : Option (Store σ β) :=
  bufferedWrite s (smallQueue task, task)

/-- The block is mapped, or its segment has a free slot. -/
def HasSlot (s : Store σ β) (b : ℕ) : Prop :=
  mixBufferBlockTest s.metaData b (segmentOf b) ≠ -1 ∨
    ¬ IsFull (segmentOf b) s.metaData

instance (s : Store σ β) (b : ℕ) : Decidable (HasSlot s b) :=
  inferInstanceAs (Decidable (_ ∨ _))

/-! ## One buffered write -/

/-- Block `task.offset` is buffered in slot `v`; the other segments and the
other keys of its segment stay as they were. -/
structure BuffersAt (task : IoTask β) (v : ℕ) (s s' : Store σ β) : Prop
    extends MixMetadata.SameElsewhere (smallQueue task)
      s.metaData s'.metaData where
  lt : v < s.metaData.perBlockNum
  index : PrefixInv (smallQueue task) s'.metaData
  mem : (lbaKey task.offset, v) ∈
    (s'.metaData.hash (smallQueue task)).entries
  others : ∀ kv : MixKv, kv.1 ≠ lbaKey task.offset →
    (kv ∈ (s'.metaData.hash (smallQueue task)).entries ↔
      kv ∈ (s.metaData.hash (smallQueue task)).entries)
  bit : ∀ i, s.metaData.perBlockNum ≤ i →
    testBit (s'.metaData.segments (smallQueue task)).bitmap.array i =
      testBit (s.metaData.segments (smallQueue task)).bitmap.array i
  dev : s'.dev = mixBufferWrite s.dev (task.buf 0) task.offset
    (s.metaData.bufferBlock (smallQueue task) v) task.opcode

variable {s s' : Store σ β} {task : IoTask β} {v b : ℕ}

omit [BlockDevice σ β] in
theorem smallQueue_eq (task : IoTask β) :
    smallQueue task = segmentOf task.offset := rfl

theorem bufferTask_of_slot {choice : SlotChoice σ β}
    (h : redirectSlot s task (smallQueue task) = some choice) :
    bufferTask s task = some (choice.write task (smallQueue task)) := by
  simp [bufferTask, bufferedWrite, redirectWrite, h]

/-- A mapped block is written in its slot, and the index stays as it is. -/
theorem bufferTask_of_mem (hinv : PrefixInv (smallQueue task) s.metaData)
    (hmem : (lbaKey task.offset, v) ∈
      (s.metaData.hash (smallQueue task)).entries) :
    ∃ s', bufferTask s task = some s' ∧ BuffersAt task v s s' ∧
      s'.metaData = s.metaData := by
  have hit := hinv.toIndexInv.blockTest_of_mem hmem
  refine ⟨_, bufferTask_of_slot (redirectSlot_of_hit hit (by omega)), ?_, rfl⟩
  exact
    { toSameElsewhere := MixMetadata.SameElsewhere.refl _ _
      lt := hinv.value_lt v (MixHash.mem_values_of_mem hmem)
      index := hinv
      mem := hmem
      others := fun _ _ => Iff.rfl
      bit := fun _ _ => rfl
      dev := rfl }

/-- An unmapped block is entered with the slot that it is given. -/
theorem bufferTask_of_notMem (hinv : PrefixInv (smallQueue task) s.metaData)
    (hkey : lbaKey task.offset ∉ (s.metaData.hash (smallQueue task)).keys)
    (hroom : ¬ IsFull (smallQueue task) s.metaData) :
    ∃ s' v, bufferTask s task = some s' ∧ BuffersAt task v s s' ∧
      (s'.metaData.hash (smallQueue task)).entries.length =
        (s.metaData.hash (smallQueue task)).entries.length + 1 := by
  have hmiss := hinv.toIndexInv.blockTest_of_notMem hkey
  obtain ⟨choice, v, htake, hslot, -, hdev, -, hlt, hclaimed, hinv'⟩ :=
    hinv.takeSlot_spec hroom hkey false
  have hredirect : redirectSlot s task (smallQueue task) = some choice := by
    rw [redirectSlot_of_room hinv.toSegmentShape hmiss hroom]
    exact htake
  refine ⟨_, v, bufferTask_of_slot hredirect, ?_, ?_⟩
  · exact
      { toSameElsewhere := hclaimed.toSameElsewhere
        lt := hlt
        index := hinv'
        mem := hclaimed.entries.mem_iff.mpr List.mem_cons_self
        others := by
          intro kv hkv
          refine hclaimed.entries.mem_iff.trans ?_
          rw [List.mem_cons, or_iff_right]
          rintro rfl
          exact hkv rfl
        bit := by
          intro i hi
          have hne : i ≠ v := by omega
          have hbit : testBit (choice.store.metaData.segments
              (smallQueue task)).bitmap.array i =
                testBit (s.metaData.segments
                  (smallQueue task)).bitmap.array i := by
            rw [hclaimed.array, testBit_setBit]
            simp [hne]
          exact hbit
        dev := by
          simp only [SlotChoice.write, hdev, hslot,
            MixMetadata.bufferBlock_congr hclaimed.perBlockNum] }
  · exact hclaimed.entries.length_eq

/-- With a slot a buffered write returns. -/
theorem bufferTask_buffersAt
    (hinv : PrefixInv (smallQueue task) s.metaData)
    (hslot : HasSlot s task.offset) :
    ∃ s' v, bufferTask s task = some s' ∧ BuffersAt task v s s' := by
  by_cases hkey : lbaKey task.offset ∈
      (s.metaData.hash (smallQueue task)).keys
  · obtain ⟨v, hmem⟩ := MixHash.mem_keys.mp hkey
    obtain ⟨s', hstep, hat, -⟩ := bufferTask_of_mem hinv hmem
    exact ⟨s', v, hstep, hat⟩
  · have hroom : ¬ IsFull (smallQueue task) s.metaData :=
      hslot.resolve_left fun h =>
        h (hinv.toIndexInv.blockTest_of_notMem hkey)
    obtain ⟨s', v, hstep, hat, -⟩ := bufferTask_of_notMem hinv hkey hroom
    exact ⟨s', v, hstep, hat⟩

/-- What buffered writes keep in a segment: its index is a prefix, its keys are
those of its own blocks, and the bit before the bitmap, which slot `-1` is
checked with, is clear. -/
structure BufferInv (j : Fin 4) (m : MixMetadata) : Prop
    extends PrefixInv j m where
  homed : ∀ key ∈ (m.hash j).keys, key < 2 ^ 32 ∧ segmentOf key = j
  farBit : testBit (m.segments j).bitmap.array uint32Max = false

/-- The key of a block is in the segment of the block. -/
theorem segmentOf_lbaKey (b : ℕ) : segmentOf (lbaKey b) = segmentOf b := by
  apply Fin.ext
  simp only [segmentOf, lbaKey, Fin.ofNat]
  omega

omit [BlockDevice σ β] in
theorem BuffersAt.bufferInv (h : BuffersAt task v s s')
    (hinv : ∀ j, BufferInv j s.metaData) (j : Fin 4) :
    BufferInv j s'.metaData := by
  by_cases hj : j = smallQueue task
  · subst hj
    have hold := hinv (smallQueue task)
    have hper := hold.per_lt
    refine ⟨h.index, ?_, ?_⟩
    · intro key hmem
      obtain ⟨u, hu⟩ := MixHash.mem_keys.mp hmem
      by_cases hkey : key = lbaKey task.offset
      · subst hkey
        exact ⟨Nat.mod_lt _ (by decide), segmentOf_lbaKey task.offset⟩
      · have hu' := (h.others (key, u) hkey).mp hu
        exact hold.homed key (MixHash.mem_keys_of_mem hu')
    · rw [h.bit _ (by rw [uint32Max]; omega)]
      exact hold.farBit
  · refine ⟨h.toSameElsewhere.prefixInv hj (hinv j).toPrefixInv, ?_, ?_⟩
    · rw [h.hash_ne j hj]
      exact (hinv j).homed
    · rw [h.segments_ne j hj]
      exact (hinv j).farBit

/-! ## The contents of the blocks -/

omit [BlockDevice σ β] in
/-- Blocks with a common key are blocks of one segment. -/
theorem segmentOf_eq_of_lbaKey {a b : ℕ} (h : lbaKey a = lbaKey b) :
    segmentOf a = segmentOf b := by
  unfold lbaKey at h
  apply Fin.ext
  simp only [segmentOf, Fin.ofNat]
  omega

theorem Store.contents_of_mem (hinv : IndexInv (segmentOf b) s.metaData)
    (hmem : (lbaKey b, v) ∈ (s.metaData.hash (segmentOf b)).entries) :
    s.contents b =
      s.dev.buffer (s.metaData.bufferBlock (segmentOf b) v) := by
  have hne : ¬ ((v : ℤ) = -1) := by omega
  simp only [Store.contents, hinv.blockTest_of_mem hmem, if_neg hne]

theorem Store.contents_of_notMem (hinv : IndexInv (segmentOf b) s.metaData)
    (hkey : lbaKey b ∉ (s.metaData.hash (segmentOf b)).keys) :
    s.contents b = s.dev.ssdBlock b := by
  simp only [Store.contents, hinv.blockTest_of_notMem hkey, if_true]

/-- The block that was written, and those that share its key, hold the data of
the write. -/
theorem BuffersAt.contents_same (h : BuffersAt task v s s')
    (hkey : lbaKey b = lbaKey task.offset) : s'.contents b = task.buf 0 := by
  have hseg : segmentOf b = smallQueue task := segmentOf_eq_of_lbaKey hkey
  have hmem : (lbaKey b, v) ∈ (s'.metaData.hash (segmentOf b)).entries := by
    rw [hseg, hkey]
    exact h.mem
  have hindex : IndexInv (segmentOf b) s'.metaData := by
    rw [hseg]
    exact h.index.toIndexInv
  rw [Store.contents_of_mem hindex hmem, hseg, h.dev,
    MixMetadata.bufferBlock_congr h.perBlockNum, mixBufferWrite_buffer,
    Function.update_self]

/-- A block with another key keeps its contents. -/
theorem BuffersAt.contents_other (h : BuffersAt task v s s')
    (hinv : ∀ j, BufferInv j s.metaData)
    (hkey : lbaKey b ≠ lbaKey task.offset) :
    s'.contents b = s.contents b := by
  have hinv' := h.bufferInv hinv
  have hentries : ∀ u : ℕ,
      (lbaKey b, u) ∈ (s'.metaData.hash (segmentOf b)).entries ↔
        (lbaKey b, u) ∈ (s.metaData.hash (segmentOf b)).entries := by
    intro u
    by_cases hseg : segmentOf b = smallQueue task
    · rw [hseg]
      exact h.others _ hkey
    · rw [h.hash_ne _ hseg]
  by_cases hmapped : lbaKey b ∈ (s.metaData.hash (segmentOf b)).keys
  · obtain ⟨u, hu⟩ := MixHash.mem_keys.mp hmapped
    have hu' := (hentries u).mpr hu
    have hult := (hinv (segmentOf b)).value_lt u (MixHash.mem_values_of_mem hu)
    rw [Store.contents_of_mem (hinv _).toIndexInv hu,
      Store.contents_of_mem (hinv' _).toIndexInv hu', h.dev,
      MixMetadata.bufferBlock_congr h.perBlockNum, mixBufferWrite_buffer,
      Function.update_of_ne]
    -- another slot, or a slot of another segment, has another buffer block
    intro heq
    obtain ⟨hseg, huv⟩ :=
      MixMetadata.bufferBlock_inj (hinv (segmentOf b)).per_lt hult h.lt heq
    rw [hseg, huv] at hu'
    have hpair := List.inj_on_of_nodup_map h.index.values_nodup hu' h.mem rfl
    exact hkey (congrArg Prod.fst hpair)
  · have hmapped' : lbaKey b ∉ (s'.metaData.hash (segmentOf b)).keys := by
      intro hmem
      obtain ⟨u, hu⟩ := MixHash.mem_keys.mp hmem
      exact hmapped (MixHash.mem_keys_of_mem ((hentries u).mp hu))
    rw [Store.contents_of_notMem (hinv _).toIndexInv hmapped,
      Store.contents_of_notMem (hinv' _).toIndexInv hmapped', h.dev,
      mixBufferWrite_ssdBlock]

/-! ## Requests of at most one block -/

/-- A write of at most one block to an SSD of `blocks` blocks. -/
structure Request.IsSmallWrite (request : Request β) (blocks : ℕ) :
    Prop where
  isWrite : request.isWrite = true
  len_le : request.len ≤ 1
  range : nvmThreshold ≤ request.offset
  block_lt : request.offset < nvmThreshold + blocks
  blocks_le : nvmThreshold + blocks ≤ 2 ^ 64
  ssd : ¬ request.ToNvm

/-- The SSD block at which a request starts. -/
def Request.lba (request : Request β) : ℕ := request.offset - nvmThreshold

/-- The logical contents of the blocks of the request are those of its memory,
all others are as before; without a block no entry and no record changes. -/
structure WritesExactly (blocks : ℕ) (request : Request β)
    (s s' : Store σ β) : Prop where
  contents : ∀ b < blocks, s'.contents b =
    if request.lba ≤ b ∧ b < request.lba + request.len then
      request.buf (b - request.lba)
    else s.contents b
  empty : request.len = 0 →
    (∀ j, (s'.metaData.hash j).entries = (s.metaData.hash j).entries) ∧
      s'.dev.bufferMeta = s.dev.bufferMeta

variable {request : Request β} {blocks : ℕ} {c : Fin 16}

omit [BlockDevice σ β] in
/-- The task of a small write. -/
theorem Request.IsSmallWrite.task_eq (h : request.IsSmallWrite blocks)
    (c : Fin 16) :
    request.task c = ⟨request.buf, request.len, request.lba,
      request.flags ||| mixWrite, .ssd, c⟩ := by
  have hrange := h.range
  have hlt := h.block_lt
  have hle := h.blocks_le
  have htask : request.task c = ⟨request.buf, request.len,
      toSizeT ((request.offset : ℤ) - nvmThreshold),
      request.flags ||| (if request.isWrite then mixWrite else mixRead),
      .ssd, c⟩ := if_neg h.ssd
  rw [htask, toSizeT_sub hrange (by omega), if_pos h.isWrite]
  rfl

omit [BlockDevice σ β] in
/-- A small write without `MIX_READ` posts its task. -/
theorem Request.IsSmallWrite.postings_eq (h : request.IsSmallWrite blocks)
    (c : Fin 16) :
    request.postings c =
      if request.flags &&& mixRead = 0 then
        [{ task := request.task c, waits := true, meant := .redirectWrite }]
      else [] := by
  have hsmall : request.len ≤ smallThreshold := h.len_le
  rw [Request.postings, post_of_ssd_write h.ssd h.isWrite]
  by_cases hread : request.flags &&& mixRead = 0
  · simp [hread, hsmall]
  · simp [hread]

omit [BlockDevice σ β] in
/-- The branch of the task of a small write. -/
theorem Request.IsSmallWrite.branch (h : request.IsSmallWrite blocks)
    (hread : request.flags &&& mixRead = 0) (c : Fin 16) :
    workerBranch (request.task c) =
      if request.flags &&& mixClear = 0 then .redirectWrite else .skip := by
  have hssd : (request.task c).type = .ssd := by
    rw [h.task_eq c]
  have hopcode : (request.task c).opcode = request.flags ||| mixWrite := by
    rw [h.task_eq c]
  have hiff := handled_postSmall_iff (c := c) h.ssd h.isWrite hread
    (show request.len ≤ smallThreshold from h.len_le)
  by_cases hclear : request.flags &&& mixClear = 0
  · rw [if_pos hclear]
    exact (hiff.mpr hclear).branch
  · rw [if_neg hclear]
    have hop : (request.task c).opcode &&&
        (mixRead ||| mixWrite ||| mixClear) ≠ mixWrite := by
      intro heq
      rw [hopcode] at heq
      have hboth := (lor_land_lor_eq_iff
        (show mixWrite &&& (mixRead ||| mixClear) = 0 by decide)).mp heq
      rw [Nat.and_or_distrib_left, hread, Nat.zero_or] at hboth
      exact hclear hboth
    simp only [workerBranch, hssd]
    rw [if_neg, if_neg, if_neg hop]
    · rw [hopcode]
      exact lor_land_ne (by decide) (by decide)
    · rw [hopcode]
      exact lor_land_ne (by decide) (by decide)

/-! ## What a small write changes -/

/-- One block is written exactly when the others with its key already hold its
new contents. -/
theorem BuffersAt.writesExactly_one_iff
    (h : BuffersAt (request.task c) v s s')
    (hsmall : request.IsSmallWrite blocks) (hlen : request.len = 1)
    (hinv : ∀ j, BufferInv j s.metaData) :
    WritesExactly blocks request s s' ↔
      ∀ b < blocks, b ≠ request.lba → lbaKey b = lbaKey request.lba →
        s.contents b = request.buf 0 := by
  have hsame := fun b => h.contents_same (b := b)
  have hother := fun b => h.contents_other (b := b) hinv
  rw [hsmall.task_eq c] at hsame hother
  constructor
  · intro hexact b hb hne hkey
    have hcontents := hexact.contents b hb
    rw [hsame b hkey, if_neg (by omega)] at hcontents
    exact hcontents.symm
  · intro hshared
    refine ⟨fun b hb => ?_, fun hzero => by omega⟩
    by_cases hbo : b = request.lba
    · have hcovers : request.lba ≤ b ∧ b < request.lba + request.len :=
        ⟨hbo.ge, by omega⟩
      rw [if_pos hcovers, hsame b (congrArg lbaKey hbo), hbo, Nat.sub_self]
    · have hmisses : ¬ (request.lba ≤ b ∧ b < request.lba + request.len) := by
        omega
      rw [if_neg hmisses]
      by_cases hkey : lbaKey b = lbaKey request.lba
      · rw [hsame b hkey]
        exact (hshared b hb hbo hkey).symm
      · exact hother b hkey

/-- Without a change a small write is exact when it has nothing to change. -/
theorem writesExactly_self_iff (hlba : request.lba < blocks)
    (hlen : request.len ≤ 1) :
    WritesExactly blocks request s s ↔
      request.len = 0 ∨ s.contents request.lba = request.buf 0 := by
  constructor
  · intro hexact
    by_cases hzero : request.len = 0
    · exact Or.inl hzero
    · right
      have hcontents := hexact.contents request.lba hlba
      rwa [if_pos ⟨le_rfl, by omega⟩, Nat.sub_self] at hcontents
  · intro hsame
    refine ⟨fun b hb => ?_, fun _ => ⟨fun _ => rfl, rfl⟩⟩
    split_ifs with hcovers
    · have hbo : b = request.lba := by omega
      rw [hbo, Nat.sub_self]
      exact hsame.resolve_left (by omega)
    · rfl

end Uhs
