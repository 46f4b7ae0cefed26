import Uhs.Store.Durable
import Uhs.Store.PmemDevices

/-!
# The store over the bytes of the mapping

The system runs next to a memory of bytes, on which its steps make the copies
of the source.  The one copy of a write to the NVM zone is not atomic: each
step of its worker writes one more block of it.  At any time the bytes show the
devices of the system, every copy stays within the blocks of its task or within
one slot, and every load finds in the bytes what the system reads.  A crash
leaves nothing but the bytes and the SSD.
-/

namespace Uhs.Pmem

open Support

variable {T : ℕ} {σ : Type*} [BlockDevice σ Block]

/-- The bytes of a client's buffer. -/
def bufBytes (buf : ℕ → Block) : ByteMemory := fun a =>
  buf (a / blockSize) ⟨a % blockSize, Nat.mod_lt a (by decide)⟩

theorem blockAt_bufBytes (buf : ℕ → Block) (n : ℕ) :
    blockAt (bufBytes buf) (blockSize * n) = buf n := by
  funext t
  have hdiv : (blockSize * n + t) / blockSize = n := by
    rw [Nat.mul_add_div (by decide), Nat.div_eq_of_lt t.isLt, Nat.add_zero]
  have hmod : (blockSize * n + t) % blockSize = t := by
    rw [Nat.mul_add_mod, Nat.mod_eq_of_lt t.isLt]
  simp only [blockAt, bufBytes, hdiv, hmod]

/-- The copy of `mix_nvm_write` for a task. -/
def zoneCopies (nvmInfo : NvmInfo) (task : IoTask Block) : List Copy :=
  mixNvmWrite nvmInfo (bufBytes task.buf) (UInt64.ofNat task.len)
    (UInt64.ofNat task.offset)

/-- The copies of `mix_buffer_write` for the task of worker `i`. -/
def slotCopies (bufferInfo : BufferInfo) (metaData : MixMetadata) (i : Fin 4)
    (task : IoTask Block) (slot : ℤ) : List Copy :=
  mixBufferWrite bufferInfo (bufBytes task.buf)
    (UInt64.ofNat task.offset) (UInt64.ofNat (metaData.bufferBlock i slot))
    (UInt64.ofNat task.opcode)

/-- The call of `pmem_memcpy` that a step makes or goes on with.  No task is
posted whose worker would take the branch of `mix_clear_block`. -/
def calls (nvmInfo : NvmInfo) (bufferInfo : BufferInfo)
    (s : System T σ Block) : SystemEvent T Block → List Copy
  | .worker i =>
      match s.workers i with
      | .nvmWrite task n =>
          if n < task.len then zoneCopies nvmInfo task else []
      | .data task slot =>
          (slotCopies bufferInfo s.machine.store.metaData i task slot).take 1
      | .record task slot =>
          (slotCopies bufferInfo s.machine.store.metaData i task slot).drop 1
      | _ => []
  | .thread t =>
      match s.machine.threads t with
      | .clear _ _ kv => mixBufferClear bufferInfo (UInt64.ofNat kv.2)
      | _ => []
  | _ => []

/-- What a step writes of a call: block `n` of the one copy to the NVM zone,
and a copy to the buffer as a whole. -/
def callPart (s : System T σ Block) : SystemEvent T Block → Copy → Copy
  | .worker i =>
      match s.workers i with
      | .nvmWrite _ n => fun copy => copy.part (blockSize * n) blockSize
      | _ => id
  | _ => id

/-- The bytes that a step writes to the mapping. -/
def stores (nvmInfo : NvmInfo) (bufferInfo : BufferInfo)
    (s : System T σ Block) (event : SystemEvent T Block) : List Copy :=
  (calls nvmInfo bufferInfo s event).map (callPart s event)

/-- The store with its memory. -/
structure Mapped (T : ℕ) (σ : Type*) where
  store : Committed T σ Block
  memory : ByteMemory

def mappedStep
    (pmemMemcpy : ByteMemory → ℕ → ByteMemory → ℕ → ByteMemory)
    (nvmInfo : NvmInfo) (bufferInfo : BufferInfo) (s : Mapped T σ)
    (event : SystemEvent T Block) : Option (Mapped T σ) :=
  (committedStep s.store event).map fun store =>
    { store := store
      memory := runCopies pmemMemcpy s.memory
        (stores nvmInfo bufferInfo s.store.system event) }

/-- The bytes that a call of `pmem_memcpy` may write: the blocks of its task in
the NVM zone, the data block or the record of its slot. -/
inductive CopyWithin (nvmInfo : NvmInfo) (bufferInfo : BufferInfo)
    (s : System T σ Block) : SystemEvent T Block → Copy → Prop
  | zone {i : Fin 4} {task : IoTask Block} {n : ℕ} {copy : Copy}
      (hpc : s.workers i = .nvmWrite task n)
      (hzone : task.offset + task.len < nvmThreshold)
      (hbytes : copy.bytes = bytesAt (nvmInfo.nvmAddr + blockSize * task.offset)
        (blockSize * task.len)) :
      CopyWithin nvmInfo bufferInfo s (.worker i) copy
  | data {i : Fin 4} {task : IoTask Block} {slot : ℤ} {copy : Copy} {p : ℕ}
      (hpc : s.workers i = .data task slot)
      (hslot : s.machine.store.metaData.bufferBlock i slot = p)
      (hp : p < bufferInfo.blockNum.toNat)
      (hbytes : copy.bytes = dataBytes bufferInfo p) :
      CopyWithin nvmInfo bufferInfo s (.worker i) copy
  | record {i : Fin 4} {task : IoTask Block} {slot : ℤ} {copy : Copy} {p : ℕ}
      (hpc : s.workers i = .record task slot)
      (hslot : s.machine.store.metaData.bufferBlock i slot = p)
      (hp : p < bufferInfo.blockNum.toNat)
      (hbytes : copy.bytes = recordBytes bufferInfo p) :
      CopyWithin nvmInfo bufferInfo s (.worker i) copy
  | clear {t : Fin T} {idx : Fin 4} {k : ℕ} {kv : MixKv} {copy : Copy}
      (hpc : s.machine.threads t = .clear idx k kv)
      (hp : kv.2 < bufferInfo.blockNum.toNat)
      (hbytes : copy.bytes ⊆ recordBytes bufferInfo kv.2) :
      CopyWithin nvmInfo bufferInfo s (.thread t) copy

/-- The loads of a step find in the bytes what the system reads: block `n` of
the one `memcpy` of `mix_nvm_read`, and the block of `mix_buffer_read`. -/
def LoadsShown (nvmInfo : NvmInfo) (bufferInfo : BufferInfo)
    (memory : ByteMemory) (s : System T σ Block) :
    SystemEvent T Block → Prop
  | .worker i => ∀ task n, s.workers i = .nvmRead task n → n < task.len →
      ∀ dst, blockAt (mixNvmRead nvmInfo memory dst (UInt64.ofNat task.len)
        (UInt64.ofNat task.offset)) (blockSize * n) =
          s.nvm (task.offset + n)
  | .thread t => ∀ idx i kv, s.machine.threads t = .read idx i kv →
      ∀ dst, blockAt (mixBufferRead bufferInfo memory dst
        (UInt64.ofNat kv.2)) 0 =
          Uhs.mixBufferRead s.machine.store.dev kv.2
  | _ => True

/-- The blocks that the steps of a write to the NVM zone write are together
those of its one `pmem_memcpy`. -/
def ZoneWhole (pmemMemcpy : ByteMemory → ℕ → ByteMemory → ℕ → ByteMemory)
    (nvmInfo : NvmInfo) (task : IoTask Block) : Prop :=
  ∀ memory, runCopies pmemMemcpy memory
      ((List.range task.len).flatMap fun n =>
        (zoneCopies nvmInfo task).map fun copy =>
          copy.part (blockSize * n) blockSize) =
    runCopies pmemMemcpy memory (zoneCopies nvmInfo task)

/-- A step that stays in bounds. -/
structure InBounds (pmemMemcpy : ByteMemory → ℕ → ByteMemory → ℕ → ByteMemory)
    (nvmInfo : NvmInfo) (bufferInfo : BufferInfo)
    (s : Mapped T σ) (event : SystemEvent T Block) : Prop where
  calls : ∀ copy ∈ calls nvmInfo bufferInfo s.store.system event,
    CopyWithin nvmInfo bufferInfo s.store.system event copy
  whole : ∀ i task n, event = .worker i →
    s.store.system.workers i = .nvmWrite task n →
    ZoneWhole pmemMemcpy nvmInfo task
  loads : LoadsShown nvmInfo bufferInfo s.memory s.store.system event

variable {pmemMemcpy : ByteMemory → ℕ → ByteMemory → ℕ → ByteMemory}
  {nvmInfo : NvmInfo} {bufferInfo : BufferInfo} {memory : ByteMemory}
  {dev : Devices σ Block} {s s' : System T σ Block} {i : Fin 4}
  {event : SystemEvent T Block} {p : ℕ}

/-! ## One copy -/

/-- A copy of a block is found where it was put. -/
theorem blockAt_pmemMemcpy (hcopies : CopiesBytes pmemMemcpy) (a : ℕ)
    (src : ByteMemory) :
    blockAt (pmemMemcpy memory a src blockSize) a = blockAt src 0 := by
  funext t
  rw [blockAt, hcopies.inside _ _ _ _ _ t.isLt, blockAt, Nat.zero_add]

omit [BlockDevice σ Block] in
/-- A copy within a block of the NVM zone. -/
theorem Represents.nvmBlock (hcopies : CopiesBytes pmemMemcpy)
    (h : Layout nvmInfo bufferInfo)
    (hdev : Represents nvmInfo bufferInfo memory dev) {b : ℕ}
    (hb : b < nvmInfo.blockNum.toNat) (src : ByteMemory) :
    Represents nvmInfo bufferInfo
      (pmemMemcpy memory (nvmInfo.nvmAddr + blockSize * b) src blockSize)
      (Uhs.mixNvmWrite dev (fun _ => blockAt src 0) 1 b) := by
  have hapart := h.regionsApart
  have hzone := h.zoneBlock_subset hb
  have hkept : ∀ a ∉ cell nvmInfo.nvmAddr blockSize b, pmemMemcpy memory
      (nvmInfo.nvmAddr + blockSize * b) src blockSize a =
        memory a := fun a ha => hcopies.outside _ _ _ _ a ha
  refine ⟨fun c hc => ?_, fun q hq => ?_, fun q hq => ?_⟩
  · rw [mixNvmWrite_one]
    by_cases hcb : c = b
    · subst hcb
      rw [Function.update_self]
      exact blockAt_pmemMemcpy hcopies _ src
    · rw [Function.update_of_ne hcb, blockAt_congr fun a ha => hkept a
        (Set.disjoint_left.mp (cell_disjoint hcb) ha)]
      exact hdev.nvm c hc
  · rw [blockAt_congr fun a ha => hkept a fun hmem =>
      Set.disjoint_left.mp (hapart.zone_data q) (hzone hmem) ha]
    exact hdev.buffer q hq
  · rw [readMeta_congr fun a ha => hkept a fun hmem =>
      Set.disjoint_left.mp (hapart.zone_record q) (hzone hmem) ha]
    exact hdev.bufferMeta q hq

omit [BlockDevice σ Block] in
/-- A copy within a data block. -/
theorem Represents.bufferWriteData (hcopies : CopiesBytes pmemMemcpy)
    (h : Layout nvmInfo bufferInfo)
    (hdev : Represents nvmInfo bufferInfo memory dev) (src : ByteMemory) :
    Represents nvmInfo bufferInfo
      (pmemMemcpy memory (bufferInfo.bufferAddr + blockSize * p) src blockSize)
      (mixBufferWriteData dev (blockAt src 0) p) := by
  have hapart := h.regionsApart
  have hkept : ∀ a ∉ dataBytes bufferInfo p, pmemMemcpy memory
      (bufferInfo.bufferAddr + blockSize * p) src blockSize a =
        memory a := fun a ha => hcopies.outside _ _ _ _ a ha
  refine ⟨fun b hb => ?_, fun q hq => ?_, fun q hq => ?_⟩
  · rw [blockAt_congr fun a ha => hkept a
      (Set.disjoint_left.mp (hapart.zone_data p) (h.zoneBlock_subset hb ha))]
    exact hdev.nvm b hb
  · change _ = Function.update dev.buffer p (blockAt src 0) q
    by_cases hqp : q = p
    · subst hqp
      rw [Function.update_self]
      exact blockAt_pmemMemcpy hcopies _ src
    · rw [Function.update_of_ne hqp, blockAt_congr fun a ha => hkept a
        (Set.disjoint_left.mp (hapart.data_data q p hqp) ha)]
      exact hdev.buffer q hq
  · rw [readMeta_congr fun a ha => hkept a
      (Set.disjoint_left.mp (hapart.record_data q hq p) ha)]
    exact hdev.bufferMeta q hq

omit [BlockDevice σ Block] in
/-- A copy within a record. -/
theorem Represents.bufferWriteMeta (hcopies : CopiesBytes pmemMemcpy)
    (h : Layout nvmInfo bufferInfo)
    (hdev : Represents nvmInfo bufferInfo memory dev)
    (hp : p < bufferInfo.blockNum.toNat) {lba flags : ℕ}
    (hlba : lba < 2 ^ 64) (hflags : flags < 2 ^ 64) :
    Represents nvmInfo bufferInfo
      (pmemMemcpy memory (bufferInfo.metaAddr + metaSize * p)
        (metaBytes ⟨1, 0, lba, flags⟩) metaSize)
      (mixBufferWriteMeta dev lba p flags) := by
  have hapart := h.regionsApart
  have hkept : ∀ a ∉ recordBytes bufferInfo p, pmemMemcpy memory
      (bufferInfo.metaAddr + metaSize * p) (metaBytes ⟨1, 0, lba, flags⟩)
        metaSize a = memory a := fun a ha => hcopies.outside _ _ _ _ a ha
  refine ⟨fun b hb => ?_, fun q hq => ?_, fun q hq => ?_⟩
  · rw [blockAt_congr fun a ha => hkept a
      (Set.disjoint_left.mp (hapart.zone_record p)
        (h.zoneBlock_subset hb ha))]
    exact hdev.nvm b hb
  · rw [blockAt_congr fun a ha => hkept a
      (Set.disjoint_right.mp (hapart.record_data p hp q) ha)]
    exact hdev.buffer q hq
  · change _ = Function.update dev.bufferMeta p ⟨1, 0, lba, flags⟩ q
    by_cases hqp : q = p
    · subst hqp
      rw [Function.update_self]
      exact readMeta_metaBytes (Nat.one_lt_two_pow (by decide))
        (Nat.two_pow_pos 64) hlba hflags
        fun k hk => hcopies.inside _ _ _ _ k hk
    · rw [Function.update_of_ne hqp, readMeta_congr fun a ha => hkept a
        (Set.disjoint_left.mp (hapart.record_record q p hqp) ha)]
      exact hdev.bufferMeta q hq

omit [BlockDevice σ Block] in
/-- What the bytes show does not depend on the SSD. -/
theorem Represents.congr {dev' : Devices σ Block}
    (hdev : Represents nvmInfo bufferInfo memory dev)
    (hnvm : dev'.nvm = dev.nvm) (hbuffer : dev'.buffer = dev.buffer)
    (hmeta : dev'.bufferMeta = dev.bufferMeta) :
    Represents nvmInfo bufferInfo memory dev' := by
  refine ⟨?_, ?_, ?_⟩
  · rw [hnvm]
    exact hdev.nvm
  · rw [hbuffer]
    exact hdev.buffer
  · rw [hmeta]
    exact hdev.bufferMeta

/-! ## The invariant -/

/-- A call is of a valid request whose flags are a `size_t`. -/
def Sized : SystemEvent T Block → Prop
  | .call _ request => request.Valid ∧ request.flags < 2 ^ 64
  | _ => True

instance : DecidablePred (Sized (T := T))
  | .call _ _ => inferInstanceAs (Decidable (_ ∧ _))
  | .client _ => isTrue trivial
  | .worker _ => isTrue trivial
  | .migrate _ => isTrue trivial
  | .coord => isTrue trivial
  | .thread _ => isTrue trivial

/-- The bytes show the devices of the system. -/
structure MappedInv (nvmInfo : NvmInfo) (bufferInfo : BufferInfo)
    (s : System T σ Block) (memory : ByteMemory) : Prop where
  tasks : TaskInv s
  cache : CacheInv s
  cap_eq : s.perBlockNum = bufferInfo.blockNum.toNat / segmentNum
  flags : ∀ c, s.clients c ≠ .idle → (s.request c).flags < 2 ^ 64
  shown : Represents nvmInfo bufferInfo memory s.machine.store.dev

theorem MappedInv.live_lt (h : MappedInv nvmInfo bufferInfo s memory)
    (hlayout : Layout nvmInfo bufferInfo) {kv : MixKv}
    (hkv : kv ∈ s.machine.live i) :
    kv.2 < bufferInfo.blockNum.toNat ∧
      s.machine.store.metaData.bufferBlock i kv.2 <
        bufferInfo.blockNum.toNat := by
  have hlt := h.cache.machine.live_lt hkv
  have hcap := h.cap_eq
  have hslots := hlayout.slots
  have hi := i.isLt
  rw [System.perBlockNum] at hcap
  rw [segmentNum, segmentBlockNum] at hslots
  rw [hslots, segmentNum] at hcap
  rw [hcap] at hlt
  rw [MixMetadata.bufferBlock, hcap, hslots]
  omega

/-- The slot of a worker that copies to the buffer. -/
theorem MappedInv.slotCopies_eq (h : MappedInv nvmInfo bufferInfo s memory)
    (hlayout : Layout nvmInfo bufferInfo) {task : IoTask Block} {slot : ℤ}
    (hpc : s.workers i = .data task slot ∨ s.workers i = .record task slot) :
    ∃ p < bufferInfo.blockNum.toNat,
      s.machine.store.metaData.bufferBlock i slot = p ∧
      task.offset < 2 ^ 64 ∧ task.opcode < 2 ^ 64 ∧
      slotCopies bufferInfo s.machine.store.metaData i task slot =
        [{ dst := bufferInfo.bufferAddr + blockSize * p
           src := bufBytes task.buf
           len := blockSize },
         { dst := bufferInfo.metaAddr + metaSize * p
           src := metaBytes ⟨1, 0, task.offset, task.opcode⟩
           len := metaSize }] := by
  obtain ⟨hcurrent, hbranch⟩ := h.tasks.redirects hpc
  have hentered := h.cache.entered i
  obtain ⟨v, rfl, hmem⟩ : ∃ v : ℕ, slot = v ∧
      (task.offset, v) ∈ (s.machine.store.metaData.hash i).entries := by
    rcases hpc with hpc | hpc <;>
    · rw [hpc] at hentered
      exact hentered
  have hposted := h.tasks.posted (System.mem_pending_of_worker hcurrent)
  have hbuffers := h.tasks.buffers hcurrent hbranch
  have hoffset := hbuffers.lt
  have hslot := (h.live_lt hlayout (List.mem_append_left _ hmem)).2
  have hopcode : task.opcode < 2 ^ 64 := by
    have htask := (hposted.posts.task_fields task.inflightBuffer).2.2.1
    rw [← hposted.task_eq] at htask
    rw [htask]
    refine Nat.or_lt_two_pow (h.flags _ (by rw [hposted.client]; simp)) ?_
    rw [Request.opcode]
    split <;> decide
  refine ⟨_, hslot, rfl, by omega, hopcode, ?_⟩
  have hword : ∀ {n : ℕ}, n < 2 ^ 64 → (UInt64.ofNat n).toNat = n :=
    fun hn => UInt64.toNat_ofNat_of_lt' hn
  have hblock := hword (n := s.machine.store.metaData.bufferBlock i v)
    (hslot.trans bufferInfo.blockNum.toNat_lt)
  have hcopies : slotCopies bufferInfo s.machine.store.metaData i task v = _ :=
    copies_bufferWrite hlayout
      (UInt64.lt_iff_toNat_lt.mpr (by rw [hblock]; exact hslot))
  rw [hblock, hword (by omega), hword hopcode] at hcopies
  exact hcopies

/-- The copy of a task that lies in the NVM zone. -/
theorem zoneCopies_eq {task : IoTask Block}
    (hzone : task.offset + task.len < nvmThreshold) :
    zoneCopies nvmInfo task =
      [{ dst := nvmInfo.nvmAddr + blockSize * task.offset
         src := bufBytes task.buf
         len := blockSize * task.len }] := by
  simp only [zoneCopies, mixNvmWrite,
    toNat_mul_blockSize (show task.offset < nvmThreshold by omega),
    toNat_mul_blockSize (show task.len < nvmThreshold by omega)]

theorem zoneWhole (hcopies : CopiesBytes pmemMemcpy) {task : IoTask Block}
    (hzone : task.offset + task.len < nvmThreshold) :
    ZoneWhole pmemMemcpy nvmInfo task := by
  intro memory
  rw [zoneCopies_eq hzone]
  simp only [List.map_singleton]
  rw [← List.map_eq_flatMap, hcopies.runCopies_parts]
  rfl

/-- The blocks that a worker of the NVM zone accesses. -/
theorem MappedInv.nvm_range (h : MappedInv nvmInfo bufferInfo s memory)
    {task : IoTask Block} {n : ℕ}
    (hpc : s.workers i = .nvmRead task n ∨ s.workers i = .nvmWrite task n) :
    task.offset + task.len < nvmThreshold := by
  obtain ⟨hposted, hbranch⟩ : Posted s i task ∧
      (workerBranch task = .nvmRead ∨ workerBranch task = .nvmWrite) := by
    rcases hpc with hpc | hpc
    · exact (h.tasks.posted_nvmRead hpc).imp id Or.inl
    · exact (h.tasks.posted_nvmWrite hpc).imp id Or.inr
  have hoffset := (hposted.nvm_fields hbranch).1
  have hrange := hposted.nvm_range hbranch
  have hlen := hposted.len
  omega

/-- The slot that a thread is about to read or to clear. -/
theorem MappedInv.thread_slot (h : MappedInv nvmInfo bufferInfo s memory)
    (hlayout : Layout nvmInfo bufferInfo) {t : Fin T} {idx : Fin 4} {k : ℕ}
    {kv : MixKv} (hpc : s.machine.threads t = .read idx k kv ∨
      s.machine.threads t = .clear idx k kv) :
    (UInt64.ofNat kv.2).toNat = kv.2 ∧
      UInt64.ofNat kv.2 < bufferInfo.blockNum := by
  have hhand : (s.machine.threads t).hand idx = some kv := by
    rcases hpc with hpc | hpc <;>
    · rw [hpc]
      exact if_pos rfl
  have hlive : kv ∈ s.machine.live idx :=
    List.mem_append_right _ (mem_held.mpr ⟨t, hhand⟩)
  have hlt := (h.live_lt hlayout hlive).1
  have hword : (UInt64.ofNat kv.2).toNat = kv.2 :=
    UInt64.toNat_ofNat_of_lt' (hlt.trans bufferInfo.blockNum.toNat_lt)
  exact ⟨hword, UInt64.lt_iff_toNat_lt.mpr (by rwa [hword])⟩

/-! ## The stores of a step -/

theorem MappedInv.redirect_shown (hcopies : CopiesBytes pmemMemcpy)
    (hlayout : Layout nvmInfo bufferInfo)
    (h : MappedInv nvmInfo bufferInfo s memory) {m : Machine T σ Block}
    {pc : WorkerPc Block}
    (hstep : redirectStep i s.machine (s.workers i) = some (m, pc)) :
    Represents nvmInfo bufferInfo
      (runCopies pmemMemcpy memory (stores nvmInfo bufferInfo s (.worker i)))
      m.store.dev := by
  have hmoves := redirectStep_moves hstep
  generalize hpc : s.workers i = cur at hmoves
  cases hmoves with
  | start hdev _ =>
      simp only [stores, calls, hpc, List.map_nil]
      refine h.shown.congr ?_ ?_ ?_ <;> rw [← hdev] <;> rfl
  | call _ | release _ =>
      simp only [stores, calls, hpc, List.map_nil]
      exact h.shown
  | resume _ hdev =>
      simp only [stores, calls, hpc, List.map_nil]
      refine h.shown.congr ?_ ?_ ?_ <;> rw [← hdev] <;> rfl
  | @data task slot =>
      obtain ⟨p, hp, hblock, -, -, heq⟩ :=
        h.slotCopies_eq hlayout (Or.inl hpc)
      simp only [stores, calls, callPart, hpc, heq]
      change Represents _ _ _ (mixBufferWriteData _ (task.buf 0) _)
      have hfirst : blockAt (bufBytes task.buf) 0 = task.buf 0 :=
        blockAt_bufBytes task.buf 0
      rw [hblock, ← hfirst]
      exact h.shown.bufferWriteData hcopies hlayout _
  | record =>
      obtain ⟨p, hp, hblock, hoffset, hopcode, heq⟩ :=
        h.slotCopies_eq hlayout (Or.inr hpc)
      simp only [stores, calls, callPart, hpc, heq]
      change Represents _ _ _ (mixBufferWriteMeta _ _ _ _)
      rw [hblock]
      exact h.shown.bufferWriteMeta hcopies hlayout hp hoffset hopcode

theorem MappedInv.worker_shown (hcopies : CopiesBytes pmemMemcpy)
    (hlayout : Layout nvmInfo bufferInfo)
    (h : MappedInv nvmInfo bufferInfo s memory)
    (hstep : workerStep s i = some s') :
    Represents nvmInfo bufferInfo
      (runCopies pmemMemcpy memory (stores nvmInfo bufferInfo s (.worker i)))
      s'.machine.store.dev := by
  -- the step that takes a task copies nothing
  have htake : ∀ {r : System T σ Block} {task : IoTask Block},
      r.machine = s.machine → s.workers i = .ready →
      (workerBranch task = .skip ∨ task ∈ s.pending i) →
      Represents nvmInfo bufferInfo
        (runCopies pmemMemcpy memory
          (stores nvmInfo bufferInfo s (.worker i)))
        (dispatch r i task).machine.store.dev := by
    intro r task hmachine hready htask
    have hsame : (dispatch r i task).machine = s.machine := by
      rcases htask with hskip | htask
      · rw [dispatch, hskip]
        exact hmachine
      · obtain ⟨pc, hdispatch, -⟩ := dispatch_of_awaited (r := r) (i := i)
          (h.tasks.posted htask).branch_cases
        rw [hdispatch]
        exact hmachine
    simp only [stores, calls, hready, hsame, List.map_nil]
    exact h.shown
  cases workerStep_moves hstep with
  | poll hpc seq | nvmRead hpc _ | nvmReadEnd hpc _ | finish hpc =>
      simp only [stores, calls, hpc, List.map_nil]
      exact h.shown
  | takeNvm hpc seq hqueue =>
      exact htake rfl hpc (Or.inr (by simp [System.pending, hqueue]))
  | @takeBuffer hpc seq task rest hqueue =>
      refine htake rfl hpc ?_
      by_cases hskip : workerBranch task = .skip
      · exact Or.inl hskip
      · exact Or.inr (by simp [System.pending, hqueue, hskip])
  | @nvmWrite task n hpc hn =>
      have hrange := h.nvm_range (Or.inr hpc)
      have hb : task.offset + n < nvmInfo.blockNum.toNat := by
        rw [hlayout.zone]
        rw [nvmThreshold] at hrange
        omega
      have hblock : blockAt (fun a => bufBytes task.buf (blockSize * n + a)) 0 =
          task.buf n := by
        rw [← blockAt_bufBytes task.buf n]
        funext t
        simp only [blockAt, Nat.zero_add]
      have hshown := h.shown.nvmBlock hcopies hlayout hb
        fun a => bufBytes task.buf (blockSize * n + a)
      rw [hblock, Nat.mul_add, ← Nat.add_assoc] at hshown
      simp only [stores, calls, callPart, hpc, if_pos hn, zoneCopies_eq hrange]
      exact hshown
  | nvmWriteEnd hpc hn =>
      simp only [stores, calls, hpc, if_neg hn.not_gt, List.map_nil]
      exact h.shown
  | redirect hredirect => exact h.redirect_shown hcopies hlayout hredirect

theorem MappedInv.thread_shown (hcopies : CopiesBytes pmemMemcpy)
    (hlayout : Layout nvmInfo bufferInfo)
    (h : MappedInv nvmInfo bufferInfo s memory) {t : Fin T}
    {m : Machine T σ Block} (hstep : threadStep t s.machine = some m) :
    Represents nvmInfo bufferInfo
      (runCopies pmemMemcpy memory (stores nvmInfo bufferInfo s (.thread t)))
      m.store.dev := by
  cases threadStep_cases hstep with
  | @clear idx k kv hpc =>
      obtain ⟨hword, hslot⟩ := h.thread_slot hlayout (Or.inr hpc)
      simp only [stores, calls, callPart, hpc, List.map_id]
      have hclear : Represents nvmInfo bufferInfo _
          ((PmemOp.bufferClear (UInt64.ofNat kv.2)).apply
            s.machine.store.dev) :=
        h.shown.bufferClear hcopies hlayout hslot rfl
      rw [PmemOp.apply, hword] at hclear
      exact hclear
  | test hpc _ | fetch hpc | scan hpc _ | scanEnd hpc _ | pop hpc _ _
  | popEnd hpc _ _ | read hpc | dec hpc | count hpc | reset hpc =>
      simp only [stores, calls, hpc, List.map_nil]
      exact h.shown
  | ssdWrite hpc =>
      simp only [stores, calls, hpc, List.map_nil]
      exact h.shown.congr rfl rfl rfl

/-- After a step the bytes show the devices of the next state. -/
theorem MappedInv.shown_step (hcopies : CopiesBytes pmemMemcpy)
    (hlayout : Layout nvmInfo bufferInfo)
    (h : MappedInv nvmInfo bufferInfo s memory) (hpos : 0 < T)
    (hstep : systemStep s event = some s') :
    Represents nvmInfo bufferInfo
      (runCopies pmemMemcpy memory (stores nvmInfo bufferInfo s event))
      s'.machine.store.dev := by
  cases event with
  | call c request =>
      obtain ⟨-, rfl⟩ := systemStep_call_eq hstep
      exact h.shown
  | client c =>
      cases clientStep_moves hstep with
      | @ssd task hpc =>
          change Represents _ _ memory (ssdTransfer s c task).machine.store.dev
          unfold ssdTransfer
          split
          · exact h.shown
          · split
            · exact h.shown.congr rfl rfl rfl
            · exact h.shown
      | postNvm _ _ | postSmall _ | postSub _ | posted _ | wait _ _
      | «return» _ => exact h.shown
  | worker i => exact h.worker_shown hcopies hlayout hstep
  | migrate i =>
      obtain ⟨-, rfl⟩ := systemStep_migrate_eq hstep
      exact h.shown
  | coord =>
      simp only [systemStep, Option.map_eq_some_iff] at hstep
      obtain ⟨m, hm, rfl⟩ := hstep
      have hdev := (h.cache.machine.coordAdvance hpos hm).2.dev
      refine h.shown.congr ?_ ?_ ?_ <;> exact congrArg _ hdev
  | thread t =>
      simp only [systemStep, Option.map_eq_some_iff] at hstep
      obtain ⟨m, hm, rfl⟩ := hstep
      exact h.thread_shown hcopies hlayout hm

theorem systemStep_mappedInv (hcopies : CopiesBytes pmemMemcpy)
    (hlayout : Layout nvmInfo bufferInfo)
    (h : MappedInv nvmInfo bufferInfo s memory) (hpos : 0 < T) (hT : T ≤ 127)
    (hsized : Sized event) (hsafe : s.MovesSafely event)
    (hstep : systemStep s event = some s') :
    MappedInv nvmInfo bufferInfo s'
      (runCopies pmemMemcpy memory
        (stores nvmInfo bufferInfo s event)) := by
  have hvalid : ∀ c request, event = .call c request →
      request.Valid ∧ request.flags < 2 ^ 64 := by
    rintro c request rfl
    exact hsized
  have hposts : event.Posts := by
    cases event with
    | call c request => exact hsized.1.posts
    | client c | worker i | migrate i | coord | thread t => trivial
  have hmoves := h.tasks.systemStep_moves hposts hstep
  exact
    { tasks := systemStep_taskInv h.tasks
        (fun c request heq => (hvalid c request heq).1) hstep
      cache := (systemStep_cacheInv h.cache h.tasks hpos hT hsafe hstep).1
      cap_eq := (systemStep_recordMoves h.cache h.tasks hpos hT hsafe
        hstep).2.trans h.cap_eq
      flags := hmoves.forall_request (fun c request hmem =>
        (hvalid c request (eq_call_of_mem_callEvents hmem)).2) h.flags
      shown := h.shown_step hcopies hlayout hpos hstep }

/-! ## Bounds -/

/-- Every copy stays within the blocks of its task or within its slot. -/
theorem MappedInv.calls_within (hlayout : Layout nvmInfo bufferInfo)
    (h : MappedInv nvmInfo bufferInfo s memory) :
    ∀ copy ∈ calls nvmInfo bufferInfo s event,
      CopyWithin nvmInfo bufferInfo s event copy := by
  have hnone : ∀ copy ∈ ([] : List Copy),
      CopyWithin nvmInfo bufferInfo s event copy := fun _ hmem =>
    absurd hmem List.not_mem_nil
  cases event with
  | call _ _ | client _ | migrate _ | coord => exact hnone
  | worker i =>
      cases hpc : s.workers i with
      | ready | nvmRead _ _ | start _ | lock _ | migrating _ | finish _ _ =>
          simp only [calls, hpc]
          exact hnone
      | nvmWrite task n =>
          have hrange := h.nvm_range (Or.inr hpc)
          simp only [calls, hpc]
          split
          · rw [zoneCopies_eq hrange]
            exact List.forall_mem_singleton.mpr (.zone hpc hrange rfl)
          · exact hnone
      | data task slot =>
          obtain ⟨p, hp, hslot, -, -, heq⟩ :=
            h.slotCopies_eq hlayout (Or.inl hpc)
          simp only [calls, hpc, heq]
          exact List.forall_mem_singleton.mpr (.data hpc hslot hp rfl)
      | record task slot =>
          obtain ⟨p, hp, hslot, -, -, heq⟩ :=
            h.slotCopies_eq hlayout (Or.inr hpc)
          simp only [calls, hpc, heq]
          exact List.forall_mem_singleton.mpr (.record hpc hslot hp rfl)
  | thread t =>
      cases hpc : s.machine.threads t with
      | clear idx k kv =>
          obtain ⟨hword, hslot⟩ := h.thread_slot hlayout (Or.inr hpc)
          have heq : mixBufferClear bufferInfo (UInt64.ofNat kv.2) = _ :=
            copies_bufferClear hlayout hslot
          have hlt := UInt64.lt_iff_toNat_lt.mp hslot
          rw [hword] at heq hlt
          simp only [calls, hpc, heq]
          exact List.forall_mem_singleton.mpr
            (.clear hpc hlt (statusBytes_subset _))
      | test | fetch | scan _ _ | pop _ _ | read _ _ _ | ssdWrite _ _ _
      | dec _ _ | count _ | reset =>
          simp only [calls, hpc]
          exact hnone

theorem MappedInv.loadsShown (hlayout : Layout nvmInfo bufferInfo)
    (h : MappedInv nvmInfo bufferInfo s memory) :
    LoadsShown nvmInfo bufferInfo memory s event := by
  cases event with
  | call _ _ | client _ | migrate _ | coord => trivial
  | worker i =>
      intro task n hpc hn dst
      have hrange := h.nvm_range (Or.inl hpc)
      have hthreshold : nvmThreshold = 1928765 := rfl
      have hword : ∀ {k : ℕ}, k < nvmThreshold → (UInt64.ofNat k).toNat = k :=
        fun hk => UInt64.toNat_ofNat_of_lt' (hk.trans (by decide))
      have hlen := hword (show task.len < nvmThreshold by omega)
      have hoffset := hword (show task.offset < nvmThreshold by omega)
      have hread : _ = some (blockAt (mixNvmRead nvmInfo memory dst
          (UInt64.ofNat task.len) (UInt64.ofNat task.offset))
            (blockSize * n)) :=
        h.shown.nvmRead hlayout (by rw [hlen, hoffset, hlayout.zone]; omega) n
          (by rwa [hlen])
      rw [hlen, hoffset, Uhs.mixNvmRead, blocksOf, List.getElem?_map,
        List.getElem?_range hn] at hread
      exact (Option.some.inj hread).symm
  | thread t =>
      intro idx k kv hpc dst
      obtain ⟨hword, hslot⟩ := h.thread_slot hlayout (Or.inl hpc)
      have hread : blockAt (mixBufferRead bufferInfo memory dst
          (UInt64.ofNat kv.2)) 0 = _ := h.shown.bufferRead hlayout hslot
      rw [hword] at hread
      exact hread

/-- Every step of the system stays in bounds. -/
theorem MappedInv.inBounds (hcopies : CopiesBytes pmemMemcpy)
    (hlayout : Layout nvmInfo bufferInfo) {s : Mapped T σ}
    (h : MappedInv nvmInfo bufferInfo s.store.system s.memory) :
    InBounds pmemMemcpy nvmInfo bufferInfo s event where
  calls := h.calls_within hlayout
  whole _ _ _ _ hpc := zoneWhole hcopies (h.nvm_range (Or.inr hpc))
  loads := h.loadsShown hlayout

/-! ## Runs -/

/-- The devices that a memory shows; there are no records but those of the
slots. -/
def devicesAt (nvmInfo : NvmInfo) (bufferInfo : BufferInfo)
    (memory : ByteMemory) (ssd : σ) : Devices σ Block where
  nvm := fun b => blockAt memory (nvmInfo.nvmAddr + blockSize * b)
  buffer := fun p => blockAt memory (bufferInfo.bufferAddr + blockSize * p)
  bufferMeta := fun p =>
    if p < bufferInfo.blockNum.toNat then
      readMeta memory (bufferInfo.metaAddr + metaSize * p)
    else ⟨0, 0, 0, 0⟩
  ssd := ssd

/-- The store over a memory, before the first call. -/
def Mapped.initial (T : ℕ) (nvmInfo : NvmInfo) (bufferInfo : BufferInfo)
    (migration : Fin 4 → Bool) (memory : ByteMemory) (ssd : σ)
    (segmentIdx : Fin 4) (migrateBuf : Fin T → Block) (inflight : Fin 16 → ℤ)
    (dst : Fin 16 → ℕ → Block) (request : Fin 16 → Request Block) :
    Mapped T σ where
  store := .initial (System.initial T
    (freshStore bufferInfo.blockNum.toNat migration
      (devicesAt nvmInfo bufferInfo memory ssd))
    segmentIdx migrateBuf inflight dst request)
  memory := memory

omit [BlockDevice σ Block] in
theorem represents_devicesAt (ssd : σ) :
    Represents nvmInfo bufferInfo memory
      (devicesAt nvmInfo bufferInfo memory ssd) where
  nvm _ _ := rfl
  buffer _ _ := rfl
  bufferMeta _ hp := (if_pos hp).symm

theorem Layout.validSize (h : Layout nvmInfo bufferInfo) :
    ValidSize bufferInfo.blockNum.toNat := by
  rw [h.slots]
  decide

theorem initial_mappedInv (hlayout : Layout nvmInfo bufferInfo)
    (migration : Fin 4 → Bool) (memory : ByteMemory) (ssd : σ)
    (segmentIdx : Fin 4) (migrateBuf : Fin T → Block) (inflight : Fin 16 → ℤ)
    (dst : Fin 16 → ℕ → Block) (request : Fin 16 → Request Block) :
    MappedInv nvmInfo bufferInfo
      (Mapped.initial T nvmInfo bufferInfo migration memory ssd segmentIdx
        migrateBuf inflight dst request).store.system memory := by
  have hcontents := initial_contentsInv hlayout.validSize migration
    (devicesAt nvmInfo bufferInfo memory ssd) segmentIdx migrateBuf inflight
      dst request
  exact
    { tasks := hcontents.tasks
      cache := hcontents.cache
      cap_eq := rfl
      flags := fun c hc => absurd rfl hc
      shown := represents_devicesAt ssd }

theorem mappedStep_mappedInv (hcopies : CopiesBytes pmemMemcpy)
    (hlayout : Layout nvmInfo bufferInfo) {s s' : Mapped T σ}
    (h : MappedInv nvmInfo bufferInfo s.store.system s.memory) (hpos : 0 < T)
    (hT : T ≤ 127) (hsized : Sized event)
    (hsafe : s.store.system.MovesSafely event)
    (hstep : mappedStep pmemMemcpy nvmInfo bufferInfo s event = some s') :
    MappedInv nvmInfo bufferInfo s'.store.system s'.memory := by
  simp only [mappedStep, committedStep, Option.map_eq_some_iff] at hstep
  obtain ⟨store, ⟨system, hsystem, rfl⟩, rfl⟩ := hstep
  exact systemStep_mappedInv hcopies hlayout h hpos hT hsized hsafe hsystem

/-- In every run of valid calls over the mapping that `mix_mmap` lays out, in
which no write goes to the SSD under a buffered block and migrations are called
where they move the data, every copy stays within the blocks of its task or
within its slot, every load finds what the system reads, and the bytes show the
devices of the system. -/
theorem mapped_inBounds (hcopies : CopiesBytes pmemMemcpy)
    (pmemMapFile : ℕ → Option (ℕ × Bool))
    (hmap : mixMmap pmemMapFile mixNvmInit mixBufferInit =
      some (nvmInfo, bufferInfo))
    (migration : Fin 4 → Bool) (memory : ByteMemory) (ssd : σ)
    (segmentIdx : Fin 4) (migrateBuf : Fin T → Block) (inflight : Fin 16 → ℤ)
    (dst : Fin 16 → ℕ → Block) (request : Fin 16 → Request Block)
    (hpos : 0 < T) (hT : T ≤ 127) {events : List (SystemEvent T Block)}
    (hsized : ∀ event ∈ events, Sized event)
    (hsafe : AllSteps (mappedStep pmemMemcpy nvmInfo bufferInfo)
      (fun s => s.store.system.MovesSafely)
      (.initial T nvmInfo bufferInfo migration memory ssd segmentIdx
        migrateBuf inflight dst request) events) :
    AllSteps (mappedStep pmemMemcpy nvmInfo bufferInfo)
        (InBounds pmemMemcpy nvmInfo bufferInfo)
        (.initial T nvmInfo bufferInfo migration memory ssd segmentIdx
          migrateBuf inflight dst request) events ∧
      AllStates (mappedStep pmemMemcpy nvmInfo bufferInfo)
        (fun s => Represents nvmInfo bufferInfo s.memory
          s.store.system.machine.store.dev)
        (.initial T nvmInfo bufferInfo migration memory ssd segmentIdx
          migrateBuf inflight dst request) events := by
  have hlayout := (mixMmap_layout hmap).2
  have hinit := initial_mappedInv hlayout migration memory ssd segmentIdx
    migrateBuf inflight dst request
  have hsteps := hsafe.and_of_forall_mem hsized
  constructor
  · refine AllSteps.of_invariant
      (I := fun s => MappedInv nvmInfo bufferInfo s.store.system s.memory)
      (fun _ _ _ h hP hstep => mappedStep_mappedInv hcopies hlayout h hpos hT
        hP.1 hP.2 hstep) (fun s event h _ => h.inBounds hcopies hlayout)
      hinit hsteps
  · refine (allStates_of_allSteps
      (I := fun s => MappedInv nvmInfo bufferInfo s.store.system s.memory)
      (fun _ _ _ h hP hstep => mappedStep_mappedInv hcopies hlayout h hpos hT
        hP.1 hP.2 hstep) hinit hsteps).mono fun s h => h.shown

/-- A write of one block to the SSD, and one of two blocks to the NVM zone. -/
def mappedSteps : List (SystemEvent 8 Block) :=
  [.call 0 ⟨true, fun _ _ => 7, 1, nvmThreshold, 0⟩, .client 0] ++
    List.replicate 5 (.worker 0) ++
    [.call 1 ⟨true, fun _ _ => 9, 2, 4, 0⟩, .client 1] ++
    List.replicate 6 (.worker 0) ++ [.client 0, .client 1]

theorem mapped_inBounds_example :
    AllSteps (mappedStep (fun m dst src len => memcpy m dst src 0 len)
        lowMapping.1 lowMapping.2)
        (InBounds (fun m dst src len => memcpy m dst src 0 len)
          lowMapping.1 lowMapping.2)
        (.initial 8 lowMapping.1 lowMapping.2 (fun _ => false) (fun _ => 0)
          (fun _ _ => 0 : ℕ → Block) 0 (fun _ _ => 0) (fun _ => 0)
          (fun _ _ _ => 0) fun _ => ⟨false, fun _ _ => 0, 0, 0, 0⟩)
        mappedSteps :=
  (mapped_inBounds copiesBytes_memcpy (fun _ => some (4096, true)) rfl _ _ _
    _ _ _ _ _ (by decide) (by decide) (by decide) (by decide +kernel)).1

/-! ## Crashes -/

/-- A crash, which leaves the bytes and the SSD, loses no write that has
returned. -/
def Mapped.Durable (nvmInfo : NvmInfo) (bufferInfo : BufferInfo)
    (migration : Fin 4 → Bool) (s : Mapped T σ) : Prop :=
  s.store.Recovers (recoveredLogical bufferInfo.blockNum.toNat migration
    (devicesAt nvmInfo bufferInfo s.memory
      s.store.system.machine.store.dev.ssd))

theorem MappedInv.recovered_eq (hlayout : Layout nvmInfo bufferInfo)
    (h : MappedInv nvmInfo bufferInfo s memory) {written : ℕ → Block}
    (hdurable : DurableInv (bufferInfo.blockNum.toNat / segmentNum) s written)
    (migration : Fin 4 → Bool) {b : ℕ} (hb : b < nvmThreshold + 2 ^ 32) :
    recoveredLogical bufferInfo.blockNum.toNat migration
        (devicesAt nvmInfo bufferInfo memory s.machine.store.dev.ssd) b =
      recoveredLogical bufferInfo.blockNum.toNat migration
        s.machine.store.dev b := by
  by_cases hnvm : b < nvmThreshold
  · have hzone : b < nvmInfo.blockNum.toNat := by
      rw [hlayout.zone]
      exact hnvm.trans (by decide)
    rw [recoveredLogical, if_pos hnvm, recoveredLogical, if_pos hnvm]
    exact congrArg some (h.shown.nvm b hzone)
  · simp only [recoveredLogical, if_neg hnvm]
    have hslots := hlayout.slots
    rw [segmentNum, segmentBlockNum] at hslots
    have hslot : ∀ v < (mixMetadataInit bufferInfo.blockNum.toNat
        migration).perBlockNum,
        (mixMetadataInit bufferInfo.blockNum.toNat migration).bufferBlock
          (segmentOf (b - nvmThreshold)) v < bufferInfo.blockNum.toNat := by
      intro v hv
      have hcap : (mixMetadataInit bufferInfo.blockNum.toNat
        migration).perBlockNum = 512 := by
        change bufferInfo.blockNum.toNat / segmentNum = 512
        rw [hslots, segmentNum]
      have hi := (segmentOf (b - nvmThreshold)).isLt
      rw [hcap] at hv
      rw [MixMetadata.bufferBlock, hcap, hslots]
      omega
    have hlba : b - nvmThreshold < 2 ^ 32 := by omega
    have hssd : (devicesAt nvmInfo bufferInfo memory
        s.machine.store.dev.ssd).ssd = s.machine.store.dev.ssd := rfl
    refine recoveredBlock_congr hlayout.validSize migration rfl
      (hdurable.records_nodup rfl _) (fun v hv => ?_) (fun v hv => ?_) hssd
      hlba
    · exact (if_pos (hslot v hv)).trans (h.shown.bufferMeta _ (hslot v hv))
    · exact h.shown.buffer _ (hslot v hv)

/-- In every such run from clear records in which, besides, writes to a block
do not overlap in time, a crash that leaves the bytes and the SSD loses no
write that has returned. -/
theorem mapped_durable (hcopies : CopiesBytes pmemMemcpy)
    (pmemMapFile : ℕ → Option (ℕ × Bool))
    (hmap : mixMmap pmemMapFile mixNvmInit mixBufferInit =
      some (nvmInfo, bufferInfo))
    (migration rebuilt : Fin 4 → Bool) (memory : ByteMemory) (ssd : σ)
    (hclean : ∀ p < bufferInfo.blockNum.toNat,
      (readMeta memory (bufferInfo.metaAddr + metaSize * p)).status % 2 ≠ 1)
    (segmentIdx : Fin 4) (migrateBuf : Fin T → Block) (inflight : Fin 16 → ℤ)
    (dst : Fin 16 → ℕ → Block) (request : Fin 16 → Request Block)
    (hpos : 0 < T) (hT : T ≤ 127) {events : List (SystemEvent T Block)}
    (hsized : ∀ event ∈ events, Sized event)
    (hapart : AllSteps (mappedStep pmemMemcpy nvmInfo bufferInfo)
      (fun s => s.store.system.CallsApart)
      (.initial T nvmInfo bufferInfo migration memory ssd segmentIdx
        migrateBuf inflight dst request) events)
    (hsafe : AllSteps (mappedStep pmemMemcpy nvmInfo bufferInfo)
      (fun s => s.store.system.MovesSafely)
      (.initial T nvmInfo bufferInfo migration memory ssd segmentIdx
        migrateBuf inflight dst request) events) :
    AllStates (mappedStep pmemMemcpy nvmInfo bufferInfo)
      (Mapped.Durable nvmInfo bufferInfo rebuilt)
      (.initial T nvmInfo bufferInfo migration memory ssd segmentIdx
        migrateBuf inflight dst request) events := by
  have hlayout := (mixMmap_layout hmap).2
  have hrecords : (devicesAt nvmInfo bufferInfo memory ssd).Clean := by
    intro p
    change (if p < bufferInfo.blockNum.toNat then _ else _ :
      BufferMeta).status % 2 ≠ 1
    split
    · exact hclean p ‹_›
    · exact Nat.zero_ne_one
  refine (allStates_of_allSteps
    (I := fun s => MappedInv nvmInfo bufferInfo s.store.system s.memory ∧
      DurableInv (bufferInfo.blockNum.toNat / segmentNum) s.store.system
        s.store.written)
    (fun s event s' h hP hstep => ⟨mappedStep_mappedInv hcopies hlayout h.1
      hpos hT hP.1 hP.2.2 hstep, ?_⟩)
    ⟨initial_mappedInv hlayout migration memory ssd segmentIdx migrateBuf
      inflight dst request, initial_durableInv hlayout.validSize migration
        hrecords segmentIdx migrateBuf inflight dst request⟩
    ((hapart.and hsafe).and_of_forall_mem hsized)).mono fun s h b hb => ?_
  · simp only [mappedStep, Option.map_eq_some_iff] at hstep
    obtain ⟨store, hstore, rfl⟩ := hstep
    exact committedStep_durableInv h.2 hpos hT hP.2.1 hP.2.2 hstore
  · rw [h.1.recovered_eq hlayout h.2 rebuilt hb]
    exact h.2.durable hlayout.validSize rebuilt b hb

theorem mapped_durable_example :
    AllStates (mappedStep (fun m dst src len => memcpy m dst src 0 len)
        lowMapping.1 lowMapping.2)
      (Mapped.Durable lowMapping.1 lowMapping.2 fun _ => false)
      (.initial 8 lowMapping.1 lowMapping.2 (fun _ => false) (fun _ => 0)
        (fun _ _ => 0 : ℕ → Block) 0 (fun _ _ => 0) (fun _ => 0)
        (fun _ _ _ => 0) fun _ => ⟨false, fun _ _ => 0, 0, 0, 0⟩)
      mappedSteps :=
  mapped_durable copiesBytes_memcpy (fun _ => some (4096, true)) rfl _ _ _ _
    (fun _ _ => by simp [readMeta, readNumber]) _ _ _ _ _ (by decide)
    (by decide) (by decide) (by decide +kernel) (by decide +kernel)

end Uhs.Pmem
