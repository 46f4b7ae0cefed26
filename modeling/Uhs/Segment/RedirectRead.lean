import Mathlib.Data.Nat.Digits.Defs
import Uhs.Segment.ClearRange

/-!
# Redirected reads

Model of `redirect_read` in `nvm_worker.cpp`, byte by byte.  The client keeps
a table of `4 * 512` pointers to blocks, `read_buffer`, and a table of as many
addresses, `read_index`.  The worker treats the first as a `char ***` and the
second as an `int **`, steps through its sub-task by 4096 and takes the result
of a comparison for the slot.
-/

namespace Uhs

open Support

/-- `SSD_BLOCK_SIZE`. -/
def ssdBlockSize : ℕ := 1 <<< 12

/-- The bytes of one block. -/
abbrev BlockBytes := Fin 4096 → BitVec 8

/-- What `redirect_read` has of its client: the table `read_buffer` of pointers
in rows of 512, the memory they point to, the table `read_index` in the same
rows, and the counter `inflight_buffer`. -/
structure ReadArea where
  readBuffer : ℕ → ℕ
  memory : ℕ → BitVec 8
  readIndex : ℕ → ℤ
  inflightBuffer : ℤ

/-- The block at a position of `read_buffer`. -/
def ReadArea.block (area : ReadArea) (p : ℕ) : BlockBytes :=
  fun a => area.memory (area.readBuffer p + a)

/-- The pointer made of eight bytes of a block, the lowest first. -/
def pointerAt (block : BlockBytes) (w : ℕ) : ℕ :=
  Nat.ofDigits 256 ((List.range 8).map fun t =>
    (block (Fin.ofNat 4096 (8 * w + t))).toNat)

/-- Copy a block to the address of an entry of a table of pointers. -/
def copyOver (table : ℕ → ℕ) (q : ℕ) (block : BlockBytes) : ℕ → ℕ :=
  fun p => if q ≤ p ∧ p < q + ssdBlockSize / 8 then pointerAt block (p - q)
    else table p

variable {σ : Type*}

/-- The body of the loop of `redirect_read`.  The assignment takes in the
comparison, `num` is never raised, and an entry of an `int **` is as wide as
two `int`s. -/
def redirectReadBlock (metaData : MixMetadata) (dev : Devices σ BlockBytes)
    (task : IoTask BlockBytes) (idx : Fin 4) (area : ReadArea) (i : ℕ) :
    ReadArea :=
  let num := 0
  let offset : ℤ :=
    if mixBufferBlockTest metaData (task.offset + i * ssdBlockSize) idx ≠ -1
    then 1 else 0
  if offset ≠ 0 then
    { area with
      readBuffer := copyOver area.readBuffer (idx.val * 512 + num)
        (mixBufferRead dev (metaData.bufferBlock idx offset))
      readIndex := Function.update area.readIndex
        (2 * (idx.val * 512 + num))
        (toInt32 (task.offset + i * segmentNum)) }
  else area

/-- `redirect_read`, once the client has set its two tables. -/
def redirectRead (metaData : MixMetadata) (dev : Devices σ BlockBytes)
    (task : IoTask BlockBytes) (idx : Fin 4) (area : ReadArea) : ReadArea :=
  let area := (List.range task.len).foldl
    (redirectReadBlock metaData dev task idx) area
  { area with inflightBuffer := area.inflightBuffer - task.len }

/-! ## What the client expects -/

/-- The indices of the mapped blocks of a sub-task, in increasing order. -/
def mappedBlocks (metaData : MixMetadata) (task : IoTask BlockBytes)
    (idx : Fin 4) : List ℕ :=
  (List.range task.len).filter fun i =>
    mixBufferBlockTest metaData (task.offset + segmentNum * i) idx ≠ -1

/-- The buffered contents of a mapped block. -/
def bufferedBlock (metaData : MixMetadata) (dev : Devices σ BlockBytes)
    (task : IoTask BlockBytes) (idx : Fin 4) (i : ℕ) : BlockBytes :=
  dev.buffer (idx.val * metaData.perBlockNum +
    (mixBufferBlockTest metaData (task.offset + segmentNum * i) idx).toNat)

/-- The address of a block as an `int`. -/
def blockAddress (task : IoTask BlockBytes) (i : ℕ) : ℤ :=
  toInt32 (task.offset + segmentNum * i)

/-- The consumer reads a row of the tables up to the first `-1`. -/
def ReadArea.scan (area : ReadArea) (p : ℕ) : ℕ → List (ℤ × BlockBytes)
  | 0 => []
  | n + 1 =>
      if area.readIndex p = -1 then []
      else (area.readIndex p, area.block p) :: area.scan (p + 1) n

theorem ReadArea.scan_of_eq {area : ReadArea} {p : ℕ}
    (h : area.readIndex p = -1) (n : ℕ) : area.scan p n = [] := by
  cases n with
  | zero => rfl
  | succ n => rw [ReadArea.scan, if_pos h]

/-- The mapped blocks stand one after the other in the row of the segment,
everything else is as before, and the sub-task is counted; so the scan of a
row that was empty yields them. -/
structure Delivers (metaData : MixMetadata) (dev : Devices σ BlockBytes)
    (task : IoTask BlockBytes) (idx : Fin 4) (area area' : ReadArea) : Prop where
  delivered : ∀ (j i : ℕ), (mappedBlocks metaData task idx)[j]? = some i →
    area'.block (idx.val * 512 + j) = bufferedBlock metaData dev task idx i ∧
      area'.readIndex (idx.val * 512 + j) = blockAddress task i
  others : ∀ p, (∀ j < (mappedBlocks metaData task idx).length,
      p ≠ idx.val * 512 + j) →
    area'.block p = area.block p ∧ area'.readIndex p = area.readIndex p
  counted : area'.inflightBuffer = area.inflightBuffer - task.len
  scanned : (∀ j < 512, area.readIndex (idx.val * 512 + j) = -1) →
    area'.scan (idx.val * 512) 512 = (mappedBlocks metaData task idx).map
      fun i => (blockAddress task i, bufferedBlock metaData dev task idx i)

/-- The worker finds no block where it looks. -/
def LooksUpNothing (metaData : MixMetadata) (task : IoTask BlockBytes)
    (idx : Fin 4) : Prop :=
  ∀ i < task.len,
    mixBufferBlockTest metaData (task.offset + i * ssdBlockSize) idx = -1

variable {metaData : MixMetadata} {dev : Devices σ BlockBytes}
  {task : IoTask BlockBytes} {idx : Fin 4}

/-! ## What the loop does -/

theorem redirectReadBlock_of_eq {i : ℕ} (area : ReadArea)
    (h : mixBufferBlockTest metaData (task.offset + i * ssdBlockSize) idx =
      -1) :
    redirectReadBlock metaData dev task idx area i = area := by
  simp [redirectReadBlock, h]

theorem redirectReadBlock_of_ne {i : ℕ} (area : ReadArea)
    (h : mixBufferBlockTest metaData (task.offset + i * ssdBlockSize) idx ≠
      -1) :
    redirectReadBlock metaData dev task idx area i =
      { area with
        readBuffer := copyOver area.readBuffer (idx.val * 512)
          (dev.buffer (metaData.bufferBlock idx 1))
        readIndex := Function.update area.readIndex (2 * (idx.val * 512))
          (toInt32 (task.offset + i * segmentNum)) } := by
  simp [redirectReadBlock, h, mixBufferRead]

/-- Without a block found the loop does nothing. -/
theorem foldl_redirectReadBlock_of_forall (l : List ℕ) (area : ReadArea)
    (h : ∀ i ∈ l, mixBufferBlockTest metaData
      (task.offset + i * ssdBlockSize) idx = -1) :
    l.foldl (redirectReadBlock metaData dev task idx) area = area := by
  induction l with
  | nil => rfl
  | cons i l ih =>
      rw [List.foldl_cons,
        redirectReadBlock_of_eq area (h i List.mem_cons_self)]
      exact ih fun j hj => h j (List.mem_cons_of_mem i hj)

theorem copyOver_copyOver (table : ℕ → ℕ) (q : ℕ) (block : BlockBytes) :
    copyOver (copyOver table q block) q block = copyOver table q block := by
  funext p
  simp only [copyOver]
  split_ifs <;> rfl

theorem pointerAt_zero (w : ℕ) : pointerAt (fun _ => 0#8) w = 0 := by
  change Nat.ofDigits 256 (List.replicate 8 0) = 0
  exact Nat.ofDigits_replicate_zero

/-- A block of zeros copied over a table of pointers leaves null pointers. -/
theorem copyOver_zero (table : ℕ → ℕ) (q : ℕ) :
    copyOver table q (fun _ => 0#8) q = 0 := by
  have hin : q ≤ q ∧ q < q + ssdBlockSize / 8 :=
    ⟨le_refl q, Nat.lt_add_of_pos_right (by decide)⟩
  rw [copyOver, if_pos hin]
  exact pointerAt_zero _

/-- The loop never writes through a pointer. -/
theorem foldl_redirectReadBlock_memory (l : List ℕ) (area : ReadArea) :
    (l.foldl (redirectReadBlock metaData dev task idx) area).memory =
      area.memory := by
  induction l generalizing area with
  | nil => rfl
  | cons i l ih =>
      rw [List.foldl_cons, ih]
      by_cases h : mixBufferBlockTest metaData
          (task.offset + i * ssdBlockSize) idx = -1
      · rw [redirectReadBlock_of_eq area h]
      · rw [redirectReadBlock_of_ne area h]

/-- A block found anywhere leaves its copy in the row of pointers. -/
theorem foldl_redirectReadBlock_readBuffer (l : List ℕ) (area : ReadArea)
    (h : ∃ i ∈ l, mixBufferBlockTest metaData
      (task.offset + i * ssdBlockSize) idx ≠ -1) :
    (l.foldl (redirectReadBlock metaData dev task idx) area).readBuffer =
      copyOver area.readBuffer (idx.val * 512)
        (dev.buffer (metaData.bufferBlock idx 1)) := by
  induction l generalizing area with
  | nil => simp at h
  | cons i l ih =>
      rw [List.foldl_cons]
      by_cases hi : mixBufferBlockTest metaData
          (task.offset + i * ssdBlockSize) idx = -1
      · rw [redirectReadBlock_of_eq area hi]
        apply ih
        obtain ⟨j, hj, hfound⟩ := h
        rcases List.mem_cons.mp hj with rfl | hj
        · exact absurd hi hfound
        · exact ⟨j, hj, hfound⟩
      · rw [redirectReadBlock_of_ne area hi]
        by_cases hrest : ∃ j ∈ l, mixBufferBlockTest metaData
            (task.offset + j * ssdBlockSize) idx ≠ -1
        · rw [ih _ hrest]
          exact copyOver_copyOver _ _ _
        · push Not at hrest
          rw [foldl_redirectReadBlock_of_forall l _ hrest]

/-! ## When the client gets its blocks -/

/-- With no block found the call only counts the sub-task. -/
theorem redirectRead_of_looksUpNothing (area : ReadArea)
    (h : LooksUpNothing metaData task idx) :
    redirectRead metaData dev task idx area =
      { area with inflightBuffer := area.inflightBuffer - task.len } := by
  rw [redirectRead, foldl_redirectReadBlock_of_forall _ _ fun i hi =>
    h i (List.mem_range.mp hi)]

/-- With no block mapped and none found the client loses nothing. -/
theorem delivers_of_looksUpNothing (area : ReadArea)
    (hnone : mappedBlocks metaData task idx = [])
    (h : LooksUpNothing metaData task idx) :
    Delivers metaData dev task idx area
      (redirectRead metaData dev task idx area) := by
  rw [redirectRead_of_looksUpNothing area h]
  refine ⟨?_, fun p _ => ⟨rfl, rfl⟩, rfl, ?_⟩
  · intro j i hji
    rw [hnone] at hji
    cases hji
  · intro hrow
    have hfirst : area.readIndex (idx.val * 512) = -1 := by
      simpa using hrow 0 (by decide)
    rw [hnone, List.map_nil]
    apply ReadArea.scan_of_eq
    exact hfirst

/-- A mapped block that the worker does not find is not delivered. -/
theorem not_delivers_of_mapped {area : ReadArea} {i : ℕ} {l : List ℕ}
    (hmapped : mappedBlocks metaData task idx = i :: l)
    (h : LooksUpNothing metaData task idx)
    (harea : ∀ p, area.readIndex p ≠ blockAddress task i) :
    ¬ Delivers metaData dev task idx area
      (redirectRead metaData dev task idx area) := by
  intro hdelivers
  rw [redirectRead_of_looksUpNothing area h] at hdelivers
  have hfirst : (mappedBlocks metaData task idx)[0]? = some i := by
    rw [hmapped]
    rfl
  exact harea _ (hdelivers.delivered 0 i hfirst).2

/-- A client whose pointers lead to distinct blocks away from address zero. -/
def spreadArea : ReadArea where
  readBuffer := fun p => 4096 * (p + 1)
  memory := fun a => if a < 4096 then 1#8 else 2#8
  readIndex := fun _ => -1
  inflightBuffer := 0

/-- A block found by the worker is copied over the row of pointers, so a
buffer of zeros leaves the client with null pointers. -/
theorem not_delivers_of_found
    (hzeros : ∀ a, dev.buffer a = fun _ => 0#8)
    (hfound : ¬ LooksUpNothing metaData task idx) :
    ¬ Delivers metaData dev task idx spreadArea
      (redirectRead metaData dev task idx spreadArea) := by
  intro hdelivers
  have hexists : ∃ i ∈ List.range task.len, mixBufferBlockTest metaData
      (task.offset + i * ssdBlockSize) idx ≠ -1 := by
    rw [LooksUpNothing] at hfound
    push Not at hfound
    obtain ⟨i, hi, hne⟩ := hfound
    exact ⟨i, List.mem_range.mpr hi, hne⟩
  have hpointer : (redirectRead metaData dev task idx spreadArea).readBuffer
      (idx.val * 512) = 0 := by
    have hrow : (redirectRead metaData dev task idx spreadArea).readBuffer =
        copyOver spreadArea.readBuffer (idx.val * 512)
          (dev.buffer (metaData.bufferBlock idx 1)) :=
      foldl_redirectReadBlock_readBuffer _ spreadArea hexists
    rw [hrow, hzeros]
    exact copyOver_zero _ _
  have hread : (redirectRead metaData dev task idx spreadArea).block
      (idx.val * 512) 0 = 1#8 := by
    have hmemory : (redirectRead metaData dev task idx spreadArea).memory =
        spreadArea.memory := foldl_redirectReadBlock_memory _ _
    rw [ReadArea.block, hpointer, hmemory]
    rfl
  rcases hmapped : mappedBlocks metaData task idx with - | ⟨i, l⟩
  · have hkept := (hdelivers.others (idx.val * 512) (by simp [hmapped])).1
    rw [hkept] at hread
    have hold : spreadArea.block (idx.val * 512) 0 = 2#8 := by
      simp [ReadArea.block, spreadArea]
    rw [hold] at hread
    exact absurd hread (by decide)
  · have hfirst : (mappedBlocks metaData task idx)[0]? = some i := by
      rw [hmapped]
      rfl
    have hblock := (hdelivers.delivered 0 i hfirst).1
    rw [Nat.add_zero] at hblock
    rw [hblock, bufferedBlock, hzeros] at hread
    exact absurd hread (by decide)

/-- For every index and every sub-task, `redirect_read` delivers the buffered
blocks of the sub-task, whatever the buffer and the client hold, exactly when
no block of the sub-task is mapped and the worker finds none where it looks.
The blocks of the client may overlap; where the delivery fails, it fails for
some that do not, those of `spreadArea`. -/
theorem redirectRead_delivers_iff (metaData : MixMetadata)
    (dev : Devices σ BlockBytes) (task : IoTask BlockBytes) (idx : Fin 4) :
    (∀ (buffer : ℕ → BlockBytes) (area : ReadArea),
      Delivers metaData { dev with buffer := buffer } task idx area
        (redirectRead metaData { dev with buffer := buffer } task idx area)) ↔
    ∀ i < task.len,
      mixBufferBlockTest metaData (task.offset + segmentNum * i) idx = -1 ∧
        mixBufferBlockTest metaData (task.offset + i * ssdBlockSize) idx =
          -1 := by
  have hmapped : mappedBlocks metaData task idx = [] ↔ ∀ i < task.len,
      mixBufferBlockTest metaData (task.offset + segmentNum * i) idx = -1 := by
    simp [mappedBlocks, List.filter_eq_nil_iff]
  constructor
  · intro hall
    have hlooks : LooksUpNothing metaData task idx := by
      by_contra hfound
      exact not_delivers_of_found (fun _ => rfl) hfound
        (hall (fun _ _ => 0#8) spreadArea)
    have hnone : mappedBlocks metaData task idx = [] := by
      rcases hl : mappedBlocks metaData task idx with - | ⟨i, l⟩
      · rfl
      · exfalso
        refine not_delivers_of_mapped hl hlooks (fun p => ?_)
          (hall dev.buffer { spreadArea with
            readIndex := fun _ => blockAddress task i + 1 })
        exact Int.ne_of_gt (Int.lt_succ _)
    exact fun i hi => ⟨hmapped.mp hnone i hi, hlooks i hi⟩
  · intro hnone buffer area
    exact delivers_of_looksUpNothing area
      (hmapped.mpr fun i hi => (hnone i hi).1) fun i hi => (hnone i hi).2

/-- A read of the blocks `4`, `8` and `12`. -/
def readTask : IoTask BlockBytes where
  buf := fun _ _ => 0#8
  len := 3
  offset := 4
  opcode := mixRead
  type := .ssd
  inflightBuffer := 0

/-- The blocks `4` and `12` are mapped to the slots `0` and `1` of segment
`0`; with a buffer of zeros the client is left with null pointers. -/
theorem redirectRead_delivers_fails :
    mappedBlocks twoBlocksStore.metaData readTask 0 = [0, 2] ∧
      ¬ Delivers twoBlocksStore.metaData
        { nvm := fun _ _ => 0#8, buffer := fun _ _ => 0#8,
          bufferMeta := fun _ => ⟨0, 0, 0, 0⟩, ssd := () } readTask 0 spreadArea
        (redirectRead twoBlocksStore.metaData
          { nvm := fun _ _ => 0#8, buffer := fun _ _ => 0#8,
            bufferMeta := fun _ => ⟨0, 0, 0, 0⟩, ssd := () }
          readTask 0 spreadArea) := by
  constructor
  · decide +kernel
  · refine not_delivers_of_found (fun _ => rfl) fun hlooks => ?_
    have hfirst : mixBufferBlockTest twoBlocksStore.metaData 4 0 = -1 :=
      hlooks 0 (by decide)
    exact absurd hfirst (by decide +kernel)

end Uhs
