import Mathlib.Logic.Function.Basic
import Uhs.Support.BlockDevice

/-!
# Persistent devices

Model of the NVM accesses in `nvm.cpp` and of the SSD driver.  The unit is one
4096-byte block of type `β`.  The NVM holds the NVM zone, the data blocks of
the buffer and one metadata record for each of them; the three regions are
separate here.

`mix_ssd_read` and `mix_ssd_write` are called throughout and defined nowhere
in the repository, so the SSD is any block device `σ`.
-/

namespace Uhs

open Support

/-- `buffer_meta_t`. -/
structure BufferMeta where
  status : ℕ
  timestamp : ℕ
  offset : ℕ
  flags : ℕ
  deriving DecidableEq

/-- Contents of the NVM and of the SSD. -/
structure Devices (σ β : Type*) where
  nvm : ℕ → β
  buffer : ℕ → β
  bufferMeta : ℕ → BufferMeta
  ssd : σ

variable {σ β : Type*} [BlockDevice σ β]

/-- Contents of one SSD block. -/
def Devices.ssdBlock (dev : Devices σ β) (lba : ℕ) : β :=
  BlockDevice.read dev.ssd lba

/-- The blocks `src, src + 1, ...` of a caller's memory. -/
def blocksOf (src : ℕ → β) (len : ℕ) : List β := (List.range len).map src

omit [BlockDevice σ β] in
@[simp] theorem length_blocksOf (src : ℕ → β) (len : ℕ) :
    (blocksOf src len).length = len := by
  simp [blocksOf]

/-- `mix_nvm_read`. -/
def mixNvmRead (dev : Devices σ β) (len offset : ℕ) : List β :=
  blocksOf (fun i => dev.nvm (offset + i)) len

/-- `mix_nvm_write`. -/
def mixNvmWrite (dev : Devices σ β) (src : ℕ → β) (len offset : ℕ) :
    Devices σ β :=
  { dev with nvm := fun a =>
      if offset ≤ a ∧ a < offset + len then src (a - offset) else dev.nvm a }

/-- `mix_buffer_read`. -/
def mixBufferRead (dev : Devices σ β) (dstBlock : ℕ) : β := dev.buffer dstBlock

/-- The first `pmem_memcpy` of `mix_buffer_write`: the data block. -/
def mixBufferWriteData (dev : Devices σ β) (src : β) (dstBlock : ℕ) :
    Devices σ β :=
  { dev with buffer := Function.update dev.buffer dstBlock src }

/-- The second `pmem_memcpy` of `mix_buffer_write`: the metadata record. -/
def mixBufferWriteMeta (dev : Devices σ β) (srcBlock dstBlock flags : ℕ) :
    Devices σ β :=
  let record : BufferMeta :=
    { flags := flags, status := 1, timestamp := 0, offset := srcBlock }
  { dev with bufferMeta := Function.update dev.bufferMeta dstBlock record }

/-- `mix_buffer_write`. -/
def mixBufferWrite (dev : Devices σ β) (src : β)
    (srcBlock dstBlock flags : ℕ) : Devices σ β :=
  mixBufferWriteMeta (mixBufferWriteData dev src dstBlock) srcBlock dstBlock
    flags

/-- `mix_buffer_clear`: zero the status word. -/
def mixBufferClear (dev : Devices σ β) (dstBlock : ℕ) : Devices σ β :=
  let record : BufferMeta := { dev.bufferMeta dstBlock with status := 0 }
  { dev with bufferMeta := Function.update dev.bufferMeta dstBlock record }

/-- `mix_buffer_get_meta`. -/
def mixBufferGetMeta (dev : Devices σ β) (dstBlock : ℕ) : BufferMeta :=
  dev.bufferMeta dstBlock

/-- `mix_ssd_read`. -/
def mixSsdRead (dev : Devices σ β) (len offset : ℕ) : List β :=
  blocksOf (fun i => dev.ssdBlock (offset + i)) len

/-- `mix_ssd_write`. -/
def mixSsdWrite (dev : Devices σ β) (src : ℕ → β) (len offset : ℕ) :
    Devices σ β :=
  { dev with ssd := BlockDevice.write dev.ssd offset (blocksOf src len) }

section Simp

variable (dev : Devices σ β)

omit [BlockDevice σ β]

@[simp] theorem mixBufferWriteData_bufferMeta (src : β) (a : ℕ) :
    (mixBufferWriteData dev src a).bufferMeta = dev.bufferMeta := rfl

@[simp] theorem mixBufferWriteData_ssd (src : β) (a : ℕ) :
    (mixBufferWriteData dev src a).ssd = dev.ssd := rfl

@[simp] theorem mixBufferWriteMeta_buffer (b a f : ℕ) :
    (mixBufferWriteMeta dev b a f).buffer = dev.buffer := rfl

@[simp] theorem mixBufferWriteMeta_ssd (b a f : ℕ) :
    (mixBufferWriteMeta dev b a f).ssd = dev.ssd := rfl

@[simp] theorem mixBufferWrite_buffer (src : β) (b a f : ℕ) :
    (mixBufferWrite dev src b a f).buffer =
      Function.update dev.buffer a src := rfl

@[simp] theorem mixBufferWrite_bufferMeta (src : β) (b a f : ℕ) :
    (mixBufferWrite dev src b a f).bufferMeta =
      Function.update dev.bufferMeta a ⟨1, 0, b, f⟩ := rfl

@[simp] theorem mixBufferWrite_ssd (src : β) (b a f : ℕ) :
    (mixBufferWrite dev src b a f).ssd = dev.ssd := rfl

@[simp] theorem mixBufferClear_buffer (a : ℕ) :
    (mixBufferClear dev a).buffer = dev.buffer := rfl

@[simp] theorem mixBufferClear_ssd (a : ℕ) :
    (mixBufferClear dev a).ssd = dev.ssd := rfl

end Simp

section Simp

variable (dev : Devices σ β)

@[simp] theorem mixBufferWrite_ssdBlock (src : β) (b a f : ℕ) :
    (mixBufferWrite dev src b a f).ssdBlock = dev.ssdBlock := rfl

@[simp] theorem mixBufferClear_ssdBlock (a : ℕ) :
    (mixBufferClear dev a).ssdBlock = dev.ssdBlock := rfl

@[simp] theorem mixSsdWrite_buffer (src : ℕ → β) (len a : ℕ) :
    (mixSsdWrite dev src len a).buffer = dev.buffer := rfl

@[simp] theorem mixSsdWrite_bufferMeta (src : ℕ → β) (len a : ℕ) :
    (mixSsdWrite dev src len a).bufferMeta = dev.bufferMeta := rfl

theorem mixSsdWrite_ssdBlock (src : ℕ → β) (len offset a : ℕ) :
    (mixSsdWrite dev src len offset).ssdBlock a =
      if offset ≤ a ∧ a < offset + len then src (a - offset)
      else dev.ssdBlock a := by
  unfold Devices.ssdBlock mixSsdWrite
  by_cases hin : offset ≤ a ∧ a < offset + len
  · rw [if_pos hin, BlockDevice.read_write_of_mem _ _ _ hin.1
      (by simpa using hin.2)]
    simp [blocksOf]
  · rw [if_neg hin, BlockDevice.read_write_of_notMem]
    simp only [length_blocksOf]
    omega

end Simp

omit [BlockDevice σ β] in
/-- A write of one block to the NVM zone. -/
theorem mixNvmWrite_one (dev : Devices σ β) (x : β) (a : ℕ) :
    (mixNvmWrite dev (fun _ => x) 1 a).nvm = Function.update dev.nvm a x := by
  funext b
  rw [Function.update_apply]
  change (if a ≤ b ∧ b < a + 1 then x else dev.nvm b) = _
  by_cases hb : b = a
  · rw [if_pos (by omega), if_pos hb]
  · rw [if_neg (by omega), if_neg hb]

omit [BlockDevice σ β] in
theorem mixBufferClear_status (dev : Devices σ β) (a p : ℕ) :
    ((mixBufferClear dev a).bufferMeta p).status =
      if p = a then 0 else (dev.bufferMeta p).status := by
  by_cases hp : p = a
  · subst hp
    simp [mixBufferClear]
  · simp [mixBufferClear, hp]

omit [BlockDevice σ β] in
theorem mixBufferClear_offset (dev : Devices σ β) (a p : ℕ) :
    ((mixBufferClear dev a).bufferMeta p).offset =
      (dev.bufferMeta p).offset := by
  by_cases hp : p = a
  · subst hp
    simp [mixBufferClear]
  · simp [mixBufferClear, hp]

end Uhs
