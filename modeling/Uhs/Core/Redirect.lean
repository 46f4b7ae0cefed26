import Uhs.Core.Metadata

/-!
# Redirected writes

Model of `redirect_write` and `mix_migrate_segment` in `nvm_worker.cpp`.  The
choice of the slot is split off, together with a note of whether it ran a
migration.
-/

namespace Uhs

open Support

variable {σ β : Type*} [BlockDevice σ β]

/-- `mix_migrate_segment`, with the migrate threads one after the other. -/
def mixMigrateSegment (s : Store σ β) (idx : Fin 4) : Store σ β :=
  mixSegmentMigrationEnd
    ((List.range s.metaData.migrateThreadNum).foldl (migrateThread idx) s) idx

/-- What `redirect_write` has settled when it comes to copy the data. -/
structure SlotChoice (σ β : Type*) where
  migrated : Bool
  slot : ℤ
  store : Store σ β

/-- `mix_write_redirect_blockmeta` for a chosen slot. -/
def claimSlot (s : Store σ β) (task : IoTask β) (idx : Fin 4)
    (migrated : Bool) (offset : ℤ) : Option (SlotChoice σ β) :=
  (mixWriteRedirectBlockmeta s.metaData idx task.offset offset).map
    fun metaData =>
      { migrated := migrated
        slot := offset
        store := { s with metaData := metaData } }

/-- The part of `redirect_write` before the data is copied. -/
def redirectSlot (s : Store σ β) (task : IoTask β) (idx : Fin 4) :
    Option (SlotChoice σ β) :=
  let offset := mixBufferBlockTest s.metaData task.offset idx
  if offset = -1 then
    (mixGetNextFreeBlock s.metaData idx).bind fun (offset, metaData) =>
      let s := { s with metaData := metaData }
      if offset = -1 then
        let s := mixMigrateSegment s idx
        (mixGetNextFreeBlock s.metaData idx).bind fun (offset, metaData) =>
          claimSlot { s with metaData := metaData } task idx true offset
      else
        claimSlot s task idx false offset
  else
    some { migrated := false, slot := offset, store := s }

/-- The copy at the end of `redirect_write`. -/
def SlotChoice.write (choice : SlotChoice σ β) (task : IoTask β)
    (idx : Fin 4) : Store σ β :=
  { choice.store with
    dev := mixBufferWrite choice.store.dev (task.buf 0) task.offset
      (choice.store.metaData.bufferBlock idx choice.slot) task.opcode }

/-- `redirect_write`: the number of blocks reported and the new store. -/
def redirectWrite (s : Store σ β) (task : IoTask β) (idx : Fin 4) :
    Option (ℕ × Store σ β) :=
  (redirectSlot s task idx).map fun choice =>
    (task.len, choice.write task idx)

end Uhs
