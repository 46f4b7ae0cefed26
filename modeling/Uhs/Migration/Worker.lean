import Uhs.Migration.Machine
import Uhs.Segment.Slots

/-!
# A worker inside `redirect_write`

The steps of a worker next to the machine of the migrations.  The metadata of
a segment are touched by its worker and by the migrate threads the worker
waits for, and by nobody else, so what lies between two accesses to the
devices or to the mutex is one step.
-/

namespace Uhs

open Support

/-- Program counter of `nvm_worker`. -/
inductive WorkerPc (β : Type*)
  /-- at the head of the loop -/
  | ready
  /-- in `mix_nvm_read`, before the block `i` of the task -/
  | nvmRead (task : IoTask β) (i : ℕ)
  /-- in `mix_nvm_write`, before the block `i` of the task -/
  | nvmWrite (task : IoTask β) (i : ℕ)
  /-- before `mix_buffer_block_test` -/
  | start (task : IoTask β)
  /-- before the `pthread_mutex_lock` of `mix_migrate_segment`, which
  `redirect_write` has called for `task`, or which was called on its own -/
  | lock (task : Option (IoTask β))
  /-- between `mix_segment_migration_begin` and the unlock of the mutex -/
  | migrating (task : Option (IoTask β))
  /-- before the first `pmem_memcpy` of `mix_buffer_write` -/
  | data (task : IoTask β) (slot : ℤ)
  /-- before the second `pmem_memcpy` of `mix_buffer_write` -/
  | record (task : IoTask β) (slot : ℤ)
  /-- before `ret` is subtracted from the counter of the task -/
  | finish (task : IoTask β) (ret : ℤ)

/-- The write that the worker is executing. -/
def WorkerPc.writing {β : Type*} : WorkerPc β → Option (IoTask β)
  | .start task => some task
  | .lock task => task
  | .migrating task => task
  | .data task _ => some task
  | .record task _ => some task
  | .finish task _ => some task
  | _ => none

/-- The worker is about to call a migration. -/
def WorkerPc.Locks {β : Type*} : WorkerPc β → Prop
  | .lock _ => True
  | _ => False

instance {β : Type*} : DecidablePred (WorkerPc.Locks (β := β))
  | .ready => isFalse fun h => h
  | .nvmRead _ _ => isFalse fun h => h
  | .nvmWrite _ _ => isFalse fun h => h
  | .start _ => isFalse fun h => h
  | .lock _ => isTrue trivial
  | .migrating _ => isFalse fun h => h
  | .data _ _ => isFalse fun h => h
  | .record _ _ => isFalse fun h => h
  | .finish _ _ => isFalse fun h => h

variable {T : ℕ} {σ β : Type*}

section Allocation

variable (idx : Fin 4) (s : Machine T σ β)

/-- `redirect_write` up to the copy of the data or to the migration. -/
def workerStart (task : IoTask β) : Option (Machine T σ β × WorkerPc β) :=
  let offset := mixBufferBlockTest s.store.metaData task.offset idx
  if offset = -1 then
    (mixGetNextFreeBlock s.store.metaData idx).bind fun (offset, metaData) =>
      let s := s.setMetaData metaData
      if offset = -1 then
        some (s, .lock (some task))
      else
        (claimSlot s.store task idx false offset).map fun choice =>
          (s.setStore choice.store, .data task choice.slot)
  else
    some (s, .data task offset)

/-- `mix_migrate_segment` has returned: `redirect_write` takes a slot. -/
def workerResume (task : Option (IoTask β)) :
    Option (Machine T σ β × WorkerPc β) :=
  match task with
  | none => some (s, .ready)
  | some task =>
      (takeSlot s.store task idx true).map fun choice =>
        (s.setStore choice.store, .data task choice.slot)

/-- One step of the worker of segment `idx` on the machine; `none` while it
waits. -/
def redirectStep (s : Machine T σ β) :
    WorkerPc β → Option (Machine T σ β × WorkerPc β)
  | .start task => workerStart idx s task
  | .lock task =>
      if s.coord = .idle then
        some (callMigration idx s, .migrating task)
      else
        none
  | .migrating task =>
      if s.coord = .returned idx then
        workerResume idx { s with coord := .idle } task
      else
        none
  | .data task slot =>
      some (s.setDev (mixBufferWriteData s.store.dev (task.buf 0)
        (s.store.metaData.bufferBlock idx slot)), .record task slot)
  | .record task slot =>
      some (s.setDev (mixBufferWriteMeta s.store.dev task.offset
        (s.store.metaData.bufferBlock idx slot) task.opcode),
        .finish task (toInt32 task.len))
  | _ => none

end Allocation

/-- A step of the coordinator up to its return, which its caller takes. -/
def coordAdvance (s : Machine T σ β) : Option (Machine T σ β) :=
  match s.coord with
  | .returned _ => none
  | _ => coordStep s

end Uhs
