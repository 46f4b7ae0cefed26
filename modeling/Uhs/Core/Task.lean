import Mathlib.Algebra.GroupWithZero.Nat

/-!
# Requests

The opcodes of `mixdk.h` and the task record of `mix_task.h`.
-/

namespace Uhs

/-- `MIX_READ`. -/
def mixRead : ℕ := 1

/-- `MIX_WRITE`. -/
def mixWrite : ℕ := 1 <<< 2

/-- `MIX_CLEAR`. -/
def mixClear : ℕ := 1 <<< 6

/-- `NVM_TASK` and `SSD_TASK`, the two task types that are ever posted. -/
inductive TaskType
  | nvm
  | ssd
  deriving DecidableEq

/-- `io_task_t`.  The data buffer is the memory it points to, block by block;
`inflightBuffer` names the client slot whose counter the task points to. -/
structure IoTask (β : Type*) where
  buf : ℕ → β
  len : ℕ
  offset : ℕ
  opcode : ℕ
  type : TaskType
  inflightBuffer : Fin 16

/-! ## Numerals for the queues and the client slots -/

instance (priority := high) neZeroQueues : NeZero 4 := ⟨by decide⟩

instance (priority := high) neZeroClients : NeZero 16 := ⟨by decide⟩

end Uhs
