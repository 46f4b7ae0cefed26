import Uhs.Store.TaskMoves

/-!
# Tasks of valid requests

Requests that the store can serve, and what is known of their tasks while
they are under way.
-/

namespace Uhs

open Support

variable {T : ℕ} {σ β : Type*}

/-! ## Requests that the store can serve -/

/-- The range of a request lies in the NVM, or behind the threshold, where a
write of a single block is to one of the first `2 ^ 32` blocks. -/
structure Request.Valid (request : Request β) : Prop where
  flags : request.flags &&& (mixRead ||| mixWrite ||| mixClear) = 0
  len : 0 < request.len
  range : request.offset + request.len < nvmThreshold ∨
    nvmThreshold ≤ request.offset ∧ request.offset + request.len < 2 ^ 64
  single : request.isWrite = true → request.len = 1 →
    request.offset < nvmThreshold + 2 ^ 32

instance (request : Request β) : Decidable request.Valid :=
  decidable_of_iff
    (request.flags &&& (mixRead ||| mixWrite ||| mixClear) = 0 ∧
      0 < request.len ∧
      (request.offset + request.len < nvmThreshold ∨
        nvmThreshold ≤ request.offset ∧
          request.offset + request.len < 2 ^ 64) ∧
      (request.isWrite = true → request.len = 1 →
        request.offset < nvmThreshold + 2 ^ 32))
    ⟨fun h => ⟨h.1, h.2.1, h.2.2.1, h.2.2.2⟩,
      fun h => ⟨h.flags, h.len, h.range, h.single⟩⟩

variable {request : Request β} {c : Fin 16} {task : IoTask β}

theorem Request.Valid.posts (h : request.Valid) : request.Posts where
  flags := h.flags
  len := h.len
  range := by
    have hthreshold : nvmThreshold = 1928765 := rfl
    rcases h.range with hnvm | ⟨hssd, hlt⟩
    · exact Or.inl hnvm
    · have hlen := h.len
      exact Or.inr (by omega)

/-- A task for the SSD has the range of its request, moved to the SSD. -/
theorem Request.Valid.ssd_offset (h : request.Valid)
    (htype : (request.task c).type = .ssd) :
    request.offset = (request.task c).offset + nvmThreshold := by
  have hthreshold : nvmThreshold = 1928765 := rfl
  rcases h.range with hnvm | ⟨hssd, hlt⟩
  · rw [Request.task_type_nvm hnvm] at htype
    cases htype
  · rcases h.posts.task_cases c with ⟨hnvm, -⟩ | heq
    · omega
    · have hoffset : (request.task c).offset =
          toSizeT ((request.offset : ℤ) - nvmThreshold) := by
        rw [heq]
      rw [hoffset, toSizeT]
      omega

/-- The invariant of the tasks. -/
structure TaskInv (s : System T σ β) : Prop extends PostInv s where
  valid : ∀ c, s.clients c ≠ .idle → (s.request c).Valid

variable {s s' : System T σ β} {i : Fin 4}

/-- A buffered write is of one block of the segment of its worker. -/
structure Buffers (s : System T σ β) (i : Fin 4) (task : IoTask β) :
    Prop where
  isWrite : (s.request task.inflightBuffer).isWrite = true
  buf : task.buf = (s.request task.inflightBuffer).buf
  len : (s.request task.inflightBuffer).len = 1
  offset : (s.request task.inflightBuffer).offset =
    task.offset + nvmThreshold
  lt : task.offset < 2 ^ 32
  segment : task.offset % 4 = i.val

theorem TaskInv.buffers (h : TaskInv s)
    (hcurrent : (s.workers i).current = some task)
    (hbranch : workerBranch task = .redirectWrite) : Buffers s i task := by
  have hposted := h.posted (System.mem_pending_of_worker hcurrent)
  have hvalid : (s.request task.inflightBuffer).Valid :=
    h.valid _ (by rw [hposted.client]; simp)
  have hqueue := congrArg Fin.val hposted.queue
  have hbuf := (hposted.posts.task_fields task.inflightBuffer).1
  rw [← hposted.task_eq] at hbuf
  rw [hposted.branch] at hbranch
  rcases hposted.kind with hnvm | ⟨hssd, hwrite, hone⟩
  · rw [hnvm] at hbranch
    split at hbranch <;> simp_all
  · rw [hposted.task_eq] at hssd
    have hoffset := hvalid.ssd_offset hssd
    rw [← hposted.task_eq] at hoffset
    have hlt := hvalid.single hwrite hone
    exact ⟨hwrite, hbuf, hone, hoffset, by omega, hqueue⟩

/-- Every step keeps the tasks in order, if only valid requests are made. -/
theorem systemStep_taskInv [BlockDevice σ β] {event : SystemEvent T β}
    (h : TaskInv s)
    (hvalid : ∀ c request, event = .call c request → request.Valid)
    (hstep : systemStep s event = some s') : TaskInv s' := by
  have hposts : event.Posts := by
    cases event with
    | call c request => exact (hvalid c request rfl).posts
    | client c | worker i | migrate i | coord | thread t => trivial
  have hmoves := h.systemStep_moves hposts hstep
  refine ⟨hmoves.postInv h.toPostInv,
    hmoves.forall_request (fun c request hmem => ?_) h.valid⟩
  exact hvalid c request (eq_call_of_mem_callEvents hmem)

end Uhs
