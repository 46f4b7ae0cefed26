import Uhs.Store.Routing
import Uhs.Store.Steps

/-!
# The sub-tasks of a large request

`mix_post_task_to_buffer` posts sub-tasks until it meets an empty one.  With
the stride of the workers they cut the range of the request into its residue
classes modulo the number of queues.
-/

namespace Uhs

variable {β : Type*}

/-- The loop of `mix_post_task_to_buffer` from round `i` on, with `n` rounds to
go: the sub-tasks that are posted, with their queues. -/
def postsFrom (task : IoTask β) : ℕ → ℕ → List (Fin 4 × IoTask β)
  | 0, _ => []
  | n + 1, i =>
      let post := subTask task i
      if post.2.len = 0 then [] else post :: postsFrom task n (i + 1)

/-- `mix_post_task_to_buffer`: the sub-tasks that are posted, in order. -/
def mixPostTaskToBuffer (task : IoTask β) : List (Fin 4 × IoTask β) :=
  postsFrom task bufferQueueNum 0

/-- The sub-tasks of a request cut its range into classes modulo the number of
queues, and none of them is left out. -/
structure Partitions (task : IoTask β) (posts : List (Fin 4 × IoTask β)) :
    Prop where
  length_le : posts.length ≤ bufferQueueNum
  nonempty : ∀ post ∈ posts, 0 < post.2.len
  queues_nodup : (posts.map Prod.fst).Nodup
  residue : ∀ post ∈ posts, ∃ r, ∀ b, post.2.Carries b → b % 4 = r
  disjoint : posts.Pairwise fun post post' =>
    ∀ b, post.2.Carries b → ¬ post'.2.Carries b
  cover : ∀ b, (∃ post ∈ posts, post.2.Carries b) ↔
    task.offset ≤ b ∧ b < task.offset + task.len
  posted : ∀ i < bufferQueueNum, (subTask task i).2.len ≠ 0 →
    subTask task i ∈ posts

section Posts

variable {task : IoTask β} (h : task.offset + task.len < 2 ^ 31)

include h

/-- A sub-task is empty when its number is the length of the request, or
more. -/
theorem subTask_len_eq_zero_iff {i : ℕ} (hi : i < bufferQueueNum) :
    (subTask task i).2.len = 0 ↔ task.len ≤ i := by
  rw [bufferQueueNum] at hi
  have hlen := subTask_len h i
  constructor
  · intro hzero
    split_ifs at hlen <;> omega
  · intro hle
    rw [if_neg (by omega)] at hlen
    omega

/-- The early `break` ends the loop where all that follow are empty. -/
theorem postsFrom_eq {n i : ℕ} (hi : i + n ≤ bufferQueueNum) :
    postsFrom task n i =
      (List.range' i (min n (task.len - i))).map (subTask task) := by
  induction n generalizing i with
  | zero => simp [postsFrom]
  | succ n ih =>
      have hempty := subTask_len_eq_zero_iff h (i := i) (by omega)
      by_cases hle : task.len ≤ i
      · have hzero : task.len - i = 0 := by omega
        rw [postsFrom, if_pos (hempty.mpr hle), hzero, Nat.min_zero]
        rfl
      · have hmin : min (n + 1) (task.len - i) =
            min n (task.len - (i + 1)) + 1 := by omega
        rw [postsFrom, if_neg (mt hempty.mp hle), ih (by omega), hmin,
          List.range'_succ, List.map_cons]

theorem mem_mixPostTaskToBuffer {post : Fin 4 × IoTask β} :
    post ∈ mixPostTaskToBuffer task ↔
      ∃ i, i < bufferQueueNum ∧ i < task.len ∧ subTask task i = post := by
  rw [mixPostTaskToBuffer, postsFrom_eq h (by simp), List.mem_map]
  constructor
  · rintro ⟨i, hi, hpost⟩
    rw [List.mem_range'_1] at hi
    exact ⟨i, by omega, by omega, hpost⟩
  · rintro ⟨i, hi, hlen, hpost⟩
    exact ⟨i, List.mem_range'_1.mpr (by omega), hpost⟩

/-- The blocks that a sub-task carries. -/
theorem subTask_carries_iff_mod {i b : ℕ} (hi : i < bufferQueueNum) :
    (subTask task i).2.Carries b ↔ task.offset ≤ b ∧
      b < task.offset + task.len ∧ (b - task.offset) % 4 = i := by
  constructor
  · intro hcarries
    have hrange : task.offset ≤ b ∧ b < task.offset + task.len := by
      obtain ⟨j, hj, hb⟩ := hcarries
      have hlong : ¬ task.len ≤ i := by
        rw [← subTask_len_eq_zero_iff h hi]
        omega
      rw [subTask_len h] at hj
      rw [subTask_offset h (by omega), bufferQueueNum] at hb
      rw [bufferQueueNum] at hi
      split_ifs at hj <;> omega
    exact ⟨hrange.1, hrange.2,
      (subTask_carries_iff h hi hrange.1 hrange.2).mp hcarries⟩
  · rintro ⟨hle, hlt, hmod⟩
    exact (subTask_carries_iff h hi hle hlt).mpr hmod

/-- The sub-tasks that are posted partition the range of the request. -/
theorem mixPostTaskToBuffer_partitions :
    Partitions task (mixPostTaskToBuffer task) := by
  have hposts := postsFrom_eq h (n := bufferQueueNum) (i := 0) (by simp)
  rw [← mixPostTaskToBuffer] at hposts
  have hlt : ∀ {i}, i ∈ List.range' 0 (min bufferQueueNum (task.len - 0)) →
      i < bufferQueueNum := by
    intro i hi
    rw [List.mem_range'_1] at hi
    omega
  refine
    { length_le := ?_
      nonempty := ?_
      queues_nodup := ?_
      residue := ?_
      disjoint := ?_
      cover := ?_
      posted := ?_ }
  · rw [hposts, List.length_map, List.length_range']
    exact Nat.min_le_left _ _
  · intro post hpost
    obtain ⟨i, hi, hlen, rfl⟩ := (mem_mixPostTaskToBuffer h).mp hpost
    have hempty := subTask_len_eq_zero_iff h hi
    omega
  · rw [hposts, List.map_map]
    refine List.Nodup.map_on ?_ List.nodup_range'
    intro i hi j hj heq
    have hi' := hlt hi
    have hj' := hlt hj
    simp only [Function.comp_apply, subTask, Fin.ofNat, Fin.mk.injEq,
      bufferQueueNum] at heq hi' hj'
    omega
  · intro post hpost
    obtain ⟨i, hi, hlen, rfl⟩ := (mem_mixPostTaskToBuffer h).mp hpost
    refine ⟨(task.offset + i) % 4, fun b hcarries => ?_⟩
    obtain ⟨hle, -, hmod⟩ := (subTask_carries_iff_mod h hi).mp hcarries
    omega
  · rw [hposts, List.pairwise_map]
    refine List.Pairwise.imp_of_mem ?_ List.pairwise_lt_range'
    intro i j hi hj hij b hcarries hcarries'
    have hmod := ((subTask_carries_iff_mod h (hlt hi)).mp hcarries).2.2
    have hmod' := ((subTask_carries_iff_mod h (hlt hj)).mp hcarries').2.2
    omega
  · intro b
    constructor
    · rintro ⟨post, hpost, hcarries⟩
      obtain ⟨i, hi, -, rfl⟩ := (mem_mixPostTaskToBuffer h).mp hpost
      obtain ⟨hle, hlt, -⟩ := (subTask_carries_iff_mod h hi).mp hcarries
      exact ⟨hle, hlt⟩
    · rintro ⟨hle, hlt⟩
      have hi : (b - task.offset) % 4 < bufferQueueNum :=
        Nat.mod_lt _ (by decide)
      refine ⟨_, (mem_mixPostTaskToBuffer h).mpr ⟨_, hi, ?_, rfl⟩,
        (subTask_carries_iff_mod h hi).mpr ⟨hle, hlt, rfl⟩⟩
      omega
  · intro i hi hlen
    rw [Ne, subTask_len_eq_zero_iff h hi] at hlen
    exact (mem_mixPostTaskToBuffer h).mpr ⟨i, hi, by omega, rfl⟩

end Posts

/-- A request of two blocks: the last two sub-tasks are empty. -/
theorem mixPostTaskToBuffer_partitions_example :
    Partitions (initIoTask (id : ℕ → ℕ) 2 7 mixWrite 0)
      (mixPostTaskToBuffer (initIoTask (id : ℕ → ℕ) 2 7 mixWrite 0)) :=
  mixPostTaskToBuffer_partitions (by decide)

/-! ## The client -/

/-- A client in `mix_post_task_to_buffer` posts the sub-tasks one by one. -/
theorem clientStep_postSub {T : ℕ} {σ : Type*} [Support.BlockDevice σ β]
    {s s' : System T σ β} {c : Fin 16} {task : IoTask β} {n : ℕ}
    (hpc : s.clients c = .postSub task n) (hstep : clientStep s c = some s') :
    postsFrom task (bufferQueueNum - n) n = [] ∧
        s' = s.setClient c (.ssd task) ∨
      ∃ i sub, postsFrom task (bufferQueueNum - n) n =
          (i, sub) :: postsFrom task (bufferQueueNum - (n + 1)) (n + 1) ∧
        s' = (s.setBufferQueue i (s.bufferQueue i ++ [sub])).setClient c
          (.postSub task (n + 1)) := by
  simp only [clientStep, hpc] at hstep
  by_cases hn : n < bufferQueueNum
  · have hsub : bufferQueueNum - n = bufferQueueNum - (n + 1) + 1 := by omega
    rw [if_pos hn] at hstep
    by_cases hempty : (subTask task n).2.len = 0
    · rw [if_pos hempty] at hstep
      left
      rw [hsub, postsFrom, if_pos hempty]
      exact ⟨rfl, (Option.some.inj hstep).symm⟩
    · rw [if_neg hempty] at hstep
      right
      refine ⟨(subTask task n).1, (subTask task n).2, ?_, ?_⟩
      · rw [hsub, postsFrom, if_neg hempty]
      · rcases mixEnqueue_cases (s.bufferQueue (subTask task n).1)
          (subTask task n).2 with hroom | hfull
        · rw [hroom] at hstep
          exact (Option.some.inj hstep).symm
        · rw [hfull] at hstep
          cases hstep
  · rw [if_neg hn] at hstep
    have hzero : bufferQueueNum - n = 0 := by omega
    left
    rw [hzero]
    exact ⟨rfl, (Option.some.inj hstep).symm⟩

end Uhs
