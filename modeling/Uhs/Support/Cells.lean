import Mathlib.Logic.Function.Basic

/-!
# A write-back cache, one store at a time

A cache holds keys in places.  A key is claimed for a place, the place is
filled and then marked by a record that survives a crash.  To evict a key its
place is copied to the disk and then released together with its record.  The
contents of a key are told from the claims, or after a crash from the records.
-/

namespace Uhs.Support

/-- The claims, the contents of the places, their records and the disk. -/
@[ext]
structure Cells (κ ν β : Type*) where
  live : κ → ν → Prop
  buffer : ν → β
  record : ν → Option κ
  disk : κ → β

namespace Cells

variable {κ ν β : Type*}

/-- The contents of key `k`, told from the claims, are `x`. -/
structure Volatile (c : Cells κ ν β) (k : κ) (x : β) : Prop where
  buffered : ∀ p, c.live k p → c.buffer p = x
  unbuffered : (∀ p, ¬ c.live k p) → c.disk k = x

/-- The contents of key `k`, told from the records, are `x`. -/
structure Persistent (c : Cells κ ν β) (k : κ) (x : β) : Prop where
  buffered : ∀ p, c.record p = some k → c.buffer p = x
  unbuffered : (∀ p, c.record p ≠ some k) → c.disk k = x

/-- A key has one place and a place one key. -/
structure Placed (c : Cells κ ν β) : Prop where
  unique_place : ∀ k p q, c.live k p → c.live k q → p = q
  unique_key : ∀ j k p, c.live j p → c.live k p → j = k

/-- Besides, only claims are recorded. -/
structure Wf (c : Cells κ ν β) : Prop extends Placed c where
  recorded : ∀ k p, c.record p = some k → c.live k p

variable {c c' : Cells κ ν β} {j k : κ} {p : ν} {x y : β}

/-! ## Claiming a place -/

def claim (c : Cells κ ν β) (k : κ) (p : ν) : Cells κ ν β :=
  { c with live := fun j q => c.live j q ∨ j = k ∧ q = p }

theorem Placed.claim (h : c.Placed) (hkey : ∀ q, ¬ c.live k q)
    (hplace : ∀ j, ¬ c.live j p) : (c.claim k p).Placed where
  unique_place := by
    rintro j q q' (hq | ⟨rfl, rfl⟩) (hq' | ⟨hj, rfl⟩)
    · exact h.unique_place j q q' hq hq'
    · exact absurd (hj ▸ hq) (hkey q)
    · exact absurd hq' (hkey q')
    · rfl
  unique_key := by
    rintro i j q (hi | ⟨rfl, rfl⟩) (hj | ⟨rfl, hq⟩)
    · exact h.unique_key i j q hi hj
    · exact absurd (hq ▸ hi) (hplace i)
    · exact absurd hj (hplace j)
    · rfl

theorem Wf.claim (h : c.Wf) (hkey : ∀ q, ¬ c.live k q)
    (hplace : ∀ j, ¬ c.live j p) : (c.claim k p).Wf where
  toPlaced := h.toPlaced.claim hkey hplace
  recorded := fun j q hrecord => Or.inl (h.recorded j q hrecord)

theorem Volatile.claim (h : c.Volatile j x) (hj : j ≠ k) :
    (c.claim k p).Volatile j x where
  buffered := by
    rintro q (hq | ⟨rfl, -⟩)
    · exact h.buffered q hq
    · exact absurd rfl hj
  unbuffered := fun hnone =>
    h.unbuffered fun q hq => hnone q (Or.inl hq)

theorem Persistent.claim (h : c.Persistent j x) (k : κ) (p : ν) :
    (c.claim k p).Persistent j x :=
  ⟨h.buffered, h.unbuffered⟩

/-! ## Writing to the disk -/

def write (c : Cells κ ν β) (disk : κ → β) : Cells κ ν β :=
  { c with disk := disk }

/-- A disk write leaves the contents of a key, unless it changes the block of
a key without a place. -/
theorem Volatile.write (h : c.Volatile j x) {disk : κ → β}
    (hdisk : (∀ p, ¬ c.live j p) → disk j = c.disk j) :
    (c.write disk).Volatile j x where
  buffered := h.buffered
  unbuffered := fun hnone => (hdisk hnone).trans (h.unbuffered hnone)

/-- A key without a place has the contents of its disk block. -/
theorem volatile_of_not_live (hnone : ∀ p, ¬ c.live j p) :
    c.Volatile j (c.disk j) :=
  ⟨fun p hp => absurd hp (hnone p), fun _ => rfl⟩

variable [DecidableEq ν]

/-! ## Filling a place -/

def fill (c : Cells κ ν β) (p : ν) (x : β) : Cells κ ν β :=
  { c with buffer := Function.update c.buffer p x }

theorem Wf.fill (h : c.Wf) (p : ν) (x : β) : (c.fill p x).Wf :=
  ⟨⟨h.unique_place, h.unique_key⟩, h.recorded⟩

theorem Placed.volatile_fill (h : c.Placed) (hlive : c.live k p) :
    (c.fill p x).Volatile k x where
  buffered := by
    intro q hq
    rw [h.unique_place k q p hq hlive]
    exact Function.update_self p x c.buffer
  unbuffered := fun hnone => absurd hlive (hnone p)

theorem Volatile.fill (h : c.Volatile j y) (hplaced : c.Placed) (hlive : c.live k p)
    (hj : j ≠ k) (x : β) : (c.fill p x).Volatile j y where
  buffered := by
    intro q hq
    have hqp : q ≠ p := by
      rintro rfl
      exact hj (hplaced.unique_key j k q hq hlive)
    rw [← h.buffered q hq]
    exact Function.update_of_ne hqp x c.buffer
  unbuffered := h.unbuffered

theorem Persistent.fill (h : c.Persistent j y) (hwf : c.Wf)
    (hlive : c.live k p) (hj : j ≠ k) (x : β) :
    (c.fill p x).Persistent j y where
  buffered := by
    intro q hq
    have hqp : q ≠ p := by
      rintro rfl
      exact hj (hwf.unique_key j k q (hwf.recorded j q hq) hlive)
    rw [← h.buffered q hq]
    exact Function.update_of_ne hqp x c.buffer
  unbuffered := h.unbuffered

/-- Filling the place of a key changes its contents at once, if the place is
recorded, and else not yet. -/
theorem Persistent.fill_self (h : c.Persistent k y) (hwf : c.Wf)
    (hlive : c.live k p) (x : β) :
    (c.fill p x).Persistent k x ∨ (c.fill p x).Persistent k y := by
  have hplace : ∀ q, c.record q = some k → q = p := fun q hq =>
    hwf.unique_place k q p (hwf.recorded k q hq) hlive
  by_cases hrecord : c.record p = some k
  · refine Or.inl ⟨fun q hq => ?_, fun hnone => absurd hrecord (hnone p)⟩
    rw [hplace q hq]
    exact Function.update_self p x c.buffer
  · refine Or.inr ⟨fun q hq => ?_, h.unbuffered⟩
    have hqp : q = p := hplace q hq
    exact absurd (hqp ▸ hq) hrecord

/-! ## Recording a claim -/

def mark (c : Cells κ ν β) (k : κ) (p : ν) : Cells κ ν β :=
  { c with record := Function.update c.record p (some k) }

theorem Wf.mark (h : c.Wf) (hlive : c.live k p) : (c.mark k p).Wf where
  toPlaced := ⟨h.unique_place, h.unique_key⟩
  recorded := by
    intro j q hrecord
    by_cases hq : q = p
    · subst hq
      simp only [Cells.mark, Function.update_self, Option.some.injEq]
        at hrecord
      exact hrecord ▸ hlive
    · simp only [Cells.mark, Function.update_of_ne hq] at hrecord
      exact h.recorded j q hrecord

theorem Volatile.mark (h : c.Volatile j x) (k : κ) (p : ν) :
    (c.mark k p).Volatile j x :=
  ⟨h.buffered, h.unbuffered⟩

theorem Wf.persistent_mark (h : c.Wf) (hlive : c.live k p) :
    (c.mark k p).Persistent k (c.buffer p) where
  buffered := by
    intro q hq
    have hqlive := (h.mark hlive).recorded k q hq
    rw [h.unique_place k q p hqlive hlive]
    rfl
  unbuffered := fun hnone =>
    absurd (by simp [Cells.mark]) (hnone p)

theorem Persistent.mark (h : c.Persistent j x) (hwf : c.Wf)
    (hlive : c.live k p) (hj : j ≠ k) : (c.mark k p).Persistent j x where
  buffered := by
    intro q hq
    by_cases hqp : q = p
    · subst hqp
      simp only [Cells.mark, Function.update_self, Option.some.injEq] at hq
      exact absurd hq.symm hj
    · simp only [Cells.mark, Function.update_of_ne hqp] at hq
      exact h.buffered q hq
  unbuffered := by
    intro hnone
    refine h.unbuffered fun q hq => ?_
    by_cases hqp : q = p
    · subst hqp
      exact hj (hwf.unique_key j k q (hwf.recorded j q hq) hlive)
    · refine hnone q ?_
      simp only [Cells.mark, Function.update_of_ne hqp]
      exact hq

variable [DecidableEq κ]

/-! ## Evicting keys -/

def copy (c : Cells κ ν β) (k : κ) (p : ν) : Cells κ ν β :=
  { c with disk := Function.update c.disk k (c.buffer p) }

def release (c : Cells κ ν β) (k : κ) (p : ν) : Cells κ ν β :=
  { c with
    live := fun j q => c.live j q ∧ ¬ (j = k ∧ q = p)
    record := Function.update c.record p none }

/-- A step towards the eviction of a key. -/
inductive Evicts (c c' : Cells κ ν β) : Prop
  | wait (h : c' = c)
  | copy (k : κ) (p : ν) (hlive : c.live k p) (h : c' = c.copy k p)
  | release (k : κ) (p : ν) (hlive : c.live k p)
      (hdisk : c.disk k = c.buffer p) (h : c' = c.release k p)

theorem Wf.evicts (h : c.Wf) (hstep : Evicts c c') : c'.Wf := by
  cases hstep with
  | wait heq => exact heq ▸ h
  | copy k p hlive heq =>
      subst heq
      exact ⟨⟨h.unique_place, h.unique_key⟩, h.recorded⟩
  | release k p hlive hdisk heq =>
      subst heq
      refine ⟨⟨fun j q q' hq hq' => h.unique_place j q q' hq.1 hq'.1,
        fun i j q hi hj => h.unique_key i j q hi.1 hj.1⟩, ?_⟩
      intro j q hrecord
      by_cases hq : q = p
      · subst hq
        simp [Cells.release] at hrecord
      · simp only [Cells.release, Function.update_of_ne hq] at hrecord
        exact ⟨h.recorded j q hrecord, fun hjq => hq hjq.2⟩

/-- Evictions do not change the contents. -/
theorem Volatile.evicts (h : c.Volatile j x)
    (hstep : Evicts c c') : c'.Volatile j x := by
  cases hstep with
  | wait heq => exact heq ▸ h
  | copy k p hlive heq =>
      subst heq
      refine ⟨h.buffered, fun hnone => ?_⟩
      have hjk : j ≠ k := by
        rintro rfl
        exact hnone p hlive
      rw [← h.unbuffered hnone]
      exact Function.update_of_ne hjk _ c.disk
  | release k p hlive hdisk heq =>
      subst heq
      refine ⟨fun q hq => h.buffered q hq.1, fun hnone => ?_⟩
      by_cases hjk : j = k
      · subst hjk
        exact hdisk.trans (h.buffered p hlive)
      · exact h.unbuffered fun q hq => hnone q ⟨hq, fun hjq => hjk hjq.1⟩

/-- Evictions of recorded keys do not change the contents. -/
theorem Persistent.evicts (h : c.Persistent j x) (hwf : c.Wf)
    (hall : ∀ k p, c.live k p → c.record p = some k)
    (hstep : Evicts c c') : c'.Persistent j x := by
  cases hstep with
  | wait heq => exact heq ▸ h
  | copy k p hlive heq =>
      subst heq
      refine ⟨h.buffered, fun hnone => ?_⟩
      have hjk : j ≠ k := by
        rintro rfl
        exact hnone p (hall j p hlive)
      rw [← h.unbuffered hnone]
      exact Function.update_of_ne hjk _ c.disk
  | release k p hlive hdisk heq =>
      subst heq
      have hrecord : ∀ q, (c.release k p).record q = some j →
          c.record q = some j := by
        intro q hq
        by_cases hqp : q = p
        · subst hqp
          simp [Cells.release] at hq
        · simpa only [Cells.release, Function.update_of_ne hqp] using hq
      refine ⟨fun q hq => h.buffered q (hrecord q hq), fun hnone => ?_⟩
      by_cases hjk : j = k
      · subst hjk
        exact hdisk.trans (h.buffered p (hall j p hlive))
      · refine h.unbuffered fun q hq => ?_
        have hqp : q ≠ p := by
          rintro rfl
          exact hjk (hwf.unique_key j k q (hwf.recorded j q hq) hlive)
        refine hnone q ?_
        simp only [Cells.release, Function.update_of_ne hqp]
        exact hq

/-- Evictions keep every claim recorded. -/
theorem recorded_evicts (hwf : c.Wf)
    (hall : ∀ k p, c.live k p → c.record p = some k)
    (hstep : Evicts c c') : ∀ k p, c'.live k p → c'.record p = some k := by
  cases hstep with
  | wait heq => exact heq ▸ hall
  | copy k p hlive heq => exact heq ▸ hall
  | release k p hlive hdisk heq =>
      subst heq
      rintro j q ⟨hq, hne⟩
      have hqp : q ≠ p := by
        rintro rfl
        exact hne ⟨hwf.unique_key j k q hq hlive, rfl⟩
      simp only [Cells.release, Function.update_of_ne hqp]
      exact hall j q hq

/-! ## One key at a time -/

omit [DecidableEq ν] [DecidableEq κ] in
/-- A key all of whose places are recorded keeps its contents in a crash. -/
theorem Volatile.persistent (h : c.Volatile j x) (hwf : c.Wf)
    (hall : ∀ p, c.live j p → c.record p = some j) : c.Persistent j x where
  buffered := fun p hp => h.buffered p (hwf.recorded j p hp)
  unbuffered := fun hnone =>
    h.unbuffered fun p hp => hnone p (hall p hp)

omit [DecidableEq ν] [DecidableEq κ] in
/-- A disk write does not change the persistent contents of a recorded key. -/
theorem Persistent.write (h : c.Persistent j x) {disk : κ → β}
    (hdisk : (∀ p, c.record p ≠ some j) → disk j = c.disk j) :
    (c.write disk).Persistent j x where
  buffered := h.buffered
  unbuffered := fun hnone => (hdisk hnone).trans (h.unbuffered hnone)

omit [DecidableEq ν] in
theorem Persistent.copy (h : c.Persistent j x)
    (hrecord : c.record p = some k) : (c.copy k p).Persistent j x where
  buffered := h.buffered
  unbuffered := by
    intro hnone
    have hjk : j ≠ k := by
      rintro rfl
      exact hnone p hrecord
    rw [← h.unbuffered hnone]
    exact Function.update_of_ne hjk _ c.disk

omit [DecidableEq κ] in
theorem Persistent.release (h : c.Persistent j x)
    (hrecord : c.record p = some k) (hdisk : c.disk k = c.buffer p) :
    (c.release k p).Persistent j x where
  buffered := by
    intro q hq
    refine h.buffered q ?_
    by_cases hqp : q = p
    · subst hqp
      simp [Cells.release] at hq
    · simpa only [Cells.release, Function.update_of_ne hqp] using hq
  unbuffered := by
    intro hnone
    by_cases hjk : j = k
    · subst hjk
      exact hdisk.trans (h.buffered p hrecord)
    · refine h.unbuffered fun q hq => ?_
      have hqp : q ≠ p := by
        rintro rfl
        exact hjk (Option.some.inj (hq.symm.trans hrecord))
      refine hnone q ?_
      simp only [Cells.release, Function.update_of_ne hqp]
      exact hq

end Cells

end Uhs.Support
