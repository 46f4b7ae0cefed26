import Uhs.Queue.LockFree

/-!
# Runs of the lock-free operations

A counter that is advanced while the length computed before still fits hands
its party elements of its own.  From then on each copy stays within them, and
no element is overwritten, read too early, lost or delivered twice.
-/

namespace Uhs

open Support

namespace LockFree

variable {α ι κ : Type*} {s : LockFree α ι κ} {k : ℕ}

/-! ## Steps -/

section Producers

variable [DecidableEq ι]

/-- A property of all producers after one has moved. -/
theorem forall_setProducer {p : ι} {pc : EnqueuePc α}
    {P : EnqueuePc α → Prop} (hself : P pc)
    (hothers : ∀ p', P (s.producers p')) (p' : ι) :
    P ((s.setProducer p pc).producers p') := by
  by_cases hp : p' = p
  · rwa [hp, setProducer_self]
  · rw [setProducer_of_ne s hp]
    exact hothers p'

/-- Elements of different producers stay different when one of them has fewer
or new ones. -/
theorem announced_setProducer (h : Inv k s) {p : ι} {pc : EnqueuePc α}
    (hpc : ∀ q ∈ pc.pending,
      q ∈ (s.producers p).pending ∨ s.enqueued.length ≤ q) (p₁ p₂ : ι) (q : ℕ)
    (h₁ : q ∈ ((s.setProducer p pc).producers p₁).pending)
    (h₂ : q ∈ ((s.setProducer p pc).producers p₂).pending) : p₁ = p₂ := by
  have hother : ∀ p', q ∈ pc.pending → q ∈ (s.producers p').pending →
      p' = p := by
    intro p' hq hq'
    rcases hpc q hq with hold | hnew
    · exact h.announced p' p q hq' hold
    · exact absurd ((h.producers p').pending hq').2 (Nat.not_lt.mpr hnew)
  by_cases hp₁ : p₁ = p
  · rw [hp₁, setProducer_self] at h₁
    by_cases hp₂ : p₂ = p
    · rw [hp₁, hp₂]
    · rw [setProducer_of_ne s hp₂] at h₂
      rw [hp₁, hother p₂ h₁ h₂]
  · rw [setProducer_of_ne s hp₁] at h₁
    by_cases hp₂ : p₂ = p
    · rw [hp₂, setProducer_self] at h₂
      rw [hp₂, hother p₁ h₂ h₁]
    · rw [setProducer_of_ne s hp₂] at h₂
      exact h.announced p₁ p₂ q h₁ h₂

/-- A producer that advances `in` holds the slots that it takes. -/
theorem held_casIn {p : ι} {src : ℕ → α} {len seen : UInt32}
    (hpc : s.producers p = .cas src len seen) :
    ({ s.setProducer p (.copy src len seen s.enqueued.length 0) with
      inCount := seen + len
      enqueued := s.enqueued ++ (List.range len.toNat).map src }).held =
      s.held := by
  have hlength : (s.enqueued ++ (List.range len.toNat).map src).length =
      s.enqueued.length + len.toNat := by simp
  have hpending : ∀ q ∈ (EnqueuePc.copy src len seen s.enqueued.length
      0).pending, s.enqueued.length ≤ q := fun q hq => hq.1
  ext q
  constructor
  · rintro (⟨hle, hlt, hnot⟩ | hout)
    · left
      have hself := hnot p
      rw [setProducer_self] at hself
      have hold : q < s.enqueued.length := by
        by_contra hge
        apply hself
        rw [hlength] at hlt
        exact ⟨by omega, hlt⟩
      refine ⟨hle, hold, fun p' => ?_⟩
      by_cases hp : p' = p
      · rw [hp, hpc]
        exact Set.notMem_empty q
      · have hother := hnot p'
        rwa [setProducer_of_ne s hp] at hother
    · exact Or.inr hout
  · rintro (⟨hle, hlt, hnot⟩ | hout)
    · refine Or.inl ⟨hle, by rw [hlength]; omega, ?_⟩
      exact forall_setProducer (P := fun pc => q ∉ pc.pending)
        (fun hq => by have := hpending q hq; omega) hnot
    · exact Or.inr hout

namespace Inv

/-- A producer advances `in` where its elements still fit. -/
theorem casIn (h : Inv k s) (hk : k ≤ 31) {p : ι} {src : ℕ → α}
    {len seen : UInt32} (hpc : s.producers p = .cas src len seen)
    (hseen : s.inCount = seen)
    (hfit : len.toNat ≤ (mixQueueUnused s.mask s.inCount s.outCount).toNat)
    (hreads : ∀ i < len.toNat, ∀ c,
      ¬ (s.consumers c).Reads s.mask (slotOf s.mask s.inCount i)) :
    Inv k { s.setProducer p (.copy src len seen s.enqueued.length 0) with
      inCount := seen + len
      enqueued := s.enqueued ++ (List.range len.toNat).map src } := by
  have htaken := h.taken_le
  have hfull := h.full
  rw [h.inCount, h.outCount, toNat_mixQueueUnused h.mask hk htaken hfull]
    at hfit
  have hlength : (s.enqueued ++ (List.range len.toNat).map src).length =
      s.enqueued.length + len.toNat := by simp
  have hprefix := List.prefix_append s.enqueued
    ((List.range len.toNat).map src)
  have hpending : ∀ q ∈ (EnqueuePc.copy src len seen s.enqueued.length
      0).pending, s.enqueued.length ≤ q := fun q hq => hq.1
  -- nobody reads the slots of the new elements
  have hwindow : ∀ c, ∀ q ∈ (s.consumers c).pending,
      s.enqueued.length + len.toNat ≤ q + 2 ^ k := by
    intro c q hq
    by_contra hlt
    have hle := ((h.consumers c).pending hq).2
    apply hreads (q + 2 ^ k - s.enqueued.length) (by omega) c
    rw [h.inCount, slotOf_ofNat h.mask hk,
      Nat.add_sub_cancel' hle, Nat.add_mod_right]
    exact h.reads_of_pending hk hq
  have hok : (EnqueuePc.copy src len seen s.enqueued.length 0).Ok
      (s.enqueued ++ (List.range len.toNat).map src) s.taken := by
    refine ⟨by rw [← hseen, h.inCount], Nat.zero_le _,
      fun q hq hlt => ⟨by omega, ?_⟩⟩
    rw [List.getElem?_append_right (by omega), List.getElem?_map,
      List.getElem?_range (by omega)]
    rfl
  exact
    { h with
      inCount := by
        rw [← hseen, h.inCount, hlength, ← ofNat_add_ofNat,
          UInt32.ofNat_toNat]
      taken_le := by
        rw [hlength]
        exact htaken.trans (Nat.le_add_right _ _)
      full := by
        show (s.enqueued ++ _).length ≤ s.taken + 2 ^ k
        rw [hlength]
        omega
      producers := forall_setProducer hok fun p' =>
        (h.producers p').mono hprefix
          fun q hq => ((h.producers p').pending hq).1
      consumers := by
        intro c
        apply (h.consumers c).mono (Nat.le_refl _)
        rw [hlength]
        exact hwindow c
      announced := announced_setProducer h fun q hq =>
        Or.inr (hpending q hq)
      ring := by
        rw [held_casIn hpc]
        apply h.ring.extend hprefix
        · rw [hlength]
          rintro q (⟨hle, -, -⟩ | ⟨c, hq⟩)
          · omega
          · exact hwindow c q hq
        · rw [hlength]
          exact Nat.le_add_right _ _
      delivered := by
        intro d hd
        obtain ⟨hlt, hsome, hnot⟩ := h.delivered d hd
        refine ⟨hlt, ?_, hnot⟩
        rwa [List.getElem?_append_left (by omega)] }

/-- A producer copies one element. -/
theorem copyIn (h : Inv k s) (hk : k ≤ 31) {p : ι} {src : ℕ → α}
    {len first : UInt32} {start i : ℕ}
    (hpc : s.producers p = .copy src len first start i)
    (hi : i < len.toNat) :
    Inv k { s.setProducer p (.copy src len first start (i + 1)) with
      ring := s.ring.put (slotOf s.mask first i) (src i) } := by
  have hok := h.producers p
  rw [hpc] at hok
  have hmem : start + i ∈ (s.producers p).pending := by
    rw [hpc]
    exact ⟨Nat.le_refl _, by omega⟩
  have hpending : ∀ q, q ∈ (EnqueuePc.copy src len first start
      (i + 1)).pending ↔ q ∈ (s.producers p).pending ∧ q ≠ start + i := by
    intro q
    rw [hpc]
    simp only [EnqueuePc.pending, Set.mem_Ico]
    omega
  obtain ⟨htaken, hlt⟩ := (h.producers p).pending hmem
  have hfull := h.full
  have hheld : ({ s.setProducer p (.copy src len first start (i + 1)) with
      ring := s.ring.put (slotOf s.mask first i) (src i) }).held =
      insert (start + i) s.held := by
    ext q
    constructor
    · rintro (⟨hle, hlt, hnot⟩ | hout)
      · by_cases hq : q = start + i
        · exact Or.inl hq
        · refine Or.inr (Or.inl ⟨hle, hlt, fun p' hp' => ?_⟩)
          by_cases hp : p' = p
          · have hself := hnot p
            rw [setProducer_self, hpending] at hself
            exact hself ⟨hp ▸ hp', hq⟩
          · have hother := hnot p'
            rw [setProducer_of_ne s hp] at hother
            exact hother hp'
      · exact Or.inr (Or.inr hout)
    · rintro (rfl | ⟨hle, hlt, hnot⟩ | hout)
      · refine Or.inl ⟨htaken, hlt, fun p' hp' => ?_⟩
        by_cases hp : p' = p
        · rw [hp, setProducer_self, hpending] at hp'
          exact hp'.2 rfl
        · rw [setProducer_of_ne s hp] at hp'
          exact hp (h.announced p' p _ hp' hmem)
      · refine Or.inl ⟨hle, hlt, ?_⟩
        exact forall_setProducer (P := fun pc => q ∉ pc.pending)
          (fun hq => hnot p ((hpending q).mp hq).1) hnot
      · exact Or.inr hout
  exact
    { h with
      producers := by
        refine forall_setProducer ⟨hok.1, hi, fun q hq hlt => ?_⟩ h.producers
        exact hok.2.2 q (by omega) hlt
      announced := announced_setProducer h fun q hq =>
        Or.inl ((hpending q).mp hq).1
      ring := by
        rw [hheld, hok.1, slotOf_ofNat h.mask hk]
        apply h.ring.put hlt (by omega) (h.not_held hmem)
        have hsome := (hok.2.2 (start + i) (Nat.le_refl _) (by omega)).2
        rwa [Nat.add_sub_cancel_left] at hsome }

/-- A producer that neither starts nor continues a copy. -/
theorem setProducer (h : Inv k s) {p : ι} {pc : EnqueuePc α}
    (hold : (s.producers p).pending = ∅) (hnew : pc.pending = ∅)
    (hok : pc.Ok s.enqueued s.taken) : Inv k (s.setProducer p pc) := by
  have hpending : ∀ p', ((s.setProducer p pc).producers p').pending =
      (s.producers p').pending := by
    intro p'
    by_cases hp : p' = p
    · rw [hp, setProducer_self, hnew, hold]
    · rw [setProducer_of_ne s hp]
  exact
    { h with
      producers := forall_setProducer hok h.producers
      announced := announced_setProducer h fun q hq =>
        absurd (hnew ▸ hq) (Set.notMem_empty q)
      ring := by
        have hheld : (s.setProducer p pc).held = s.held := by
          simp only [held, hpending]
          rfl
        rw [hheld]
        exact h.ring }

end Inv

end Producers

section Consumers

variable [DecidableEq κ]

/-- A property of all consumers after one has moved. -/
theorem forall_setConsumer {c : κ} {pc : DequeuePc} {P : DequeuePc → Prop}
    (hself : P pc) (hothers : ∀ c', P (s.consumers c')) (c' : κ) :
    P ((s.setConsumer c pc).consumers c') := by
  by_cases hc : c' = c
  · rwa [hc, setConsumer_self]
  · rw [setConsumer_of_ne s hc]
    exact hothers c'

/-- Elements of different consumers stay different when one of them has fewer
or new ones. -/
theorem reserved_setConsumer (h : Inv k s) {c : κ} {pc : DequeuePc}
    (hpc : ∀ q ∈ pc.pending, q ∈ (s.consumers c).pending ∨ s.taken ≤ q)
    (c₁ c₂ : κ) (q : ℕ)
    (h₁ : q ∈ ((s.setConsumer c pc).consumers c₁).pending)
    (h₂ : q ∈ ((s.setConsumer c pc).consumers c₂).pending) : c₁ = c₂ := by
  have hother : ∀ c', q ∈ pc.pending → q ∈ (s.consumers c').pending →
      c' = c := by
    intro c' hq hq'
    rcases hpc q hq with hold | hnew
    · exact h.reserved c' c q hq' hold
    · exact absurd ((h.consumers c').pending hq').1 (Nat.not_lt.mpr hnew)
  by_cases hc₁ : c₁ = c
  · rw [hc₁, setConsumer_self] at h₁
    by_cases hc₂ : c₂ = c
    · rw [hc₁, hc₂]
    · rw [setConsumer_of_ne s hc₂] at h₂
      rw [hc₁, hother c₂ h₁ h₂]
  · rw [setConsumer_of_ne s hc₁] at h₁
    by_cases hc₂ : c₂ = c
    · rw [hc₂, setConsumer_self] at h₂
      rw [hc₂, hother c₁ h₂ h₁]
    · rw [setConsumer_of_ne s hc₂] at h₂
      exact h.reserved c₁ c₂ q h₁ h₂

/-- A consumer that advances `out` holds the slots that it takes. -/
theorem held_casOut {c : κ} {len seen : UInt32}
    (hpc : s.consumers c = .cas len seen)
    (hle : s.taken + len.toNat ≤ s.enqueued.length)
    (hwritten : ∀ p, ∀ q ∈ (s.producers p).pending,
      s.taken + len.toNat ≤ q) :
    ({ s.setConsumer c (.copy len seen s.taken 0) with
      outCount := seen + len
      taken := s.taken + len.toNat }).held = s.held := by
  have hpending : ∀ q, q ∈ (DequeuePc.copy len seen s.taken 0).pending ↔
      s.taken ≤ q ∧ q < s.taken + len.toNat := fun q => Iff.rfl
  ext q
  constructor
  · rintro (⟨hle, hlt, hnot⟩ | ⟨c', hq⟩)
    · exact Or.inl ⟨(Nat.le_add_right _ _).trans hle, hlt, hnot⟩
    · by_cases hc : c' = c
      · rw [hc, setConsumer_self, hpending] at hq
        refine Or.inl ⟨hq.1, by omega, fun p hp => ?_⟩
        have hle := hwritten p q hp
        omega
      · rw [setConsumer_of_ne s hc] at hq
        exact Or.inr ⟨c', hq⟩
  · rintro (⟨hle, hlt, hnot⟩ | ⟨c', hq⟩)
    · by_cases hnew : q < s.taken + len.toNat
      · refine Or.inr ⟨c, ?_⟩
        rw [setConsumer_self, hpending]
        exact ⟨hle, hnew⟩
      · exact Or.inl ⟨Nat.not_lt.mp hnew, hlt, hnot⟩
    · have hc : c' ≠ c := by
        rintro rfl
        rw [hpc] at hq
        exact Set.notMem_empty q hq
      refine Or.inr ⟨c', ?_⟩
      rwa [setConsumer_of_ne s hc]

namespace Inv

/-- A consumer advances `out` where its elements are still there. -/
theorem casOut (h : Inv k s) (hk : k ≤ 31) {c : κ} {len seen : UInt32}
    (hpc : s.consumers c = .cas len seen) (hseen : s.outCount = seen)
    (hfit : len.toNat ≤ (s.inCount - s.outCount).toNat)
    (hwrites : ∀ i < len.toNat, ∀ p,
      ¬ (s.producers p).Writes s.mask (slotOf s.mask s.outCount i)) :
    Inv k { s.setConsumer c (.copy len seen s.taken 0) with
      outCount := seen + len
      taken := s.taken + len.toNat } := by
  have htaken := h.taken_le
  have hfull := h.full
  rw [h.toNat_used hk] at hfit
  have hpending : ∀ q, q ∈ (DequeuePc.copy len seen s.taken 0).pending ↔
      s.taken ≤ q ∧ q < s.taken + len.toNat := fun q => Iff.rfl
  have hnone : (s.consumers c).pending = ∅ := by
    rw [hpc]
    rfl
  -- nobody writes the slots of the elements taken
  have hwritten : ∀ p, ∀ q ∈ (s.producers p).pending,
      s.taken + len.toNat ≤ q := by
    intro p q hq
    by_contra hlt
    have hle := ((h.producers p).pending hq).1
    apply hwrites (q - s.taken) (by omega) p
    rw [h.outCount, slotOf_ofNat h.mask hk, Nat.add_sub_cancel' hle]
    exact h.writes_of_pending hk hq
  have hok : (DequeuePc.copy len seen s.taken 0).Ok k s.enqueued.length
      (s.taken + len.toNat) :=
    ⟨by rw [← hseen, h.outCount], Nat.zero_le _,
      fun q hq hlt => ⟨hlt, by omega⟩⟩
  exact
    { h with
      outCount := by
        rw [← hseen, h.outCount, ← ofNat_add_ofNat, UInt32.ofNat_toNat]
      taken_le := by
        show s.taken + len.toNat ≤ s.enqueued.length
        omega
      full := by
        show s.enqueued.length ≤ s.taken + len.toNat + 2 ^ k
        omega
      producers := fun p =>
        (h.producers p).mono List.prefix_rfl (hwritten p)
      consumers := forall_setConsumer hok fun c' =>
        (h.consumers c').mono (Nat.le_add_right _ _)
          fun q hq => ((h.consumers c').pending hq).2
      reserved := reserved_setConsumer h fun q hq =>
        Or.inr ((hpending q).mp hq).1
      ring := by
        rw [held_casOut hpc (by omega) hwritten]
        exact h.ring
      delivered := by
        intro d hd
        obtain ⟨hlt, hsome, hnot⟩ := h.delivered d hd
        refine ⟨hlt.trans_le (Nat.le_add_right _ _), hsome, ?_⟩
        exact forall_setConsumer (P := fun pc => d.1 ∉ pc.pending)
          (fun hq => Nat.not_lt.mpr ((hpending _).mp hq).1 hlt) hnot
      notLost := by
        intro q hq
        by_cases hold : q < s.taken
        · rcases h.notLost q hold with hdone | ⟨c', hc'⟩
          · exact Or.inl hdone
          · have hc : c' ≠ c := by
              rintro rfl
              rw [hnone] at hc'
              exact Set.notMem_empty q hc'
            refine Or.inr ⟨c', ?_⟩
            rwa [setConsumer_of_ne s hc]
        · refine Or.inr ⟨c, ?_⟩
          rw [setConsumer_self, hpending]
          exact ⟨Nat.not_lt.mp hold, hq⟩ }

/-- A consumer copies one element. -/
theorem copyOut (h : Inv k s) (hk : k ≤ 31) {c : κ} {len first : UInt32}
    {start i : ℕ} (hpc : s.consumers c = .copy len first start i)
    (hi : i < len.toNat) :
    Inv k { s.setConsumer c (.copy len first start (i + 1)) with
      ring := s.ring.take (slotOf s.mask first i)
      delivered := s.delivered ++
        [(start + i, s.ring.cell (slotOf s.mask first i))] } := by
  have hok := h.consumers c
  rw [hpc] at hok
  have hmem : start + i ∈ (s.consumers c).pending := by
    rw [hpc]
    exact ⟨Nat.le_refl _, by omega⟩
  have hpending : ∀ q, q ∈ (DequeuePc.copy len first start
      (i + 1)).pending ↔ q ∈ (s.consumers c).pending ∧ q ≠ start + i := by
    intro q
    rw [hpc]
    simp only [DequeuePc.pending, Set.mem_Ico]
    omega
  have hslot : slotOf s.mask first i = (start + i) % 2 ^ k := by
    rw [hok.1, slotOf_ofNat h.mask hk]
  have hheldmem : start + i ∈ s.held := Or.inr ⟨c, hmem⟩
  obtain ⟨hlt, hcount⟩ := (h.consumers c).pending hmem
  -- the elements of the other copies, and of this one after the step
  have hrest : ∀ c' q, q ∈ ((s.setConsumer c
      (.copy len first start (i + 1))).consumers c').pending ↔
      q ∈ (s.consumers c').pending ∧ q ≠ start + i := by
    intro c' q
    by_cases hc : c' = c
    · rw [hc, setConsumer_self, hpending]
    · rw [setConsumer_of_ne s hc]
      refine ⟨fun hq => ⟨hq, ?_⟩, And.left⟩
      rintro rfl
      exact hc (h.reserved c' c _ hq hmem)
  have hheld : ({ s.setConsumer c (.copy len first start (i + 1)) with
      ring := s.ring.take (slotOf s.mask first i)
      delivered := s.delivered ++
        [(start + i, s.ring.cell (slotOf s.mask first i))] }).held =
      s.held \ {start + i} := by
    ext q
    constructor
    · rintro (⟨hle, hlt', hnot⟩ | ⟨c', hq⟩)
      · refine ⟨Or.inl ⟨hle, hlt', hnot⟩, ?_⟩
        rintro rfl
        exact Nat.not_lt.mpr hle hlt
      · rw [hrest] at hq
        exact ⟨Or.inr ⟨c', hq.1⟩, hq.2⟩
    · rintro ⟨⟨hle, hlt', hnot⟩ | ⟨c', hq⟩, hne⟩
      · exact Or.inl ⟨hle, hlt', hnot⟩
      · exact Or.inr ⟨c', (hrest c' q).mpr ⟨hq, hne⟩⟩
  exact
    { h with
      consumers := by
        refine forall_setConsumer ⟨hok.1, hi, fun q hq hlt => ?_⟩ h.consumers
        exact hok.2.2 q (by omega) hlt
      reserved := reserved_setConsumer h fun q hq =>
        Or.inl ((hpending q).mp hq).1
      ring := by
        rw [hheld, hslot]
        exact h.ring.take hheldmem
      delivered := by
        intro d hd
        rcases List.mem_append.mp hd with hold | hnew
        · obtain ⟨hltd, hsome, hnot⟩ := h.delivered d hold
          exact ⟨hltd, hsome, fun c' hq => hnot c' ((hrest c' _).mp hq).1⟩
        · rw [List.mem_singleton] at hnew
          subst hnew
          refine ⟨hlt, ?_, fun c' hq => ((hrest c' _).mp hq).2 rfl⟩
          rw [hslot]
          exact h.ring.cell _ hheldmem
      once := by
        rw [List.map_append, List.map_singleton]
        refine List.nodup_append.mpr ⟨h.once, List.nodup_singleton _, ?_⟩
        rintro q hq q' hq' rfl
        rw [List.mem_singleton] at hq'
        obtain ⟨d, hd, rfl⟩ := List.mem_map.mp hq
        exact (h.delivered d hd).2.2 c (hq' ▸ hmem)
      notLost := by
        intro q hq
        rcases h.notLost q hq with hdone | ⟨c', hc'⟩
        · left
          rw [List.map_append]
          exact List.mem_append_left _ hdone
        · by_cases hself : q = start + i
          · left
            rw [List.map_append, hself]
            exact List.mem_append_right _ List.mem_cons_self
          · exact Or.inr ⟨c', (hrest c' q).mpr ⟨hc', hself⟩⟩ }

/-- A consumer that neither starts nor continues a copy. -/
theorem setConsumer (h : Inv k s) {c : κ} {pc : DequeuePc}
    (hold : (s.consumers c).pending = ∅) (hnew : pc.pending = ∅)
    (hok : pc.Ok k s.enqueued.length s.taken) :
    Inv k (s.setConsumer c pc) := by
  have hpending : ∀ c', ((s.setConsumer c pc).consumers c').pending =
      (s.consumers c').pending := by
    intro c'
    by_cases hc : c' = c
    · rw [hc, setConsumer_self, hnew, hold]
    · rw [setConsumer_of_ne s hc]
  exact
    { h with
      consumers := forall_setConsumer hok h.consumers
      reserved := reserved_setConsumer h fun q hq =>
        absurd (hnew ▸ hq) (Set.notMem_empty q)
      ring := by
        have hheld : (s.setConsumer c pc).held = s.held := by
          simp only [held, hpending]
          rfl
        rw [hheld]
        exact h.ring
      delivered := by
        intro d hd
        obtain ⟨hlt, hsome, hnot⟩ := h.delivered d hd
        refine ⟨hlt, hsome, fun c' => ?_⟩
        rw [hpending]
        exact hnot c'
      notLost := by
        intro q hq
        simp only [hpending]
        exact h.notLost q hq }

end Inv

end Consumers

section Runs

variable [DecidableEq ι] [DecidableEq κ] {s' : LockFree α ι κ}

omit [DecidableEq κ] in
/-- A step of a producer keeps the invariant. -/
theorem Inv.producerStep (h : Inv k s) (hk : k ≤ 31)
    {a : LockFreeStep α ι κ} {p : ι} (hfits : s.Fits a)
    (hp : ∀ p', a = .casIn p' → p' = p)
    (hstep : s.producerStep p a = some s') : Inv k s' := by
  cases a with
  | enqueue p' src len =>
      cases hpc : s.producers p with
      | idle =>
          simp only [LockFree.producerStep, hpc, Option.some.injEq] at hstep
          exact hstep ▸ h.setProducer (by rw [hpc]; rfl) rfl trivial
      | _ => simp only [LockFree.producerStep, hpc, reduceCtorEq] at hstep
  | loadIn p' =>
      cases hpc : s.producers p with
      | load src len =>
          simp only [LockFree.producerStep, hpc, Option.some.injEq] at hstep
          exact hstep ▸ h.setProducer (by rw [hpc]; rfl) rfl trivial
      | _ => simp only [LockFree.producerStep, hpc, reduceCtorEq] at hstep
  | casIn p' =>
      obtain rfl := hp p' rfl
      cases hpc : s.producers p' with
      | cas src len seen =>
          simp only [LockFree.producerStep, hpc] at hstep
          split_ifs at hstep with hseen
          · obtain ⟨hfit, hreads⟩ := hfits len (by
              rw [hpc, EnqueuePc.wins, if_pos hseen]
              rfl)
            exact Option.some.inj hstep ▸
              h.casIn hk hpc hseen hfit hreads
          · exact Option.some.inj hstep ▸
              h.setProducer (by rw [hpc]; rfl) rfl trivial
      | _ => simp only [LockFree.producerStep, hpc, reduceCtorEq] at hstep
  | casInFails p' =>
      cases hpc : s.producers p with
      | cas src len seen =>
          simp only [LockFree.producerStep, hpc, Option.some.injEq] at hstep
          exact hstep ▸ h.setProducer (by rw [hpc]; rfl) rfl trivial
      | _ => simp only [LockFree.producerStep, hpc, reduceCtorEq] at hstep
  | copyIn p' =>
      cases hpc : s.producers p with
      | copy src len first start i =>
          simp only [LockFree.producerStep, hpc] at hstep
          split_ifs at hstep with hi
          exact Option.some.inj hstep ▸ h.copyIn hk hpc hi
      | _ => simp only [LockFree.producerStep, hpc, reduceCtorEq] at hstep
  | returnIn p' =>
      cases hpc : s.producers p with
      | copy src len first start i =>
          simp only [LockFree.producerStep, hpc] at hstep
          split_ifs at hstep with hi
          refine Option.some.inj hstep ▸ h.setProducer ?_ rfl trivial
          rw [hpc]
          exact Set.Ico_eq_empty (by omega)
      | _ => simp only [LockFree.producerStep, hpc, reduceCtorEq] at hstep
  | _ => simp only [LockFree.producerStep, reduceCtorEq] at hstep

omit [DecidableEq ι] in
/-- A step of a consumer keeps the invariant. -/
theorem Inv.consumerStep (h : Inv k s) (hk : k ≤ 31)
    {a : LockFreeStep α ι κ} {c : κ} (hfits : s.Fits a)
    (hc : ∀ c', a = .casOut c' → c' = c)
    (hstep : s.consumerStep c a = some s') : Inv k s' := by
  cases a with
  | dequeue c' len =>
      cases hpc : s.consumers c with
      | idle =>
          simp only [LockFree.consumerStep, hpc] at hstep
          split_ifs at hstep with hl
          · exact Option.some.inj hstep ▸ h
          · exact Option.some.inj hstep ▸
              h.setConsumer (by rw [hpc]; rfl) rfl trivial
      | _ => simp only [LockFree.consumerStep, hpc, reduceCtorEq] at hstep
  | loadOut c' =>
      cases hpc : s.consumers c with
      | load len =>
          simp only [LockFree.consumerStep, hpc, Option.some.injEq] at hstep
          exact hstep ▸ h.setConsumer (by rw [hpc]; rfl) rfl trivial
      | _ => simp only [LockFree.consumerStep, hpc, reduceCtorEq] at hstep
  | casOut c' =>
      obtain rfl := hc c' rfl
      cases hpc : s.consumers c' with
      | cas len seen =>
          simp only [LockFree.consumerStep, hpc] at hstep
          split_ifs at hstep with hseen
          · obtain ⟨hfit, hwrites⟩ := hfits len (by
              rw [hpc, DequeuePc.wins, if_pos hseen]
              rfl)
            exact Option.some.inj hstep ▸
              h.casOut hk hpc hseen hfit hwrites
          · exact Option.some.inj hstep ▸
              h.setConsumer (by rw [hpc]; rfl) rfl trivial
      | _ => simp only [LockFree.consumerStep, hpc, reduceCtorEq] at hstep
  | casOutFails c' =>
      cases hpc : s.consumers c with
      | cas len seen =>
          simp only [LockFree.consumerStep, hpc, Option.some.injEq] at hstep
          exact hstep ▸ h.setConsumer (by rw [hpc]; rfl) rfl trivial
      | _ => simp only [LockFree.consumerStep, hpc, reduceCtorEq] at hstep
  | copyOut c' =>
      cases hpc : s.consumers c with
      | copy len first start i =>
          simp only [LockFree.consumerStep, hpc] at hstep
          split_ifs at hstep with hi
          exact Option.some.inj hstep ▸ h.copyOut hk hpc hi
      | _ => simp only [LockFree.consumerStep, hpc, reduceCtorEq] at hstep
  | returnOut c' =>
      cases hpc : s.consumers c with
      | copy len first start i =>
          simp only [LockFree.consumerStep, hpc] at hstep
          split_ifs at hstep with hi
          refine Option.some.inj hstep ▸ h.setConsumer ?_ rfl trivial
          rw [hpc]
          exact Set.Ico_eq_empty (by omega)
      | _ => simp only [LockFree.consumerStep, hpc, reduceCtorEq] at hstep
  | _ => simp only [LockFree.consumerStep, reduceCtorEq] at hstep

/-- Every step that advances a counter where its elements fit keeps the
invariant. -/
theorem Inv.step (h : Inv k s) (hk : k ≤ 31) {a : LockFreeStep α ι κ}
    (hfits : s.Fits a) (hstep : s.step a = some s') : Inv k s' := by
  cases a with
  | enqueue p | loadIn p | casIn p | casInFails p | copyIn p | returnIn p =>
      exact h.producerStep hk hfits
        (fun p' hp' => by first | (cases hp'; rfl) | cases hp') hstep
  | dequeue c | loadOut c | casOut c | casOutFails c | copyOut c
  | returnOut c =>
      exact h.consumerStep hk hfits
        (fun c' hc' => by first | (cases hc'; rfl) | cases hc') hstep

/-- In every interleaving of producers and consumers in which the counters
are only advanced where the elements still fit, no copy meets another one and
every element is delivered once. -/
theorem safe_allStates_of_fits (hk : k ≤ 31) {mask : UInt32}
    (hmask : mask.toNat = 2 ^ k - 1) (cell : ℕ → α)
    (steps : List (LockFreeStep α ι κ))
    (hsteps : AllSteps step Fits (new mask cell) steps) :
    AllStates step Safe (new mask cell) steps :=
  (allStates_of_allSteps (fun _ _ _ hinv hfits => hinv.step hk hfits)
    (new_inv hmask cell) hsteps).mono fun _ hinv => hinv.safe hk

/-- Two producers and two consumers.  Producer `1` and consumer `0` lose their
first compare-and-swap, and producer `0` adds an element while the consumers
copy. -/
def contended : List (LockFreeStep ℕ (Fin 2) (Fin 2)) :=
  [.enqueue 0 (fun _ => 7) 1, .enqueue 1 (fun i => 8 + i) 2, .loadIn 0,
    .loadIn 1, .casIn 0, .casIn 1, .loadIn 1, .copyIn 0, .casIn 1, .copyIn 1,
    .returnIn 0, .copyIn 1, .returnIn 1, .dequeue 0 2, .dequeue 1 1,
    .loadOut 0, .loadOut 1, .casOut 1, .casOut 0, .enqueue 0 (fun _ => 5) 1,
    .loadOut 0, .loadIn 0, .casOut 0, .casIn 0, .copyOut 0, .copyIn 0,
    .copyOut 1, .copyOut 0, .returnIn 0, .returnOut 1, .returnOut 0]

theorem safe_allStates_of_fits_example :
    AllStates step Safe (new 3 fun i => i : LockFree ℕ (Fin 2) (Fin 2))
        contended ∧
      (runOps step (new 3 fun i => i : LockFree ℕ (Fin 2) (Fin 2))
        contended).map delivered = some [(1, 8), (0, 7), (2, 9)] :=
  ⟨safe_allStates_of_fits (by decide : 2 ≤ 31) (by decide) _ _
    (by decide +kernel), by decide +kernel⟩

/-- Two producers that have both found two free slots. -/
def overrun : List (LockFreeStep ℕ (Fin 2) Unit) :=
  [.enqueue 0 (fun _ => 7) 2, .enqueue 1 (fun _ => 8) 2, .loadIn 0, .casIn 0,
    .loadIn 1, .casIn 1]

/-- Both advance `in`, and four elements are announced in two slots. -/
theorem safe_allStates_fails :
    ¬ AllStates step Safe (new 1 fun i => i : LockFree ℕ (Fin 2) Unit)
      overrun := by
  intro hall
  have hnew : Safe (new 1 fun i => i : LockFree ℕ (Fin 2) Unit) :=
    (new_inv (k := 1) (by decide) _).safe (by decide)
  have hsafe := hall.of_runOps hnew rfl
  exact absurd hsafe.capacity (by decide)

end Runs

end LockFree

end Uhs
