import Uhs.Segment.Prefix

/-!
# The capacity of a segment

The number of slots is kept as `per_block_num`, against which the full test
compares, and as the bytes of the bitmap, of which `mix_bitmap_init` keeps an
eighth.  The allocator cycles through `8 * (per_block_num / 8)` slots: a
segment gives all its slots only when `per_block_num` is a multiple of 8, and
then to blocks that differ in their 32-bit keys.
-/

namespace Uhs

open Support

variable {σ β : Type*} [BlockDevice σ β]

/-- The slot that a redirected write of an unmapped block obtains from the
allocator; `none` when there is no such slot or a call does not return. -/
def obtainSlot (s : Store σ β) (task : IoTask β) (idx : Fin 4) :
    Option (ℕ × Store σ β) :=
  if mixBufferBlockTest s.metaData task.offset idx = -1 then
    (mixGetNextFreeBlock s.metaData idx).bind fun (offset, _) =>
      if offset = -1 then none
      else (redirectWrite s task idx).map fun (_, s) => (offset.toNat, s)
  else
    none

/-- The slots obtained by writes one after the other. -/
def obtainSlots (idx : Fin 4) :
    List (IoTask β) → Store σ β → Option (List ℕ × Store σ β)
  | [], s => some ([], s)
  | task :: tasks, s =>
      (obtainSlot s task idx).bind fun (slot, s) =>
        (obtainSlots idx tasks s).map fun (slots, s) => (slot :: slots, s)

/-- The writes obtain different slots of the segment, after which it is
full. -/
def FullCapacity (idx : Fin 4) (s : Store σ β) (tasks : List (IoTask β)) :
    Prop :=
  ∃ slots s', obtainSlots idx tasks s = some (slots, s') ∧ slots.Nodup ∧
    (∀ slot ∈ slots, slot < s.metaData.perBlockNum) ∧
    mixGetNextFreeBlock s'.metaData idx = some (-1, s'.metaData)

variable {idx : Fin 4} {s s' : Store σ β} {task : IoTask β}
  {tasks : List (IoTask β)} {slot n : ℕ}

/-! ## One write, whatever the size of the bitmap -/

theorem mixWriteRedirectBlockmeta_ready {m m' : MixMetadata} {lba : ℕ}
    {value : ℤ} (hready : (m.segments idx).bitmap.Ready n)
    (h : mixWriteRedirectBlockmeta m idx lba value = some m') :
    (m'.segments idx).bitmap.Ready n ∧ m'.perBlockNum = m.perBlockNum := by
  have hset : ∀ bit, (mixBitmapSetBit (m.segments idx).bitmap bit).2.Ready n :=
    fun _ => ⟨hready.bits_eq, hready.one_lt, hready.nextBit_lt⟩
  rw [mixWriteRedirectBlockmeta] at h
  dsimp only at h
  by_cases hold :
      (!(mixBitmapSetBit (m.segments idx).bitmap (guardBit idx value)).1) = true
  · rw [if_pos hold, Option.some.injEq] at h
    subst h
    refine ⟨?_, rfl⟩
    rw [MixMetadata.setBitmap_self]
    exact hset _
  · rw [if_neg hold] at h
    obtain ⟨hash, -, rfl⟩ := Option.map_eq_some_iff.mp h
    refine ⟨?_, rfl⟩
    rw [MixMetadata.addUsed_self, MixMetadata.setHash_segments,
      MixMetadata.setBitmap_self]
    exact hset _

/-- What a write that obtains a slot has called. -/
theorem obtainSlot_cases (h : obtainSlot s task idx = some (slot, s')) :
    mixBufferBlockTest s.metaData task.offset idx = -1 ∧
      ¬ IsFull idx s.metaData ∧
      ∃ offset bitmap m,
        mixBitmapNextZeroBit (s.metaData.segments idx).bitmap =
            some (offset, bitmap) ∧
          slot = offset.toNat ∧ offset ≠ -1 ∧
          mixWriteRedirectBlockmeta (s.metaData.setBitmap idx bitmap) idx
            task.offset offset = some m ∧ s'.metaData = m := by
  rw [obtainSlot] at h
  by_cases hmiss : mixBufferBlockTest s.metaData task.offset idx = -1
  swap
  · simp [hmiss] at h
  rw [if_pos hmiss] at h
  refine ⟨hmiss, ?_⟩
  by_cases hfull : IsFull idx s.metaData
  · simp [mixGetNextFreeBlock_of_full hfull] at h
  refine ⟨hfull, ?_⟩
  unfold IsFull at hfull
  simp only [mixGetNextFreeBlock, if_neg hfull, Option.bind_eq_some_iff,
    Option.map_eq_some_iff] at h
  obtain ⟨⟨offset, m⟩, ⟨⟨offset', bitmap⟩, hnext, heq⟩, h⟩ := h
  simp only [Prod.mk.injEq] at heq
  obtain ⟨rfl, rfl⟩ := heq
  by_cases hoffset : offset' = -1
  · simp [hoffset] at h
  rw [if_neg hoffset] at h
  simp only [redirectWrite, redirectSlot, hmiss, if_true, mixGetNextFreeBlock,
    if_neg hfull, hnext, Option.map_some, Option.bind_some, if_neg hoffset,
    claimSlot, Option.map_map, Option.map_eq_some_iff] at h
  obtain ⟨m, hwrite, hs'⟩ := h
  simp only [Function.comp_apply, Prod.mk.injEq] at hs'
  obtain ⟨rfl, rfl⟩ := hs'
  exact ⟨offset', bitmap, m, hnext, rfl, hoffset, hwrite, rfl⟩

/-- Every slot is one of those that the bitmap cycles through. -/
theorem obtainSlot_lt (hready : (s.metaData.segments idx).bitmap.Ready n)
    (h : obtainSlot s task idx = some (slot, s')) :
    slot < n ∧ (s'.metaData.segments idx).bitmap.Ready n := by
  obtain ⟨-, -, offset, bitmap, m, hnext, rfl, -, hwrite, rfl⟩ :=
    obtainSlot_cases h
  obtain ⟨b, rfl, hfirst, -, hready', -⟩ :=
    mixBitmapNextZeroBit_spec hready hnext
  refine ⟨hfirst.lt, ?_⟩
  apply (mixWriteRedirectBlockmeta_ready _ hwrite).1
  rw [MixMetadata.setBitmap_self]
  exact hready'

theorem obtainSlots_lt {slots : List ℕ}
    (hready : (s.metaData.segments idx).bitmap.Ready n)
    (h : obtainSlots idx tasks s = some (slots, s')) :
    slots.length = tasks.length ∧ ∀ slot ∈ slots, slot < n := by
  induction tasks generalizing s slots with
  | nil =>
      simp only [obtainSlots, Option.some.injEq, Prod.mk.injEq] at h
      obtain ⟨rfl, -⟩ := h
      simp
  | cons task tasks ih =>
      simp only [obtainSlots, Option.bind_eq_some_iff,
        Option.map_eq_some_iff] at h
      obtain ⟨⟨slot, s₁⟩, hfirst, ⟨rest, s₂⟩, hrest, heq⟩ := h
      simp only [Prod.mk.injEq] at heq
      obtain ⟨rfl, rfl⟩ := heq
      obtain ⟨hlt, hready'⟩ := obtainSlot_lt hready hfirst
      obtain ⟨hlength, hall⟩ := ih hready' hrest
      refine ⟨by simp [hlength], ?_⟩
      intro slot' hslot'
      rcases List.mem_cons.mp hslot' with rfl | hmem
      · exact hlt
      · exact hall slot' hmem

/-- Different slots of a segment that obtains all of them need a bitmap of
their number. -/
theorem FullCapacity.length_le (hfull : FullCapacity idx s tasks)
    (hready : (s.metaData.segments idx).bitmap.Ready n) :
    tasks.length ≤ n := by
  obtain ⟨slots, s', hslots, hnodup, -, -⟩ := hfull
  obtain ⟨hlength, hlt⟩ := obtainSlots_lt hready hslots
  have hsub := hnodup.subperm fun slot hslot =>
    List.mem_range.mpr (hlt slot hslot)
  have hle := hsub.length_le
  rwa [List.length_range, hlength] at hle

/-! ## A segment whose bitmap covers it -/

/-- On a prefix with room left an unmapped block obtains the next slot. -/
theorem PrefixInv.obtainSlot_of_notMem (hinv : PrefixInv idx s.metaData)
    (hkey : lbaKey task.offset ∉ (s.metaData.hash idx).keys)
    (hroom : ¬ IsFull idx s.metaData) :
    ∃ s', obtainSlot s task idx =
        some ((s.metaData.hash idx).entries.length, s') ∧
      PrefixInv idx s'.metaData ∧
      Claimed idx (lbaKey task.offset) (s.metaData.hash idx).entries.length
        s.metaData s'.metaData := by
  have hmiss := hinv.toIndexInv.blockTest_of_notMem hkey
  obtain ⟨choice, slot, htake, hslot, -, -, rfl, -, hclaimed, hinv'⟩ :=
    hinv.takeSlot_spec hroom hkey false
  refine ⟨choice.write task idx, ?_, hinv', hclaimed⟩
  have hredirect := redirectSlot_of_room hinv.toSegmentShape hmiss hroom
  rw [htake] at hredirect
  rw [takeSlot, Option.bind_eq_some_iff] at htake
  obtain ⟨⟨offset, m⟩, hnext, hclaim⟩ := htake
  have hoffset : choice.slot = offset := by
    obtain ⟨m', -, rfl⟩ := Option.map_eq_some_iff.mp hclaim
    rfl
  have hne : ¬ offset = -1 := by omega
  rw [obtainSlot, if_pos hmiss, hnext, Option.bind_some]
  simp only [if_neg hne, redirectWrite, hredirect, Option.map_some]
  rw [← hoffset, hslot, Int.toNat_natCast]

/-- A write that obtains a slot found its block unmapped. -/
theorem PrefixInv.notMem_of_obtainSlot (hinv : PrefixInv idx s.metaData)
    (h : obtainSlot s task idx = some (slot, s')) :
    lbaKey task.offset ∉ (s.metaData.hash idx).keys := by
  intro hkey
  obtain ⟨v, hmem⟩ := MixHash.mem_keys.mp hkey
  have htest := hinv.toIndexInv.blockTest_of_mem hmem
  rw [(obtainSlot_cases h).1] at htest
  omega

/-- Distinct unmapped blocks obtain the next slots, as far as there are
any. -/
theorem PrefixInv.obtainSlots_of_nodup (hinv : PrefixInv idx s.metaData)
    (hnodup : (tasks.map fun task => lbaKey task.offset).Nodup)
    (hnew : ∀ task ∈ tasks,
      lbaKey task.offset ∉ (s.metaData.hash idx).keys)
    (hroom : (s.metaData.hash idx).entries.length + tasks.length ≤
      s.metaData.perBlockNum) :
    ∃ s', obtainSlots idx tasks s =
        some (List.range' (s.metaData.hash idx).entries.length tasks.length,
          s') ∧
      PrefixInv idx s'.metaData ∧
      s'.metaData.perBlockNum = s.metaData.perBlockNum ∧
      (s'.metaData.hash idx).entries.length =
        (s.metaData.hash idx).entries.length + tasks.length := by
  induction tasks generalizing s with
  | nil => exact ⟨s, rfl, hinv, rfl, rfl⟩
  | cons task tasks ih =>
      rw [List.map_cons, List.nodup_cons] at hnodup
      rw [List.length_cons] at hroom
      have hnotFull : ¬ IsFull idx s.metaData := by
        rw [hinv.isFull_iff]
        omega
      obtain ⟨s₁, hfirst, hinv₁, hclaimed⟩ :=
        hinv.obtainSlot_of_notMem (hnew task List.mem_cons_self) hnotFull
      have hlength : (s₁.metaData.hash idx).entries.length =
          (s.metaData.hash idx).entries.length + 1 := by
        rw [hclaimed.entries.length_eq, List.length_cons]
      have hkeys : (s₁.metaData.hash idx).keys.Perm
          (lbaKey task.offset :: (s.metaData.hash idx).keys) :=
        hclaimed.entries.map Prod.fst
      have hper := hclaimed.perBlockNum
      obtain ⟨s', hrest, hinv', hper', hlength'⟩ := ih hinv₁ hnodup.2
        (fun other hother hmem => by
          rcases List.mem_cons.mp (hkeys.mem_iff.mp hmem) with heq | hmem
          · exact hnodup.1 (heq ▸ List.mem_map_of_mem hother)
          · exact hnew other (List.mem_cons_of_mem task hother) hmem)
        (by omega)
      refine ⟨s', ?_, hinv', hper'.trans hper, ?_⟩
      · rw [obtainSlots, hfirst, Option.bind_some]
        dsimp only
        rw [hrest, Option.map_some, hlength, List.length_cons,
          List.range'_succ]
      · rw [hlength', hlength, List.length_cons]
        omega

/-- Blocks that obtain slots one after the other have different keys. -/
theorem PrefixInv.nodup_of_obtainSlots {slots : List ℕ}
    (hinv : PrefixInv idx s.metaData)
    (h : obtainSlots idx tasks s = some (slots, s')) :
    (tasks.map fun task => lbaKey task.offset).Nodup ∧
      ∀ task ∈ tasks, lbaKey task.offset ∉ (s.metaData.hash idx).keys := by
  induction tasks generalizing s s' slots with
  | nil => simp
  | cons task tasks ih =>
      simp only [obtainSlots, Option.bind_eq_some_iff,
        Option.map_eq_some_iff] at h
      obtain ⟨⟨slot, s₁⟩, hfirst, ⟨rest, s₂⟩, hrest, -⟩ := h
      have hkey := hinv.notMem_of_obtainSlot hfirst
      obtain ⟨s₁', hfirst', hinv₁, hclaimed⟩ :=
        hinv.obtainSlot_of_notMem hkey (obtainSlot_cases hfirst).2.1
      have heq : s₁ = s₁' := by
        rw [hfirst, Option.some.injEq, Prod.mk.injEq] at hfirst'
        exact hfirst'.2
      subst heq
      obtain ⟨hnodup, hnew⟩ := ih hinv₁ hrest
      have hkeys : (s₁.metaData.hash idx).keys.Perm
          (lbaKey task.offset :: (s.metaData.hash idx).keys) :=
        hclaimed.entries.map Prod.fst
      simp only [hkeys.mem_iff, List.mem_cons, not_or] at hnew
      refine ⟨?_, ?_⟩
      · rw [List.map_cons, List.nodup_cons]
        refine ⟨fun hmem => ?_, hnodup⟩
        obtain ⟨other, hother, heq⟩ := List.mem_map.mp hmem
        exact (hnew other hother).1 heq
      · intro other hother
        rcases List.mem_cons.mp hother with rfl | hother
        · exact hkey
        · exact (hnew other hother).2

/-! ## Every geometry -/

section Fresh

variable {blockNum : ℕ} {migration : Fin 4 → Bool} {dev : Devices σ β}

/-- The bitmap of a fresh segment cycles through its whole bytes only. -/
theorem mixMetadataInit_bits (hlt : blockNum < 2 ^ 22) :
    ((mixMetadataInit blockNum migration).segments idx).bitmap.bits =
      blockNum / segmentNum / 8 * 8 := by
  have hbytes : blockSize * (blockNum / segmentNum) % 2 ^ 32 / blockSize =
      blockNum / segmentNum := by
    rw [blockSize, segmentNum]
    omega
  simp only [mixMetadataInit, mixFreeSegmentInit, mixBitmapInit,
    MixBitmap.bits, hbytes, bitsPerByte]

/-- Without a whole byte the first allocation divides by zero. -/
theorem obtainSlot_freshStore_eq_none (hlt : blockNum < 2 ^ 22)
    (hsmall : blockNum / segmentNum < 8) :
    obtainSlot (freshStore blockNum migration dev) task idx = none := by
  have hbits : ((mixMetadataInit blockNum migration).segments
      idx).bitmap.bits = blockNum / segmentNum / 8 * 8 :=
    mixMetadataInit_bits hlt
  rw [Nat.div_eq_of_lt hsmall, Nat.zero_mul] at hbits
  rw [← Option.not_isSome_iff_eq_none, Option.isSome_iff_exists]
  rintro ⟨⟨slot, s'⟩, h⟩
  obtain ⟨-, -, offset, bitmap, m, hnext, -⟩ := obtainSlot_cases h
  simp [freshStore, mixBitmapNextZeroBit, hbits] at hnext

/-- A bitmap with fewer bits than slots does not give the full capacity. -/
theorem FullCapacity.dvd {migration : Fin 4 → Bool} {dev : Devices σ β}
    {tasks : List (IoTask β)}
    (hfull : FullCapacity idx (freshStore blockNum migration dev) tasks)
    (hpos : 4 ≤ blockNum) (hlt : blockNum < 2 ^ 22)
    (hlength : tasks.length = blockNum / segmentNum) :
    8 ∣ blockNum / segmentNum := by
  have hbits : ((mixMetadataInit blockNum migration).segments
      idx).bitmap.bits = blockNum / segmentNum / 8 * 8 :=
    mixMetadataInit_bits hlt
  rcases lt_or_ge (blockNum / segmentNum) 8 with hsmall | hlarge
  · have hper : 0 < blockNum / segmentNum := by
      rw [segmentNum]
      omega
    obtain ⟨slots, s', hslots, -⟩ := hfull
    obtain ⟨task, tasks, rfl⟩ :=
      List.exists_cons_of_length_pos (hlength ▸ hper)
    rw [obtainSlots, obtainSlot_freshStore_eq_none hlt hsmall] at hslots
    simp at hslots
  · have hready : MixBitmap.Ready _ (blockNum / segmentNum / 8 * 8) :=
      ⟨hbits, by omega, by
        simp only [mixMetadataInit, mixFreeSegmentInit, mixBitmapInit]
        omega⟩
    have hle := hfull.length_le
      (s := freshStore blockNum migration dev) hready
    omega

/-- An empty segment gives a slot to each of as many blocks with distinct keys
as it has slots, and then reports that it is full. -/
theorem fullCapacity_of_nodup (hsize : ValidSize blockNum)
    (migration : Fin 4 → Bool) (dev : Devices σ β) {tasks : List (IoTask β)}
    (hlength : tasks.length = blockNum / segmentNum)
    (hkeys : (tasks.map fun task => lbaKey task.offset).Nodup) :
    FullCapacity idx (freshStore blockNum migration dev) tasks := by
  have hinv := mixMetadataInit_prefixInv hsize migration idx
  have hnil :
      ((freshStore blockNum migration dev).metaData.hash idx).entries = [] :=
    mixMetadataInit_entries migration idx
  have hfresh : (freshStore blockNum migration dev).metaData.perBlockNum =
      blockNum / segmentNum := rfl
  obtain ⟨s', hslots, hinv', hper', hlength'⟩ :=
    PrefixInv.obtainSlots_of_nodup (s := freshStore blockNum migration dev)
      hinv hkeys (by simp [MixHash.keys, hnil])
      (by
        rw [hnil, hfresh, List.length_nil, Nat.zero_add]
        exact hlength.le)
  refine ⟨_, s', hslots, List.nodup_range', ?_, ?_⟩
  · intro slot hslot
    rw [List.mem_range'_1, hnil, List.length_nil] at hslot
    rw [hfresh]
    omega
  · apply mixGetNextFreeBlock_of_full
    rw [hinv'.isFull_iff, hlength', hper', hnil, hfresh, hlength,
      List.length_nil, Nat.zero_add]

/-- A segment gives its full capacity exactly when the bitmap has a bit for
every slot and the blocks differ in their 32-bit keys. -/
theorem fullCapacity_freshStore_iff (blockNum : ℕ) (hpos : 4 ≤ blockNum)
    (hlt : blockNum < 2 ^ 22) (migration : Fin 4 → Bool)
    (dev : Devices σ β) (idx : Fin 4) (tasks : List (IoTask β))
    (hlength : tasks.length = blockNum / segmentNum) :
    FullCapacity idx (freshStore blockNum migration dev) tasks ↔
      8 ∣ blockNum / segmentNum ∧
        (tasks.map fun task => lbaKey task.offset).Nodup := by
  have hvalid : 8 ∣ blockNum / segmentNum → ValidSize blockNum := by
    intro hdvd
    rw [segmentNum] at hdvd
    refine ⟨?_, hdvd, ?_⟩
    · rw [segmentNum]
      omega
    · rw [segmentNum]
      omega
  constructor
  · intro hfull
    have hdvd := hfull.dvd hpos hlt hlength
    have hinv := mixMetadataInit_prefixInv (hvalid hdvd) migration idx
    obtain ⟨slots, s', hslots, -⟩ := hfull
    exact ⟨hdvd, (PrefixInv.nodup_of_obtainSlots
      (s := freshStore blockNum migration dev) hinv hslots).1⟩
  · rintro ⟨hdvd, hkeys⟩
    exact fullCapacity_of_nodup (hvalid hdvd) migration dev hlength hkeys

end Fresh

/-- Eight slots for eight blocks. -/
theorem fullCapacity_freshStore_iff_eight :
    FullCapacity 0 (freshStore 32 (fun _ => false) zeroDevices)
        ((List.range 8).map fun i => smallWrite (4 * i) i) ↔
      8 ∣ 32 / segmentNum ∧
        (((List.range 8).map fun i => smallWrite (4 * i) i).map
          fun task => lbaKey task.offset).Nodup :=
  fullCapacity_freshStore_iff 32 (by decide) (by decide) _ _ _ _ rfl

/-- Of nine slots the bitmap cycles through eight, and the ninth search does
not end. -/
theorem nineSlots_not_fullCapacity :
    ((List.range 9).map fun i => 4 * i).Nodup ∧
      ¬ FullCapacity 0 (freshStore 36 (fun _ => false) zeroDevices)
        ((List.range 9).map fun i => smallWrite (4 * i) i) := by
  refine ⟨by decide, ?_⟩
  rintro ⟨slots, s', hslots, -⟩
  have hnone : (obtainSlots 0
      ((List.range 9).map fun i => smallWrite (4 * i) i)
      (freshStore 36 (fun _ => false) zeroDevices)).isNone = true := by
    decide +kernel
  rw [hslots] at hnone
  exact Bool.noConfusion hnone

end Uhs
