import Mathlib.Data.Multiset.Count
import Uhs.Bloom.CountingBitmap
import Uhs.Support.Runs

/-!
# The counting Bloom filter

Model of the counting filter of `mix_bloom_filter.c`.  Its header and its
counters share one array: the header is the first 16 bytes, with `count` at
byte 8, and the counters follow in pairs.  What `hash_func` writes for a key is
a parameter, as are the numbers that the constructor computes from the error
rate.
-/

namespace Uhs

open Support

/-- `sizeof(mix_couting_bloom_header_t)`. -/
def sizeofHeader : ℕ := 16

/-- The place of `count` in the header. -/
def countPlace : ℕ := 8

/-- `mix_counting_bloom_filter_t` without its capacity and its error rate,
which only the constructor reads. -/
structure MixCountingBloomFilter where
  offset : ℕ
  countsPerFunc : ℕ
  nfuncs : ℕ
  size : ℕ
  numBytes : ℕ
  bitmap : MixBitmap

/-- `mix_counting_bloom_filter_init`, from the two numbers that it derives. -/
def mixCountingBloomFilterInit (nfuncs countsPerFunc : ℕ) :
    MixCountingBloomFilter :=
  let size := nfuncs * countsPerFunc
  let numBytes := (size + 1) / 2 + sizeofHeader
  { offset := sizeofHeader
    countsPerFunc := countsPerFunc
    nfuncs := nfuncs
    size := size
    numBytes := numBytes
    bitmap := mixBitmapInit numBytes }

namespace MixCountingBloomFilter

/-- The counter of round `i`, in `uint32_t`. -/
def index (filter : MixCountingBloomFilter) (hashes : ℕ → ℕ) (i : ℕ) : ℕ :=
  (hashes i + i * filter.countsPerFunc % 2 ^ 32) % 2 ^ 32

/-- `header->count`. -/
def count (filter : MixCountingBloomFilter) : BitVec 32 :=
  readWord filter.bitmap.array countPlace

/-- Counter `j` of the filter. -/
def counter (filter : MixCountingBloomFilter) (j : ℕ) : ℕ :=
  nibble filter.bitmap.array filter.offset j

variable (hashFunc : ℕ → ℕ → ℕ)

/-- The counters of a key, in the order in which the loops visit them. -/
def indexes (filter : MixCountingBloomFilter) (key : ℕ) : List ℕ :=
  (List.range filter.nfuncs).map (filter.index (hashFunc key))

/-- The loop over the counters of a key, then the change of the header. -/
def update (op : MixBitmap → ℕ → ℕ → ℤ × MixBitmap) (change : BitVec 32)
    (filter : MixCountingBloomFilter) (key : ℕ) : MixCountingBloomFilter :=
  let hashes := hashFunc key
  let bitmap := (List.range filter.nfuncs).foldl
    (fun bitmap i => (op bitmap (filter.index hashes i) filter.offset).2)
    filter.bitmap
  { filter with
    bitmap := { bitmap with
      array := writeWord bitmap.array countPlace
        (readWord bitmap.array countPlace + change) } }

end MixCountingBloomFilter

variable (hashFunc : ℕ → ℕ → ℕ)

/-- `mix_counting_bloom_filter_add`; the results of the increments are not
looked at. -/
def mixCountingBloomFilterAdd (filter : MixCountingBloomFilter) (key : ℕ) :
    MixCountingBloomFilter :=
  filter.update hashFunc mixCountingBitmapIncrement 1 key

/-- `mix_counting_bloom_filter_remove`. -/
def mixCountingBloomFilterRemove (filter : MixCountingBloomFilter)
    (key : ℕ) : MixCountingBloomFilter :=
  filter.update hashFunc mixCountingBitmapDecrement (-1) key

/-- `mix_counting_bloom_filter_test`. -/
def mixCountingBloomFilterTest (filter : MixCountingBloomFilter)
    (key : ℕ) : ℕ :=
  let hashes := hashFunc key
  if (List.range filter.nfuncs).any fun i =>
      mixCountingBitmapCheck filter.bitmap (filter.index hashes i)
        filter.offset == 0 then
    0
  else
    1

namespace MixCountingBloomFilter

/-- The filter is laid out as the constructor does it, and the hash values
stay below the number of counters of a function. -/
structure Sized (filter : MixCountingBloomFilter) : Prop where
  offset_eq : filter.offset = sizeofHeader
  nfuncs_pos : 0 < filter.nfuncs
  size_eq : filter.size = filter.nfuncs * filter.countsPerFunc
  size_lt : filter.size < 2 ^ 31
  numBytes_eq : filter.numBytes = (filter.size + 1) / 2 + sizeofHeader
  hash_lt : ∀ key, ∀ i < filter.nfuncs,
    hashFunc key i < filter.countsPerFunc

variable {hashFunc} {filter : MixCountingBloomFilter} {key i j : ℕ}

/-! ## The counters of a key -/

theorem Sized.index_lt (h : filter.Sized hashFunc) (key : ℕ)
    (hi : i < filter.nfuncs) :
    hashFunc key i + i * filter.countsPerFunc < filter.size := by
  have hhash := h.hash_lt key i hi
  have hround : (i + 1) * filter.countsPerFunc ≤
      filter.nfuncs * filter.countsPerFunc :=
    Nat.mul_le_mul_right _ hi
  rw [h.size_eq]
  rw [Nat.add_mul, Nat.one_mul] at hround
  omega

theorem Sized.index_eq (h : filter.Sized hashFunc) (key : ℕ)
    (hi : i < filter.nfuncs) :
    filter.index (hashFunc key) i =
      hashFunc key i + i * filter.countsPerFunc := by
  have hlt := h.index_lt key hi
  have hsize := h.size_lt
  rw [index, Nat.mod_eq_of_lt (by omega : i * filter.countsPerFunc < 2 ^ 32),
    Nat.mod_eq_of_lt (by omega)]

theorem mem_indexes :
    j ∈ filter.indexes hashFunc key ↔
      ∃ i < filter.nfuncs, filter.index (hashFunc key) i = j := by
  simp only [indexes, List.mem_map, List.mem_range]

theorem Sized.lt_of_mem_indexes (h : filter.Sized hashFunc)
    (hj : j ∈ filter.indexes hashFunc key) : j < filter.size := by
  obtain ⟨i, hi, rfl⟩ := mem_indexes.mp hj
  rw [h.index_eq key hi]
  exact h.index_lt key hi

/-- The counters of a key lie in the ranges of different functions. -/
theorem Sized.indexes_nodup (h : filter.Sized hashFunc) (key : ℕ) :
    (filter.indexes hashFunc key).Nodup := by
  refine List.Nodup.map_on ?_ List.nodup_range
  intro i hi i' hi' heq
  rw [List.mem_range] at hi hi'
  have hrange : ∀ i < filter.nfuncs,
      (hashFunc key i + i * filter.countsPerFunc) / filter.countsPerFunc =
        i := by
    intro i hi
    have hhash := h.hash_lt key i hi
    rw [Nat.add_mul_div_right _ _ (by omega), Nat.div_eq_of_lt hhash,
      Nat.zero_add]
  rw [h.index_eq key hi, h.index_eq key hi'] at heq
  rw [← hrange i hi, heq, hrange i' hi']

theorem Sized.exists_mem_indexes (h : filter.Sized hashFunc) (key : ℕ) :
    ∃ j, j ∈ filter.indexes hashFunc key :=
  ⟨_, mem_indexes.mpr ⟨0, h.nfuncs_pos, rfl⟩⟩

/-! ## One operation -/

section Update

variable {op : MixBitmap → ℕ → ℕ → ℤ × MixBitmap} {f : ℕ → ℕ}
  (hop : ∀ bitmap index offset, UpdatesNibble offset index
    (f (nibble bitmap.array offset index)) bitmap.array
    (op bitmap index offset).2.array)
  (change : BitVec 32)

theorem foldl_range_eq (key : ℕ) :
    (List.range filter.nfuncs).foldl (fun bitmap i =>
        (op bitmap (filter.index (hashFunc key) i) filter.offset).2)
        filter.bitmap =
      (filter.indexes hashFunc key).foldl
        (fun bitmap index => (op bitmap index filter.offset).2)
        filter.bitmap := by
  rw [indexes, List.foldl_map]

theorem Sized.update (h : filter.Sized hashFunc) (key : ℕ) :
    (filter.update hashFunc op change key).Sized hashFunc :=
  ⟨h.offset_eq, h.nfuncs_pos, h.size_eq, h.size_lt, h.numBytes_eq, h.hash_lt⟩

include hop

/-- An operation changes the counters of its key, once each. -/
theorem Sized.counter_update (h : filter.Sized hashFunc) (key j : ℕ) :
    (filter.update hashFunc op change key).counter j =
      if j ∈ filter.indexes hashFunc key then f (filter.counter j)
      else filter.counter j := by
  have hoffset := h.offset_eq
  rw [sizeofHeader] at hoffset
  have hbyte : (filter.update hashFunc op change key).counter j =
      nibble ((filter.indexes hashFunc key).foldl
        (fun bitmap index => (op bitmap index filter.offset).2)
        filter.bitmap).array filter.offset j := by
    rw [← foldl_range_eq]
    apply nibble_congr
    apply writeWord_of_outside
    right
    change countPlace + 4 ≤ j / 2 + filter.offset
    rw [countPlace, hoffset]
    omega
  rw [hbyte, foldl_updatesNibble (fun bitmap index => hop bitmap index _)
    (h.indexes_nodup key)]
  rfl

/-- The loop does not touch the header. -/
theorem Sized.header_foldl (h : filter.Sized hashFunc) (key : ℕ) {a : ℕ}
    (ha : a < sizeofHeader) :
    ((List.range filter.nfuncs).foldl (fun bitmap i =>
        (op bitmap (filter.index (hashFunc key) i) filter.offset).2)
        filter.bitmap).array a = filter.bitmap.array a := by
  rw [foldl_range_eq]
  apply foldl_updatesNibble_below fun bitmap index => hop bitmap index _
  rw [h.offset_eq]
  exact ha

theorem Sized.count_update (h : filter.Sized hashFunc) (key : ℕ) :
    (filter.update hashFunc op change key).count = filter.count + change := by
  have hword : readWord ((List.range filter.nfuncs).foldl (fun bitmap i =>
      (op bitmap (filter.index (hashFunc key) i) filter.offset).2)
      filter.bitmap).array countPlace = filter.count := by
    apply readWord_congr
    intro a _ ha
    apply h.header_foldl hop key
    rw [countPlace] at ha
    rw [sizeofHeader]
    omega
  rw [count, MixCountingBloomFilter.update]
  simp only [readWord_writeWord, hword]

theorem Sized.header_update (h : filter.Sized hashFunc) (key : ℕ) {a : ℕ}
    (ha : a < sizeofHeader) (houtside : a < countPlace ∨ countPlace + 4 ≤ a) :
    (filter.update hashFunc op change key).bitmap.array a =
      filter.bitmap.array a :=
  (writeWord_of_outside _ houtside).trans (h.header_foldl hop key ha)

end Update

/-- The test looks for a counter of the key that is `0`. -/
theorem test_eq (key : ℕ) :
    mixCountingBloomFilterTest hashFunc filter key =
      if ∃ j ∈ filter.indexes hashFunc key, filter.counter j = 0 then 0
      else 1 := by
  rw [mixCountingBloomFilterTest]
  refine if_congr ?_ rfl rfl
  simp only [List.any_eq_true, List.mem_range, beq_iff_eq,
    mixCountingBitmapCheck_eq_zero_iff, mem_indexes, counter]
  constructor
  · rintro ⟨i, hi, hzero⟩
    exact ⟨_, ⟨i, hi, rfl⟩, hzero⟩
  · rintro ⟨_, ⟨i, hi, rfl⟩, hzero⟩
    exact ⟨i, hi, hzero⟩

end MixCountingBloomFilter

end Uhs
