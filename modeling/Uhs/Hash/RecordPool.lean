import Mathlib.Algebra.BigOperators.Group.List.Basic
import Mathlib.Algebra.Order.Ring.Nat
import Mathlib.Logic.Function.Basic

/-!
# The C++ hash

Model of `uhs::Hash` in `mix_hash.h`, a table of record lists over a pool of
records.  Every operation works on a copy of the list of its bucket, and `put`
tests its record the wrong way round.  A record is the number of its pointer.
An access outside `hash_entries_`, and a call that ends without the result it
declares, is `none`.  Where the class does not compile, it is read as meant:
`entry->` as `entry.` and `result.value` as `result.record.value`.
-/

namespace Uhs

/-- `Hash`; its `entry_num_` is never read. -/
structure Hash (κ ν : Type*) where
  hashSize : ℕ
  hashEntries : List (List ℕ)
  recordPool : List ℕ
  records : ℕ → κ × ν

namespace Hash

variable {κ ν : Type*}

/-- The constructor, which fills the pool and leaves `hash_entries_` empty. -/
def init (size : ℕ) (records : ℕ → κ × ν) : Hash κ ν where
  hashSize := size
  hashEntries := []
  recordPool := List.range size
  records := records

/-- `newRecord`: a record, or the null pointer. -/
def newRecord (hash : Hash κ ν) (key : κ) (value : ν) :
    Option ℕ × Hash κ ν :=
  match hash.recordPool with
  | [] => (none, hash)
  | record :: recordPool =>
      (some record, { hash with
        recordPool := recordPool
        records := Function.update hash.records record (key, value) })

/-- `deleteRecord`. -/
def deleteRecord (hash : Hash κ ν) (record : ℕ) : Hash κ ν :=
  { hash with recordPool := hash.recordPool ++ [record] }

section Operations

variable [DecidableEq κ] (bucketOf : κ → ℕ → ℕ)

/-- `put`. -/
def put (hash : Hash κ ν) (key : κ) (value : ν) :
    Option (Bool × Hash κ ν) :=
  (hash.hashEntries[bucketOf key hash.hashSize]?).map fun entry =>
    let (record, hash) := hash.newRecord key value
    if record.isSome then
      (false, hash)
    else
      -- the null pointer goes to the front of a copy
      let _entry := record :: entry.map some
      (true, hash)

/-- `get`: the value of the record that was found, if any. -/
def get (hash : Hash κ ν) (key : κ) : Option (Option ν) :=
  (hash.hashEntries[bucketOf key hash.hashSize]?).bind fun entry =>
    match entry.find? fun record => key = (hash.records record).1 with
    -- the branch that finds a record has no `return`
    | some _ => none
    | none => some none

/-- `delete`. -/
def delete (hash : Hash κ ν) (key : κ) : Option (Hash κ ν) :=
  (hash.hashEntries[bucketOf key hash.hashSize]?).map fun entry =>
    -- the record is erased from a copy
    let _entry := entry.eraseP fun record => key = (hash.records record).1
    hash

/-- `getRecordByEntry`: the record at the front, if any. -/
def getRecordByEntry (hash : Hash κ ν) (entryIdx : ℕ) :
    Option (Option (κ × ν) × Hash κ ν) :=
  (hash.hashEntries[entryIdx]?).map fun entry =>
    match entry with
    | [] => (none, hash)
    -- the record leaves a copy only, and goes to the pool
    | record :: _ => (some (hash.records record), hash.deleteRecord record)

end Operations

/-! ## The map it stands for -/

/-- A call. -/
inductive Op (κ ν : Type*) where
  | put (key : κ) (value : ν)
  | get (key : κ)
  | delete (key : κ)
  | getRecordByEntry (entryIdx : ℕ)

/-- What a call reports. -/
inductive Reply (κ ν : Type*) where
  | put (res : Bool)
  | get (value : Option ν)
  | delete
  | getRecordByEntry (pair : Option (κ × ν))

section Refinement

variable [DecidableEq κ] (bucketOf : κ → ℕ → ℕ)

/-- One call. -/
def call (hash : Hash κ ν) : Op κ ν → Option (Reply κ ν × Hash κ ν)
  | .put key value =>
      (hash.put bucketOf key value).map fun (res, hash) => (.put res, hash)
  | .get key =>
      (hash.get bucketOf key).map fun value => (.get value, hash)
  | .delete key =>
      (hash.delete bucketOf key).map fun hash => (.delete, hash)
  | .getRecordByEntry entryIdx =>
      (hash.getRecordByEntry entryIdx).map fun (pair, hash) =>
        (.getRecordByEntry pair, hash)

/-- The pairs that were put and are live, the latest first, and the number of
free records. -/
structure PairMap (κ ν : Type*) where
  live : List (κ × ν)
  free : ℕ

/-- The calls on a map whose pairs take records. -/
inductive PairMap.Step (hashSize : ℕ) :
    PairMap κ ν → Op κ ν → Reply κ ν → PairMap κ ν → Prop
  | put (key : κ) (value : ν) (live : List (κ × ν)) (free : ℕ) :
      Step hashSize ⟨live, free + 1⟩ (.put key value) (.put true)
        ⟨(key, value) :: live, free⟩
  | putFull (key : κ) (value : ν) (live : List (κ × ν)) :
      Step hashSize ⟨live, 0⟩ (.put key value) (.put false) ⟨live, 0⟩
  | get (key : κ) (map : PairMap κ ν) :
      Step hashSize map (.get key)
        (.get ((map.live.find? fun pair => pair.1 = key).map Prod.snd)) map
  | delete (key : κ) (value : ν) (newer older : List (κ × ν)) (free : ℕ)
      (hnewer : ∀ pair ∈ newer, pair.1 ≠ key) :
      Step hashSize ⟨newer ++ (key, value) :: older, free⟩ (.delete key)
        .delete ⟨newer ++ older, free + 1⟩
  | deleteAbsent (key : κ) (map : PairMap κ ν)
      (habsent : ∀ pair ∈ map.live, pair.1 ≠ key) :
      Step hashSize map (.delete key) .delete map
  | getRecordByEntry (entryIdx : ℕ) (pair : κ × ν)
      (newer older : List (κ × ν)) (free : ℕ)
      (hbucket : bucketOf pair.1 hashSize = entryIdx) :
      Step hashSize ⟨newer ++ pair :: older, free⟩
        (.getRecordByEntry entryIdx) (.getRecordByEntry (some pair))
        ⟨newer ++ older, free + 1⟩
  | getRecordByEntryEmpty (entryIdx : ℕ) (map : PairMap κ ν)
      (hempty : ∀ pair ∈ map.live, bucketOf pair.1 hashSize ≠ entryIdx) :
      Step hashSize map (.getRecordByEntry entryIdx)
        (.getRecordByEntry none) map

/-- The records that the buckets hold. -/
def stored (hash : Hash κ ν) : ℕ := (hash.hashEntries.map List.length).sum

/-- Every call returns and reports what the map allows, and free records and
stored pairs add up to `total`. -/
def Refines (total : ℕ) : Hash κ ν → PairMap κ ν → List (Op κ ν) → Prop
  | _, _, [] => True
  | hash, map, op :: ops => ∃ reply hash' map',
      hash.call bucketOf op = some (reply, hash') ∧
      PairMap.Step bucketOf hash.hashSize map op reply map' ∧
      hash'.recordPool.length + hash'.stored = total ∧
      Refines total hash' map' ops

/-- A hash with `buckets` empty buckets and a pool of `pool` records. -/
def start (hashSize buckets pool : ℕ) (records : ℕ → κ × ν) : Hash κ ν where
  hashSize := hashSize
  hashEntries := List.replicate buckets []
  recordPool := List.range pool
  records := records

omit [DecidableEq κ] in
/-- The constructor makes no bucket at all. -/
theorem init_eq_start (size : ℕ) (records : ℕ → κ × ν) :
    init size records = start size 0 size records := rfl

/-- The bucket that a call looks at. -/
def Op.bucket (hashSize : ℕ) : Op κ ν → ℕ
  | .put key _ => bucketOf key hashSize
  | .get key => bucketOf key hashSize
  | .delete key => bucketOf key hashSize
  | .getRecordByEntry entryIdx => entryIdx

/-- The call is a put. -/
def Op.isPut : Op κ ν → Bool
  | .put _ _ => true
  | _ => false

/-- The report of a call that finds nothing. -/
def Op.missReply : Op κ ν → Reply κ ν
  | .put _ _ => .put false
  | .get _ => .get none
  | .delete _ => .delete
  | .getRecordByEntry _ => .getRecordByEntry none

/-! ## Calls on empty buckets -/

variable {bucketOf} {hashSize buckets pool total : ℕ} {records : ℕ → κ × ν}
  {op : Op κ ν} {ops : List (Op κ ν)}

omit [DecidableEq κ] in
theorem start_bucket (i : ℕ) :
    (start hashSize buckets pool records).hashEntries[i]? =
      if i < buckets then some [] else none := by
  rw [start, List.getElem?_replicate]

omit [DecidableEq κ] in
theorem start_stored :
    (start hashSize buckets pool records).stored = 0 := by
  simp [start, stored]

variable {hash : Hash κ ν}

/-- Outside the buckets no call returns. -/
theorem call_of_outside
    (hout : hash.hashEntries[op.bucket bucketOf hash.hashSize]? = none) :
    hash.call bucketOf op = none := by
  cases op with
  | put key value =>
      change hash.hashEntries[bucketOf key hash.hashSize]? = none at hout
      rw [call, put, hout]
      rfl
  | get key =>
      change hash.hashEntries[bucketOf key hash.hashSize]? = none at hout
      rw [call, get, hout]
      rfl
  | delete key =>
      change hash.hashEntries[bucketOf key hash.hashSize]? = none at hout
      rw [call, delete, hout]
      rfl
  | getRecordByEntry entryIdx =>
      change hash.hashEntries[entryIdx]? = none at hout
      rw [call, getRecordByEntry, hout]
      rfl

/-- On an empty bucket a call that is no put finds nothing. -/
theorem call_of_empty
    (hempty : hash.hashEntries[op.bucket bucketOf hash.hashSize]? = some [])
    (hput : op.isPut = false) :
    hash.call bucketOf op = some (op.missReply, hash) := by
  cases op with
  | put key value => cases hput
  | get key =>
      change hash.hashEntries[bucketOf key hash.hashSize]? = some [] at hempty
      rw [call, get, hempty]
      rfl
  | delete key =>
      change hash.hashEntries[bucketOf key hash.hashSize]? = some [] at hempty
      rw [call, delete, hempty]
      rfl
  | getRecordByEntry entryIdx =>
      change hash.hashEntries[entryIdx]? = some [] at hempty
      rw [call, getRecordByEntry, hempty]
      rfl

omit [DecidableEq κ] in
/-- A put reports the opposite of what it found in the pool. -/
theorem put_res {key : κ} {value : ν} {res : Bool} {hash' : Hash κ ν}
    (h : hash.put bucketOf key value = some (res, hash')) :
    res = hash.recordPool.isEmpty := by
  obtain ⟨entry, -, heq⟩ := Option.map_eq_some_iff.mp h
  rcases hpool : hash.recordPool with - | ⟨record, rest⟩
  · simp only [newRecord, hpool, Option.isSome_none] at heq
    exact (congrArg Prod.fst heq).symm
  · simp only [newRecord, hpool, Option.isSome_some, if_true] at heq
    exact (congrArg Prod.fst heq).symm

/-- The map is right the other way round. -/
theorem PairMap.Step.put_res {map map' : PairMap κ ν} {key : κ} {value : ν}
    {res : Bool}
    (h : PairMap.Step bucketOf hashSize map (.put key value) (.put res)
      map') : res = decide (0 < map.free) := by
  cases h with
  | put live free => simp
  | putFull live => simp

/-- On an empty map a call that is no put finds nothing. -/
theorem PairMap.Step.of_empty (hput : op.isPut = false) (free : ℕ) :
    PairMap.Step bucketOf hashSize ⟨[], free⟩ op op.missReply ⟨[], free⟩ := by
  cases op with
  | put key value => cases hput
  | get key => exact PairMap.Step.get key ⟨[], free⟩
  | delete key =>
      exact PairMap.Step.deleteAbsent key ⟨[], free⟩ fun pair hpair =>
        absurd hpair List.not_mem_nil
  | getRecordByEntry entryIdx =>
      exact PairMap.Step.getRecordByEntryEmpty entryIdx ⟨[], free⟩
        fun pair hpair => absurd hpair List.not_mem_nil

theorem PairMap.Step.eq_of_empty {free : ℕ} {reply : Reply κ ν}
    {map' : PairMap κ ν} (hput : op.isPut = false)
    (h : PairMap.Step bucketOf hashSize ⟨[], free⟩ op reply map') :
    map' = ⟨[], free⟩ := by
  generalize hmap : (⟨[], free⟩ : PairMap κ ν) = map at h
  cases h with
  | put key value live free => cases hput
  | putFull key value live => cases hput
  | get key => rfl
  | delete key value newer older free hnewer =>
      have hlive := congrArg PairMap.live hmap
      simp at hlive
  | deleteAbsent key map habsent => rfl
  | getRecordByEntry entryIdx pair newer older free hbucket =>
      have hlive := congrArg PairMap.live hmap
      simp at hlive
  | getRecordByEntryEmpty entryIdx map hempty => rfl

/-! ## Runs -/

/-- A run that refines the map has no put and looks at no bucket that does not
exist. -/
theorem Refines.inert
    (h : Refines bucketOf pool (start hashSize buckets pool records)
      ⟨[], pool⟩ ops) :
    ∀ op ∈ ops, op.isPut = false ∧ op.bucket bucketOf hashSize < buckets := by
  induction ops with
  | nil => exact fun op hop => absurd hop List.not_mem_nil
  | cons op ops ih =>
      obtain ⟨reply, hash', map', hcall, hstep, -, hrest⟩ := h
      have hbucket : (start hashSize buckets pool records).hashEntries[
          op.bucket bucketOf hashSize]? =
            if op.bucket bucketOf hashSize < buckets then some [] else none :=
        start_bucket _
      have hinside : op.bucket bucketOf hashSize < buckets := by
        by_contra hout
        rw [if_neg hout] at hbucket
        rw [call_of_outside hbucket] at hcall
        cases hcall
      rw [if_pos hinside] at hbucket
      have hput : op.isPut = false := by
        cases op with
        | put key value =>
            obtain ⟨⟨res, hash₁⟩, hres, heq⟩ :=
              Option.map_eq_some_iff.mp hcall
            obtain ⟨rfl, rfl⟩ := Prod.mk.injEq .. ▸ heq
            -- the code says whether the pool is empty, the map that it is not
            have hagree := hstep.put_res.symm.trans (put_res hres)
            cases pool with
            | zero => simp [start] at hagree
            | succ pool => simp [start] at hagree
        | _ => rfl
      rw [call_of_empty hbucket hput, Option.some.injEq] at hcall
      obtain ⟨rfl, rfl⟩ := Prod.mk.injEq .. ▸ hcall
      rw [hstep.eq_of_empty hput] at hrest
      exact List.forall_mem_cons.mpr ⟨⟨hput, hinside⟩, ih hrest⟩

theorem refines_of_inert
    (h : ∀ op ∈ ops, op.isPut = false ∧
      op.bucket bucketOf hashSize < buckets) :
    Refines bucketOf pool (start hashSize buckets pool records)
      ⟨[], pool⟩ ops := by
  induction ops with
  | nil => trivial
  | cons op ops ih =>
      obtain ⟨⟨hput, hinside⟩, hrest⟩ := List.forall_mem_cons.mp h
      have hbucket : (start hashSize buckets pool records).hashEntries[
          op.bucket bucketOf hashSize]? =
            if op.bucket bucketOf hashSize < buckets then some [] else none :=
        start_bucket _
      rw [if_pos hinside] at hbucket
      refine ⟨op.missReply, _, ⟨[], pool⟩, call_of_empty hbucket hput,
        PairMap.Step.of_empty hput pool, ?_, ih hrest⟩
      rw [start_stored]
      simp [start]

/-- A hash with empty buckets refines the map along a run exactly when the run
has no put and looks at no bucket that does not exist.  The constructor makes
no bucket, so there it is the empty run alone. -/
theorem refines_iff_inert (bucketOf : κ → ℕ → ℕ)
    (hashSize buckets pool : ℕ) (records : ℕ → κ × ν)
    (ops : List (Op κ ν)) :
    (Refines bucketOf pool (start hashSize buckets pool records) ⟨[], pool⟩
        ops ↔
      ∀ op ∈ ops, op.isPut = false ∧
        op.bucket bucketOf hashSize < buckets) ∧
    (Refines bucketOf hashSize (init hashSize records) ⟨[], hashSize⟩ ops ↔
      ops = []) := by
  refine ⟨⟨Refines.inert, refines_of_inert⟩, ?_⟩
  rw [init_eq_start]
  constructor
  · intro hrefines
    rw [List.eq_nil_iff_forall_not_mem]
    intro op hop
    exact absurd (hrefines.inert op hop).2 (Nat.not_lt_zero _)
  · rintro rfl
    trivial

/-- With four buckets a put takes one of eight records and reports that there
was none; as constructed, the hash has no bucket to put into. -/
theorem put_not_refines :
    ¬ Refines (fun key size => key % size) 8
        (start 4 4 8 fun _ => ((0 : ℕ), (0 : ℕ))) ⟨[], 8⟩ [.put 5 7] ∧
      ¬ Refines (fun key size => key % size) 4
        (init 4 fun _ => ((0 : ℕ), (0 : ℕ))) ⟨[], 4⟩ [.put 5 7] := by
  constructor
  · intro hrefines
    exact Bool.noConfusion (hrefines.inert _ List.mem_cons_self).1
  · intro hrefines
    rw [init_eq_start] at hrefines
    exact Bool.noConfusion (hrefines.inert _ List.mem_cons_self).1

end Refinement

end Hash

end Uhs
