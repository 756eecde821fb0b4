import ChainedTable.Table.Chain

set_option autoImplicit false

/-!
Resizing and growth. The new buckets are installed first, since the bucket of a hash depends on
the size; then the old chains are walked in bucket order and every entry met is put in front of
its new chain. A resize whose buckets cannot be had changes nothing.
-/

namespace ChainedTable

inductive Refusal where
  | zeroSize
  /-- So many buckets have no address. -/
  | beyondCapacity (requested : Nat)
  /-- There is no memory for so many buckets. -/
  | outOfMemory (requested : Nat)
  deriving DecidableEq

def Refusal.message : Refusal → String
  | .zeroSize => "bucket count must be nonzero"
  | .beyondCapacity n | .outOfMemory n => "failed to allocate " ++ toString n ++ " buckets"

def Refusal.cause : Refusal → Option String
  | .zeroSize => none
  | .beyondCapacity _ => some
      "memory allocation failed because the computed capacity exceeded the collection's maximum"
  | .outOfMemory _ => some "memory allocation failed because the memory allocator returned an error"

def Refusal.requested : Refusal → Option Nat
  | .zeroSize => none
  | .beyondCapacity n | .outOfMemory n => some n

def Allocatable [Memory] (size : Nat) : Prop := 0 < size ∧ Memory.hasRoom size

instance [Memory] (size : Nat) : Decidable (Allocatable size) :=
  inferInstanceAs (Decidable (0 < size ∧ Memory.hasRoom size))

theorem Allocatable.mono [Memory] {m n : Nat} (h : Allocatable n) (hpos : 0 < m) (hle : m ≤ n) :
    Allocatable m := ⟨hpos, Memory.mono m n hle h.2⟩

def refusal (size : Nat) : Refusal :=
  if size = 0 then .zeroSize
  else if bucketCapacity ≤ size then .beyondCapacity size
  else .outOfMemory size

variable {α : Type}

namespace Table

def clear (t : Table α) (size : Nat) (h : 0 < size) : Table α :=
  { t with
    buckets := emptyBuckets size
    buckets_pos := size_emptyBuckets_pos h }

/-- Moves the entries from `cursor` on, as their links are when each is met. -/
def migrateChain (t : Table α) : Nat → Option EntryId → Outcome (Table α) Unit
  | _, none => .ok () t
  | 0, some _ => .fail .endless t
  | bound + 1, some id =>
    match t.arena.get? id with
    | none => .fail (.notAllocated id) t
    | some e => (t.prepend (t.hashToIndex e.hash) id e).migrateChain bound e.next

/-- A move bends a link, so the walk along a chain may come back to an entry that it has moved; a
walk that ends meets no entry a third time. -/
def migrationBound (t : Table α) : Nat := 2 * t.arena.carved + 1

def migrate (t : Table α) (bound : Nat) : List (Option EntryId) → Outcome (Table α) Unit
  | [] => .ok () t
  | head :: rest => (t.migrateChain bound head).bind fun _ t => t.migrate bound rest

/-- Moves every entry into `size` fresh buckets. A dead id met on the way leaves the entries moved
so far in the new buckets and all others in no chain. -/
def resize [Memory] (t : Table α) (size : Nat) :
    Outcome (Table α) (Except Refusal Unit) :=
  if h : Allocatable size then
    ((t.clear size h.1).migrate t.migrationBound t.buckets.toList).map .ok
  else .ok (.error (refusal size)) t

end Table

inductive Growth where
  | atLimit
  | belowLoad
  | growTo (size : Nat)
  deriving DecidableEq

namespace Table

/-- A table below `maxSize` whose integer load exceeds `load` doubles, up to `maxSize`. -/
def growth (t : Table α) (maxSize load : Nat) : Growth :=
  if maxSize ≤ t.size then .atLimit
  else if t.count / t.size ≤ load then .belowLoad
  else .growTo (min (2 * t.size) maxSize)

def maybeGrow [Memory] (t : Table α) (maxSize load : Nat) : Outcome (Table α) Bool :=
  match t.growth maxSize load with
  | .growTo size => (t.resize size).map fun _ => true
  | _ => .ok false t

@[simp] theorem size_clear (t : Table α) {n : Nat} (h : 0 < n) : (t.clear n h).size = n := by
  simp [size, clear, emptyBuckets]

@[simp] theorem head_clear (t : Table α) {n : Nat} (h : 0 < n) (i : Nat) :
    (t.clear n h).head i = none := by
  by_cases hi : i < n <;> simp [head, clear, emptyBuckets, hi]

@[simp] theorem arena_clear (t : Table α) {n : Nat} (h : 0 < n) :
    (t.clear n h).arena = t.arena := rfl

theorem resize_refused [Memory] {t : Table α} {n : Nat} (h : ¬ Allocatable n) :
    t.resize n = .ok (.error (refusal n)) t := by simp [resize, h]

/-- Whatever the memory, buckets without an address are refused. -/
theorem resize_beyond_capacity [Memory] (t : Table α) {n : Nat} (h : bucketCapacity ≤ n) :
    t.resize n = .ok (.error (.beyondCapacity n)) t := by
  have hno : ¬ Allocatable n := fun ha => Nat.not_lt.mpr h (Memory.lt_capacity n ha.2)
  have hpos : n ≠ 0 := Nat.ne_of_gt (Nat.lt_of_lt_of_le (by decide) h)
  rw [resize_refused hno, refusal, if_neg hpos, if_pos h]

theorem size_prepend (t : Table α) (i : Nat) (id : EntryId) (e : Entry α) :
    (t.prepend i id e).size = t.size := by simp [prepend]

end Table

end ChainedTable
