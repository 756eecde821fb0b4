import ChainedTable.Arena.Walk
import ChainedTable.MemoryTag
import ChainedTable.Traffic

set_option autoImplicit false

/-!
Chained tables: an array of buckets, each the head of a chain, over the entries of one arena. A
table makes entries and keeps their storage. Which chain an entry goes on, and when it is counted,
is for the caller to say.

An operation checks first and then writes, so that one that is refused leaves the table as it was.
-/

namespace ChainedTable

structure Table (α : Type) where
  buckets : Array (Option EntryId)
  /-- Entries counted, which is up to the callers to keep equal to the entries linked. -/
  count : Nat
  arena : Arena α
  tag : MemoryTag
  traffic : Traffic
  buckets_pos : 0 < buckets.size

/-- Buckets from this many on have no address. -/
def bucketCapacity : Nat := 0x2000000000000000

/-- The answers of the allocator when it is asked for buckets. -/
class Memory where
  hasRoom : Nat → Bool
  lt_capacity : ∀ n, hasRoom n → n < bucketCapacity
  mono : ∀ m n, m ≤ n → hasRoom n → hasRoom m

@[reducible] def Memory.below (limit : Nat) (h : limit ≤ bucketCapacity) : Memory where
  hasRoom n := n < limit
  lt_capacity _ hn := Nat.lt_of_lt_of_le (of_decide_eq_true hn) h
  mono _ _ hle hn := decide_eq_true (Nat.lt_of_le_of_lt hle (of_decide_eq_true hn))

variable {α : Type}

namespace Table

def emptyBuckets (size : Nat) : Array (Option EntryId) := Array.replicate size none

theorem size_emptyBuckets_pos {n : Nat} (h : 0 < n) : 0 < (emptyBuckets n).size := by
  rw [emptyBuckets, Array.size_replicate]
  exact h

def create [Memory] (size : Nat) (tag : MemoryTag) : Except Fault (Table α) :=
  if h : 0 < size then
    if Memory.hasRoom size then
      .ok ⟨emptyBuckets size, 0, .empty, tag, .zero, size_emptyBuckets_pos h⟩
    else if bucketCapacity ≤ size then .error .capacityOverflow
    else .error (.outOfMemory (size * bytesPerId))
  else .error .noBuckets

def size (t : Table α) : Nat := t.buckets.size

theorem size_pos (t : Table α) : 0 < t.size := t.buckets_pos

/-- The bucket of a hash: a remainder, since sizes need not be powers of two. -/
def hashToIndex (t : Table α) (hash : UInt32) : Nat := hash.toNat % t.size

theorem hashToIndex_lt (t : Table α) (hash : UInt32) : t.hashToIndex hash < t.size :=
  Nat.mod_lt _ t.size_pos

def head (t : Table α) (index : Nat) : Option EntryId := t.buckets[index]?.join

def checkIndex (t : Table α) (index : Nat) : Except Fault Unit :=
  if index < t.size then .ok () else .error (.indexOutOfRange index t.size)

def bucket (t : Table α) (index : Nat) : Except Fault (Option EntryId) :=
  (t.checkIndex index).map fun _ => t.head index

def entry (t : Table α) (id : EntryId) : Except Fault (Entry α) := t.arena.entry id

@[inline] def onArena {β : Type} (t : Table α) (f : Arena α → Outcome (Arena α) β) :
    Outcome (Table α) β :=
  match t with
  | ⟨buckets, count, arena, tag, traffic, h⟩ =>
    (f arena).mapState fun arena => ⟨buckets, count, arena, tag, traffic, h⟩

def sizing (t : Table α) : Sizing := ⟨t.size, t.count⟩

def newEntry [SlotSize α] (t : Table α) (hash : UInt32) (literal : α) :
    Outcome (Table α) EntryId :=
  let z := t.sizing
  t.onArena fun a => a.allocate hash literal z

def newSharedEntry [SlotSize α] (t : Table α) (hash : UInt32) (literal : α) :
    Outcome (Table α) EntryId :=
  (t.newEntry hash literal).bind fun id t =>
    (t.onArena fun a => a.update id Entry.setShared).map fun _ => id

def setLiteral (t : Table α) (id : EntryId) (literal : α) : Outcome (Table α) Unit :=
  t.onArena fun a => a.update id fun e => e.setLiteral literal

def store (t : Table α) (id : EntryId) (e : Entry α) : Table α :=
  { t with arena := t.arena.store id e }

def setHead (t : Table α) (index : Nat) (head : Option EntryId) : Table α :=
  { t with
    buckets := t.buckets.setIfInBounds index head
    buckets_pos := Nat.lt_of_lt_of_eq t.buckets_pos Array.size_setIfInBounds.symm }

/-- Points a live id at `next` and keeps its shared flag; an id without an entry is left alone. -/
def redirect (t : Table α) (id : EntryId) (next : Option EntryId) : Table α :=
  match t.arena.get? id with
  | some e => t.store id (e.redirect next)
  | none => t

def prepend (t : Table α) (index : Nat) (id : EntryId) (e : Entry α) : Table α :=
  (t.store id (e.redirect (t.head index))).setHead index (some id)

def increment (t : Table α) : Outcome (Table α) Unit :=
  match addWord t.count 1 with
  | .error f => .fail f t
  | .ok n =>
    match t.traffic.recordAdd with
    | .error f => .fail f { t with count := n }
    | .ok r => .ok () { t with count := n, traffic := r }

def addEntry (t : Table α) (index : Nat) (id : EntryId) : Outcome (Table α) Unit :=
  match t.checkIndex index with
  | .error f => .fail f t
  | .ok () =>
    match t.arena.get? id with
    | none => .fail (.notAllocated id) t
    | some e => (t.prepend index id e).increment

def setBucket (t : Table α) (index : Nat) (head : Option EntryId) : Outcome (Table α) Unit :=
  match t.checkIndex index with
  | .error f => .fail f t
  | .ok () => .ok () (t.setHead index head)

def setNext (t : Table α) (id : EntryId) (next : Option EntryId) : Outcome (Table α) Unit :=
  t.onArena fun a => a.update id fun e => e.redirect next

def freeUnlinked (t : Table α) (id : EntryId) : Outcome (Table α) α :=
  t.onArena fun a => a.free id

/-- Recycles a counted entry that is out of its chain. -/
def freeEntry (t : Table α) (id : EntryId) : Outcome (Table α) α :=
  if t.count = 0 then .fail .nothingCounted t
  else
    (t.freeUnlinked id).bind fun literal t =>
      match t.traffic.recordRemove with
      | .error f => .fail f { t with count := t.count - 1 }
      | .ok r => .ok literal { t with count := t.count - 1, traffic := r }

theorem onArena_eq {β : Type} (t : Table α) (f : Arena α → Outcome (Arena α) β) :
    t.onArena f = (f t.arena).mapState fun a => { t with arena := a } := rfl

theorem checkIndex_of_lt {t : Table α} {i : Nat} (h : i < t.size) : t.checkIndex i = .ok () := by
  simp [checkIndex, h]

theorem checkIndex_of_le {t : Table α} {i : Nat} (h : t.size ≤ i) :
    t.checkIndex i = .error (.indexOutOfRange i t.size) := by simp [checkIndex, Nat.not_lt.mpr h]

@[simp] theorem size_setHead (t : Table α) (i : Nat) (h : Option EntryId) :
    (t.setHead i h).size = t.size := by simp [size, setHead]

@[simp] theorem arena_setHead (t : Table α) (i : Nat) (h : Option EntryId) :
    (t.setHead i h).arena = t.arena := rfl

@[simp] theorem count_setHead (t : Table α) (i : Nat) (h : Option EntryId) :
    (t.setHead i h).count = t.count := rfl

@[simp] theorem size_store (t : Table α) (id : EntryId) (e : Entry α) :
    (t.store id e).size = t.size := rfl

@[simp] theorem arena_store (t : Table α) (id : EntryId) (e : Entry α) :
    (t.store id e).arena = t.arena.store id e := rfl

@[simp] theorem head_store (t : Table α) (id : EntryId) (e : Entry α) (i : Nat) :
    (t.store id e).head i = t.head i := rfl

theorem head_setHead_self {t : Table α} {i : Nat} (h : Option EntryId) (hi : i < t.size) :
    (t.setHead i h).head i = h := by
  simp only [size] at hi
  simp [head, setHead, hi]

theorem head_setHead_other {t : Table α} {i j : Nat} (h : Option EntryId) (hij : j ≠ i) :
    (t.setHead i h).head j = t.head j := by
  simp [head, setHead, Array.getElem?_setIfInBounds_ne (Ne.symm hij)]

theorem head_of_size_le {t : Table α} {i : Nat} (h : t.size ≤ i) : t.head i = none := by
  simp only [size] at h
  simp [head, Array.getElem?_eq_none h]

@[simp] theorem redirect_dead {t : Table α} {id : EntryId} (next : Option EntryId)
    (h : t.arena.get? id = none) : t.redirect id next = t := by simp [redirect, h]

theorem redirect_live {t : Table α} {id : EntryId} {e : Entry α} (next : Option EntryId)
    (h : t.arena.get? id = some e) : t.redirect id next = t.store id (e.redirect next) := by
  simp [redirect, h]

@[simp] theorem size_redirect (t : Table α) (id : EntryId) (next : Option EntryId) :
    (t.redirect id next).size = t.size := by
  simp only [redirect]
  split <;> simp

@[simp] theorem head_redirect (t : Table α) (id : EntryId) (next : Option EntryId) (i : Nat) :
    (t.redirect id next).head i = t.head i := by
  simp only [redirect]
  split <;> simp

end Table

end ChainedTable
