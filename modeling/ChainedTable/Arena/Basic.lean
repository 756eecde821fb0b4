import ChainedTable.Arena.Block
import ChainedTable.Entry.Basic
import ChainedTable.Outcome

set_option autoImplicit false

/-!
The arena: entries in one growing array of slots, reserved a block at a time. Free slots are
threaded into a list through their own links and are used again, last freed first, before a new
slot is carved.

`Arena.get?` is the view through which operations are described; `Arena.get?_store` says what
writing a slot does to it.
-/

namespace ChainedTable

inductive Slot (α : Type) where
  | occupied (entry : Entry α)
  | free (next : Option EntryId)
  deriving DecidableEq

structure Arena (α : Type) where
  slots : Array (Slot α)
  /-- The slot that is used again first. -/
  freeHead : Option EntryId
  freeCount : Nat
  /-- Slots below this bound belong to a reserved block. -/
  reserved : Nat
  /-- Entries per block, in the order of reservation. -/
  blocks : Array Nat
  deriving DecidableEq

variable {α : Type}

def Slot.entry? : Slot α → Option (Entry α)
  | .occupied e => some e
  | .free _ => none

def Slot.isFree : Slot α → Bool
  | .occupied _ => false
  | .free _ => true

namespace Arena

def empty : Arena α := ⟨#[], none, 0, 0, #[]⟩

/-- Slots carved so far, with an entry or free. -/
def carved (a : Arena α) : Nat := a.slots.size

def liveCount (a : Arena α) : Nat := a.slots.size - a.freeCount

def isEmpty (a : Arena α) : Bool := a.liveCount == 0

def reservedBytes [SlotSize α] (a : Arena α) : Nat := a.reserved * SlotSize.bytes α

def get? (a : Arena α) (id : EntryId) : Option (Entry α) := a.slots[id.index]?.bind Slot.entry?

def entry (a : Arena α) (id : EntryId) : Except Fault (Entry α) :=
  match a.get? id with
  | some e => .ok e
  | none => .error (.notAllocated id)

def store (a : Arena α) (id : EntryId) (e : Entry α) : Arena α :=
  { a with slots := a.slots.setIfInBounds id.index (.occupied e) }

def update (a : Arena α) (id : EntryId) (f : Entry α → Entry α) : Outcome (Arena α) Unit :=
  match a.get? id with
  | some e => .ok () (a.store id (f e))
  | none => .fail (.notAllocated id) a

def reuse (a : Arena α) (id : EntryId) (e : Entry α) : Outcome (Arena α) EntryId :=
  match a.slots[id.index]? with
  | none => .fail (.slotOutOfBounds id.index a.slots.size) a
  | some (.occupied _) => .fail (.freeListOccupied id) a
  | some (.free next) =>
    let popped := { a.store id e with freeHead := next }
    if a.freeCount = 0 then .fail .subtractionOverflow popped
    else .ok id { popped with freeCount := popped.freeCount - 1 }

def reserveBlock [SlotSize α] (a : Arena α) (z : Sizing) : Outcome (Arena α) Unit :=
  match blockEntries (SlotSize.bytes α) z with
  | .error f => .fail f a
  | .ok n =>
    match addWord a.reserved n with
    | .error f => .fail f a
    | .ok reserved => .ok () { a with reserved := reserved, blocks := a.blocks.push n }

def carve [SlotSize α] (a : Arena α) (e : Entry α) (z : Sizing) : Outcome (Arena α) EntryId :=
  (if a.slots.size < a.reserved then .ok () a else a.reserveBlock z).bind fun _ a =>
    match EntryId.ofIndex? a.slots.size with
    | none => .fail (.slotLimit a.slots.size) a
    | some id => .ok id { a with slots := a.slots.push (.occupied e) }

def allocate [SlotSize α] (a : Arena α) (hash : UInt32) (literal : α) (z : Sizing) :
    Outcome (Arena α) EntryId :=
  match a.freeHead with
  | some id => a.reuse id (.fresh hash literal)
  | none => a.carve (.fresh hash literal) z

/-- Puts a slot on the free list and hands back its literal. A slot that is free already has its
own link overwritten before the fault is raised. -/
def free (a : Arena α) (id : EntryId) : Outcome (Arena α) α :=
  match a.slots[id.index]? with
  | none => .fail (.neverAllocated id) a
  | some (.occupied e) =>
    if e.isShared then .fail (.sharedFreed id) a
    else
      .ok e.literal
        { a with
          slots := a.slots.setIfInBounds id.index (.free a.freeHead)
          freeHead := some id
          freeCount := a.freeCount + 1 }
  | some (.free _) =>
    .fail (.freedTwice id) { a with slots := a.slots.setIfInBounds id.index (.free a.freeHead) }

theorem get?_eq_some {a : Arena α} {id : EntryId} {e : Entry α} :
    a.get? id = some e ↔ a.slots[id.index]? = some (.occupied e) := by
  simp only [get?]
  cases h : a.slots[id.index]? with
  | none => simp
  | some s => cases s <;> simp [Slot.entry?]

theorem index_lt_of_get? {a : Arena α} {id : EntryId} {e : Entry α} (h : a.get? id = some e) :
    id.index < a.carved := by
  rw [get?_eq_some, Array.getElem?_eq_some_iff] at h
  exact h.1

@[simp] theorem get?_empty (id : EntryId) : (empty : Arena α).get? id = none := by
  simp [empty, get?]

theorem get?_store_self {a : Arena α} {id : EntryId} (e : Entry α) (h : id.index < a.carved) :
    (a.store id e).get? id = some e := by
  rw [get?_eq_some]
  simp only [store, carved] at *
  simp [h]

theorem get?_store_other {a : Arena α} {id i : EntryId} (e : Entry α) (h : i ≠ id) :
    (a.store id e).get? i = a.get? i := by
  have hne : id.index ≠ i.index := fun he => h (EntryId.index_inj.mp he).symm
  simp [get?, store, Array.getElem?_setIfInBounds_ne hne]

theorem get?_store {a : Arena α} {id i : EntryId} (e : Entry α) (h : id.index < a.carved) :
    (a.store id e).get? i = if i = id then some e else a.get? i := by
  split
  · rename_i hi
    rw [hi, get?_store_self e h]
  · rename_i hi
    exact get?_store_other e hi

@[simp] theorem carved_store (a : Arena α) (id : EntryId) (e : Entry α) :
    (a.store id e).carved = a.carved := by simp [store, carved]

@[simp] theorem freeHead_store (a : Arena α) (id : EntryId) (e : Entry α) :
    (a.store id e).freeHead = a.freeHead := rfl

@[simp] theorem freeCount_store (a : Arena α) (id : EntryId) (e : Entry α) :
    (a.store id e).freeCount = a.freeCount := rfl

@[simp] theorem blocks_store (a : Arena α) (id : EntryId) (e : Entry α) :
    (a.store id e).blocks = a.blocks := rfl

@[simp] theorem reserved_store (a : Arena α) (id : EntryId) (e : Entry α) :
    (a.store id e).reserved = a.reserved := rfl

theorem store_get? {a : Arena α} {id : EntryId} {e : Entry α} (h : a.get? id = some e) :
    a.store id e = a := by
  rw [get?_eq_some] at h
  have : a.slots.setIfInBounds id.index (.occupied e) = a.slots := by
    apply Array.ext_getElem?
    intro i
    by_cases hi : id.index = i
    · subst hi
      rw [Array.getElem?_setIfInBounds_self, h]
      simp only [Array.getElem?_eq_some_iff] at h
      simp [h.1]
    · rw [Array.getElem?_setIfInBounds_ne hi]
  simp only [store, this]

end Arena

end ChainedTable
