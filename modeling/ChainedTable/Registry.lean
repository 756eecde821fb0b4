import ChainedTable.Table.Insert

set_option autoImplicit false

namespace ChainedTable

structure GrowthPolicy where
  maxSize : Nat
  load : Nat

variable {α : Type} [DecidableEq α]

namespace Table

def lookup (t : Table α) (hash : UInt32) (literal : α) : Except Fault (Option EntryId) :=
  let w := t.walk (t.hashToIndex hash)
  match w.visited.find? fun x => x.2.hash = hash ∧ x.2.literal = literal with
  | some x => .ok (some x.1)
  | none => w.ending.check.map fun _ => none

def register [Memory] (t : Table α) (p : GrowthPolicy) (hash : UInt32) (id : EntryId) :
    Outcome (Table α) EntryId :=
  (t.addEntry (t.hashToIndex hash) id).bind fun _ t =>
    (t.maybeGrow p.maxSize p.load).map fun _ => id

def intern [SlotSize α] [Memory] (t : Table α) (p : GrowthPolicy) (hash : UInt32) (literal : α) :
    Outcome (Table α) EntryId :=
  (Outcome.ofExcept (t.lookup hash literal) t).bind fun found t =>
    match found with
    | some id => .ok id t
    | none => (t.newEntry hash literal).bind fun id t => t.register p hash id

/-- Like `intern`, for a caller that makes the entry before it looks; one too many is recycled. -/
def internCandidate [SlotSize α] [Memory] (t : Table α) (p : GrowthPolicy) (hash : UInt32)
    (literal : α) : Outcome (Table α) EntryId :=
  (t.newEntry hash literal).bind fun candidate t =>
    (Outcome.ofExcept (t.lookup hash literal) t).bind fun found t =>
      match found with
      | some id => (t.freeUnlinked candidate).map fun _ => id
      | none => t.register p hash candidate

def unintern (t : Table α) (hash : UInt32) (literal : α) : Outcome (Table α) (Option α) :=
  (Outcome.ofExcept (t.lookup hash literal) t).bind fun found t =>
    match found with
    | some id => t.remove id
    | none => .ok none t

end Table

end ChainedTable
