import ChainedTable.Table.Resize

set_option autoImplicit false

namespace ChainedTable

variable {α : Type}

namespace Table

def insert [SlotSize α] (t : Table α) (hash : UInt32) (literal : α) :
    Outcome (Table α) EntryId :=
  (t.newEntry hash literal).bind fun id t =>
    (t.addEntry (t.hashToIndex hash) id).map fun _ => id

def insertShared [SlotSize α] (t : Table α) (hash : UInt32) (literal : α) :
    Outcome (Table α) EntryId :=
  (t.newSharedEntry hash literal).bind fun id t =>
    (t.addEntry (t.hashToIndex hash) id).map fun _ => id

/-- The literal of `id` if it was on the chain of its hash. -/
def remove (t : Table α) (id : EntryId) : Outcome (Table α) (Option α) :=
  match t.entry id with
  | .error f => .fail f t
  | .ok e =>
    (t.unlink (t.hashToIndex e.hash) id).bind fun found t =>
      if found then (t.freeEntry id).map some else .ok none t

end Table

end ChainedTable
