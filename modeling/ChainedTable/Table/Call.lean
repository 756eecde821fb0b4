import ChainedTable.Table.Insert

set_option autoImplicit false

namespace ChainedTable

inductive Call (α : Type) where
  | newEntry (hash : UInt32) (literal : α)
  | newSharedEntry (hash : UInt32) (literal : α)
  | addEntry (index : Nat) (id : EntryId)
  | setBucket (index : Nat) (head : Option EntryId)
  | setNext (id : EntryId) (next : Option EntryId)
  | increment
  | unlink (index : Nat) (id : EntryId)
  | freeEntry (id : EntryId)
  | freeUnlinked (id : EntryId)
  | setLiteral (id : EntryId) (literal : α)
  | resize (size : Nat)
  | maybeGrow (maxSize load : Nat)

inductive Reply (α : Type) where
  | done
  | made (id : EntryId)
  | answer (yes : Bool)
  | recycled (literal : α)
  | resized (result : Except Refusal Unit)

variable {α : Type}

namespace Table

def perform [SlotSize α] [Memory] (t : Table α) : Call α → Outcome (Table α) (Reply α)
  | .newEntry hash literal => (t.newEntry hash literal).map .made
  | .newSharedEntry hash literal => (t.newSharedEntry hash literal).map .made
  | .addEntry index id => (t.addEntry index id).map fun _ => .done
  | .setBucket index head => (t.setBucket index head).map fun _ => .done
  | .setNext id next => (t.setNext id next).map fun _ => .done
  | .increment => t.increment.map fun _ => .done
  | .unlink index id => (t.unlink index id).map .answer
  | .freeEntry id => (t.freeEntry id).map .recycled
  | .freeUnlinked id => (t.freeUnlinked id).map .recycled
  | .setLiteral id literal => (t.setLiteral id literal).map fun _ => .done
  | .resize size => (t.resize size).map .resized
  | .maybeGrow maxSize load => (t.maybeGrow maxSize load).map .answer

def run [SlotSize α] [Memory] (t : Table α) (calls : List (Call α)) : Table α :=
  calls.foldl (fun t c => (t.perform c).state) t

def results [SlotSize α] [Memory] (t : Table α) (calls : List (Call α)) :
    List (Except Fault (Reply α)) :=
  Outcome.results perform t calls

@[simp] theorem run_nil [SlotSize α] [Memory] (t : Table α) : t.run [] = t := rfl

theorem run_cons [SlotSize α] [Memory] (t : Table α) (c : Call α) (cs : List (Call α)) :
    t.run (c :: cs) = (t.perform c).state.run cs := rfl

theorem run_append [SlotSize α] [Memory] (t : Table α) (cs ds : List (Call α)) :
    t.run (cs ++ ds) = (t.run cs).run ds := Outcome.run_append perform t cs ds

theorem results_cons [SlotSize α] [Memory] (t : Table α) (c : Call α) (cs : List (Call α)) :
    t.results (c :: cs) = (t.perform c).result :: (t.perform c).state.results cs := rfl

end Table

end ChainedTable
