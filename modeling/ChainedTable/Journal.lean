import ChainedTable.Event
import ChainedTable.Machine
import ChainedTable.Table.Call

set_option autoImplicit false

namespace ChainedTable

structure Journal (α : Type) where
  table : Table α
  events : Array Event

variable {α β : Type}

namespace Journal

def start (t : Table α) : Journal α := ⟨t, #[]⟩

def run [SlotSize α] (j : Journal α) (f : Table α → Outcome (Table α) β) :
    Outcome (Journal α) β :=
  match j with
  | ⟨t, events⟩ =>
    let known := t.arena.blocks.size
    (f t).mapState fun t => ⟨t, events ++ t.arena.blockEvents known⟩

def resize [Memory] (j : Journal α) (size : Nat) : Outcome (Journal α) (Except Refusal Unit) :=
  match j with
  | ⟨t, events⟩ =>
    let note := Table.resizeEvents t.tag t.size t.count size
    let o := t.resize size
    o.mapState fun t => ⟨t, events ++ note o.result⟩

def maybeGrow [Memory] (j : Journal α) (maxSize load : Nat) : Outcome (Journal α) Bool :=
  match j.table.growth maxSize load with
  | .atLimit => .ok false j
  | .belowLoad =>
    let declined := .growthDeclined j.table.size j.table.count load
    .ok false { j with events := j.events.push declined }
  | .growTo size => (j.resize size).map fun _ => true

def perform [SlotSize α] [Memory] (j : Journal α) : Call α → Outcome (Journal α) (Reply α)
  | .resize size => (j.resize size).map .resized
  | .maybeGrow maxSize load => (j.maybeGrow maxSize load).map .answer
  | call => j.run fun t => t.perform call

def verify (j : Journal α) (name : String) (accept : α → Bool) :
    Outcome (Journal α) (Report × Nat) :=
  match j.table.verify name accept with
  | .fail fault _ => .fail fault j
  | .ok report shown =>
    .ok (report, shown.size) { j with events := j.events ++ j.table.verifyEvents name report }

structure Filled where
  first : Option EntryId
  last : Option EntryId
  grown : Nat

def Filled.none : Filled := ⟨.none, .none, 0⟩

def Filled.add (f : Filled) (id : EntryId) (grew : Bool) : Filled :=
  ⟨f.first.or (some id), some id, if grew then f.grown + 1 else f.grown⟩

/-- Inserts a literal for every hash and, where `grow` gives a greatest size and a load, lets the
table grow after each. -/
def fill [SlotSize α] [Memory] (literalOf : UInt32 → α) (grow : Option (Nat × Nat)) :
    List UInt32 → Filled → Journal α → Outcome (Journal α) Filled
  | [], filled, j => .ok filled j
  | hash :: rest, filled, j =>
    (j.run fun t => t.insert hash (literalOf hash)).bind fun id j =>
      match grow with
      | none => fill literalOf grow rest (filled.add id false) j
      | some (maxSize, load) =>
        (j.maybeGrow maxSize load).bind fun grew j =>
          fill literalOf grow rest (filled.add id grew) j

theorem table_run [SlotSize α] (j : Journal α) (f : Table α → Outcome (Table α) β) :
    (j.run f).state.table = (f j.table).state := by
  cases j
  simp [run]

theorem result_run [SlotSize α] (j : Journal α) (f : Table α → Outcome (Table α) β) :
    (j.run f).result = (f j.table).result := by
  cases j
  simp [run]

theorem table_resize [Memory] (j : Journal α) (size : Nat) :
    (j.resize size).state.table = (j.table.resize size).state := by
  cases j
  simp [resize]

end Journal

end ChainedTable
