import ChainedTable.Table.Chain
import ChainedTable.Text.Sink

set_option autoImplicit false

/-!
The listing of a table: a line for every linked entry, with its bucket and the text of its literal.
A printer writes the text in pieces. What it was called for is kept beside what was written, and
both are known after a fault as well.
-/

namespace ChainedTable

variable {α : Type}

structure Printer (α : Type) where
  /-- The pieces of the text of a literal, in the order in which they are written. -/
  pieces : α → List String
  /-- The literals on which the printer fails before it writes. -/
  refuses : α → Bool

namespace Printer

def text (p : Printer α) (literal : α) : String := String.join (p.pieces literal)

def textOf (p : Printer α) (literal : α) : Option String :=
  if p.refuses literal then none else some (p.text literal)

def whole (textOf : α → Option String) : Printer α where
  pieces literal := (textOf literal).toList
  refuses literal := (textOf literal).isNone

end Printer

def Sink.writeAll (s : Sink) : List String → Outcome Sink Unit
  | [] => .ok () s
  | piece :: rest => (s.write piece).bind fun _ s => s.writeAll rest

structure Transcript (α : Type) where
  sink : Sink
  /-- The literals that the printer was called for. -/
  called : Array α

namespace Transcript

def start (limit : Option Nat) : Transcript α := ⟨.empty limit, #[]⟩

def write (r : Transcript α) (pieces : List String) : Outcome (Transcript α) Unit :=
  (r.sink.writeAll pieces).mapState fun s => { r with sink := s }

def call (r : Transcript α) (p : Printer α) (literal : α) : Outcome (Transcript α) Unit :=
  let r := { r with called := r.called.push literal }
  if p.refuses literal then .fail .writeRefused r else r.write (p.pieces literal)

def writeLine (r : Transcript α) (p : Printer α) (index : Nat) (literal : α) :
    Outcome (Transcript α) Unit :=
  (r.write [toString index, " : "]).bind fun _ r =>
    (r.call p literal).bind fun _ r => r.write ["\n"]

end Transcript

namespace Table

/-- More lines than a chain that ends can have, and more than the limit has bytes: a chain that is
cut after them never ends, and nothing but its end would have stopped the listing. -/
def listingBound (t : Table α) (limit : Option Nat) : Nat := t.walkBound + limit.getD 0

def transcribeChain (t : Table α) (p : Printer α) (index : Nat) :
    Nat → Option EntryId → Transcript α → Outcome (Transcript α) Unit
  | _, none, r => .ok () r
  | 0, some _, r => .fail .endless r
  | bound + 1, some id, r =>
    match t.arena.get? id with
    | none => .fail (.notAllocated id) r
    | some e =>
      (r.writeLine p index e.literal).bind fun _ r => t.transcribeChain p index bound e.next r

def transcribeChains (t : Table α) (p : Printer α) :
    List Nat → Transcript α → Outcome (Transcript α) Unit
  | [], r => .ok () r
  | index :: rest, r =>
    (t.transcribeChain p index (t.listingBound r.sink.limit) (t.head index) r).bind fun _ r =>
      t.transcribeChains p rest r

def transcribe (t : Table α) (p : Printer α) (limit : Option Nat) : Outcome (Transcript α) Unit :=
  t.transcribeChains p (List.range t.size) (.start limit)

def print (t : Table α) (textOf : α → Option String) (s : Sink) : Outcome Sink Unit :=
  (t.transcribeChains (.whole textOf) (List.range t.size) ⟨s, #[]⟩).mapState Transcript.sink

end Table

end ChainedTable
