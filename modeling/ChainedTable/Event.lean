import ChainedTable.Table.Resize
import ChainedTable.Table.Verification

set_option autoImplicit false

/-!
What is reported while a table is used. Events are read off the states before and after an
operation, so the operations themselves carry no record.
-/

namespace ChainedTable

inductive Level where
  | error
  | warn
  | info
  | debug
  | trace
  deriving DecidableEq

/-- Lower is more severe. -/
def Level.rank : Level → Nat
  | error => 0
  | warn => 1
  | info => 2
  | debug => 3
  | trace => 4

def Level.name : Level → String
  | error => "ERROR"
  | warn => "WARN"
  | info => "INFO"
  | debug => "DEBUG"
  | trace => "TRACE"

inductive Event where
  | blockCarved (block entries bytes : Nat)
  | resizeRefused (tag : MemoryTag) (tableSize requested : Nat)
  | resized (tag : MemoryTag) (oldSize newSize entries : Nat)
  | growthDeclined (tableSize entries load : Nat)
  | verified (table : String) (report : Report) (entries tableSize : Nat)
  | bucketHash (bucket : Nat) (hash : UInt32)
  | bucketCount (bucket count : Nat)
  deriving DecidableEq

namespace Event

def level : Event → Level
  | resizeRefused .. => .warn
  | verified .. => .info
  | resized .. | bucketHash .. | bucketCount .. => .debug
  | blockCarved .. | growthDeclined .. => .trace

def field (name : String) (value : String) : String := " " ++ name ++ "=" ++ value

def countField (name : String) (n : Nat) : String := field name (toString n)

def message : Event → String
  | blockCarved block entries bytes =>
    "carving new entry block" ++ countField "block" block ++ countField "entries" entries
      ++ countField "bytes" bytes
  | resizeRefused tag tableSize requested =>
    "resize failed: cannot allocate buckets" ++ field "mem_tag" tag.name
      ++ countField "table_size" tableSize ++ countField "requested" requested
  | resized tag oldSize newSize entries =>
    "resized hashtable" ++ field "mem_tag" tag.name ++ countField "old_size" oldSize
      ++ countField "new_size" newSize ++ countField "entries" entries
  | growthDeclined tableSize entries load =>
    "below load factor, not growing" ++ countField "table_size" tableSize
      ++ countField "entries" entries ++ countField "load_factor" load
  | verified table report entries tableSize =>
    table ++ " max bucket size " ++ toString report.maxBucketCount ++ " bucket "
      ++ toString report.maxBucketIndex ++ " element count " ++ toString entries
      ++ " table size " ++ toString tableSize
  | bucketHash bucket hash => "bucket " ++ toString bucket ++ " hash " ++ hexWord hash
  | bucketCount bucket count => "bucket " ++ toString bucket ++ " count " ++ toString count

def text (e : Event) : String := e.level.name ++ " " ++ e.message

def heardAt (l : Level) (e : Event) : Bool := e.level.rank ≤ l.rank

end Event

variable {α : Type}

def Arena.blockEvents [SlotSize α] (a : Arena α) (known : Nat) : List Event :=
  (List.range' known (a.blocks.size - known)).map fun i =>
    let entries := a.blocks.getD i 0
    .blockCarved (i + 1) entries (entries * SlotSize.bytes α)

namespace Table

def resizeEvents (tag : MemoryTag) (oldSize entries size : Nat) :
    Except Fault (Except Refusal Unit) → List Event
  | .error _ => []
  | .ok (.ok ()) => [.resized tag oldSize size entries]
  | .ok (.error refusal) => refusal.requested.toList.map (.resizeRefused tag oldSize)

def chainEvents (index : Nat) (w : Walk α) : List Event :=
  if w.visited.isEmpty then []
  else w.visited.map (fun x => .bucketHash index x.2.hash) ++ [.bucketCount index w.visited.length]

def verifyEvents (t : Table α) (name : String) (report : Report) : List Event :=
  .verified name report t.count t.size ::
    if t.count = 0 then [] else t.walks.flatMap fun x => chainEvents x.1 x.2

end Table

end ChainedTable
