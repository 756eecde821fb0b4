import ChainedTable.Outcome
import ChainedTable.Statistics.Summary
import ChainedTable.Table.Chain

set_option autoImplicit false

namespace ChainedTable

def bytesPerBucket : Nat := bytesPerId

structure Statistics where
  /-- The lengths of the chains, one sample a bucket. -/
  summary : Summary
  literalBytes : Nat
  numberOfBuckets : Nat
  numberOfEntries : Nat
  bucketSize : Nat
  bucketBytes : Nat
  entrySize : Nat
  entryBytes : Nat
  totalFootprint : Nat
  addedItems : Nat
  removedItems : Nat
  addRate : Float
  removeRate : Float

variable {α : Type}

def askSizes (size : α → Nat) : List (Linked α) → Nat → Array α → Outcome (Array α) Nat
  | [], total, asked => .ok total asked
  | (_, e) :: rest, total, asked =>
    (Outcome.ofExcept (addWord total (size e.literal)) (asked.push e.literal)).bind
      (askSizes size rest)

/-- The fault of a count that follows a chain to its end. The count of a chain that has none passes
the word limit. -/
def Ending.checkCount : Ending → Except Fault Unit
  | .unfinished => .error .additionOverflow
  | ending => ending.check

def Table.askChains (t : Table α) (size : α → Nat) :
    List Nat → Summary → Nat → Array α → Outcome (Array α) (Summary × Nat)
  | [], summary, total, asked => .ok (summary, total) asked
  | index :: rest, summary, total, asked =>
    let w := t.walk index
    (askSizes size w.visited total asked).bind fun total asked =>
      (Outcome.ofExcept w.ending.checkCount asked).bind fun _ asked =>
        t.askChains size rest (summary.add (countFloat w.visited.length)) total asked

/-- The footprint behind a summary of chain lengths. Rates are per second, and a table has no
clock, so they are left at zero for the caller to set. -/
def Statistics.ofSummary (summary : Summary) (literalBytes entrySize : Nat) (traffic : Traffic) :
    Except Fault Statistics := do
  let entries := floatCount summary.sum
  let inBuckets ← mulWord summary.num bytesPerBucket
  let inEntries ← mulWord entries entrySize
  let withBuckets ← addWord literalBytes inBuckets
  let total ← addWord withBuckets inEntries
  return {
    summary
    literalBytes
    numberOfBuckets := summary.num
    numberOfEntries := entries
    bucketSize := bytesPerBucket
    bucketBytes := inBuckets
    entrySize
    entryBytes := inEntries
    totalFootprint := total
    addedItems := traffic.added
    removedItems := traffic.removed
    addRate := 0
    removeRate := 0 }

/-- The statistics, with the literals whose sizes were asked for in the order of asking. -/
def Table.askStatistics [SlotSize α] (t : Table α) (size : α → Nat) :
    Outcome (Array α) Statistics :=
  (t.askChains size (List.range t.size) .zero 0 #[]).bind fun sampled asked =>
    .ofExcept (Statistics.ofSummary sampled.1 sampled.2 (SlotSize.bytes α) t.traffic) asked

def Table.statistics [SlotSize α] (t : Table α) (size : α → Nat) : Except Fault Statistics :=
  (t.askStatistics size).result

end ChainedTable
