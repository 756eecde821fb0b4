import ChainedTable.Entry.Id
import ChainedTable.Text.Hex

set_option autoImplicit false

namespace ChainedTable

inductive Defect where
  | rejected (id : EntryId) (bucket : Nat)
  | misplaced (id : EntryId) (hash : UInt32) (bucket expected : Nat)
  | cyclic (bucket : Nat)
  | miscounted (counted linked : Nat)
  deriving DecidableEq

def Defect.message : Defect → String
  | .rejected id bucket =>
    "literal of " ++ id.text ++ " in bucket " ++ toString bucket ++ " rejected"
  | .misplaced id hash bucket expected =>
    id.text ++ " with hash " ++ hexWord hash ++ " linked in bucket " ++ toString bucket
      ++ ", expected " ++ toString expected
  | .cyclic bucket => "chain " ++ toString bucket ++ " is cyclic"
  | .miscounted counted linked =>
    "number_of_entries is " ++ toString counted ++ " but " ++ toString linked
      ++ " entries are linked"

inductive Fault where
  | notAllocated (id : EntryId)
  | neverAllocated (id : EntryId)
  | freedTwice (id : EntryId)
  | sharedFreed (id : EntryId)
  /-- The head of the free list is a slot that holds an entry. -/
  | freeListOccupied (id : EntryId)
  /-- The head of the free list is no slot at all. -/
  | slotOutOfBounds (index carved : Nat)
  | slotLimit (index : Nat)
  | indexOutOfRange (index tableSize : Nat)
  | noBuckets
  | nothingCounted
  | capacityOverflow
  /-- There is no memory for the first buckets, which ends the program. -/
  | outOfMemory (bytes : Nat)
  | additionOverflow
  | subtractionOverflow
  | multiplicationOverflow
  | verification (table : String) (defect : Defect)
  | writeRefused
  /-- A walk over links that never ends. -/
  | endless
  deriving DecidableEq

def Fault.message : Fault → String
  | .notAllocated id => "entry " ++ id.text ++ " is not allocated"
  | .neverAllocated id => "entry " ++ id.text ++ " was never allocated"
  | .freedTwice id => "entry " ++ id.text ++ " freed twice"
  | .sharedFreed id => "shared entry " ++ id.text ++ " must not be freed"
  | .freeListOccupied id =>
    "internal error: entered unreachable code: free list points at occupied slot " ++ id.text
  | .slotOutOfBounds index carved =>
    "index out of bounds: the len is " ++ toString carved ++ " but the index is " ++ toString index
  | .slotLimit index =>
    "entry index " ++ toString index ++ " exceeds arena limit of " ++ toString maxEntries
      ++ " slots"
  | .indexOutOfRange index tableSize =>
    "bucket index " ++ toString index ++ " out of range for table size " ++ toString tableSize
  | .noBuckets => "hashtable needs at least one bucket"
  | .nothingCounted => "free_entry on a table with no counted entries"
  | .capacityOverflow => "capacity overflow"
  | .outOfMemory bytes => "memory allocation of " ++ toString bytes ++ " bytes failed"
  | .additionOverflow => "attempt to add with overflow"
  | .subtractionOverflow => "attempt to subtract with overflow"
  | .multiplicationOverflow => "attempt to multiply with overflow"
  | .verification table defect => "Verify of " ++ table ++ " failed: " ++ defect.message
  | .writeRefused => "an error occurred when formatting an argument"
  | .endless => "chain walk does not end"

end ChainedTable
