import ChainedTable.Table.Chain

set_option autoImplicit false

/-!
Verification: every linked literal is shown to a hook, every entry must be on the chain of its
hash, and the entries linked must be the entries counted. More links than live entries mean a chain
that runs in a circle, so the walks are cut by the live entries that are not yet accounted for.

A verification is a function of the walks of a table and changes nothing. Its outcome carries the
literals shown so far, also when it fails.
-/

namespace ChainedTable

structure Report where
  elementCount : Nat
  maxBucketCount : Nat
  /-- The first bucket of the greatest length. -/
  maxBucketIndex : Nat
  deriving DecidableEq

def Report.zero : Report := ⟨0, 0, 0⟩

def Report.add (r : Report) (index length : Nat) : Report where
  elementCount := r.elementCount + length
  maxBucketCount := max r.maxBucketCount length
  maxBucketIndex := if r.maxBucketCount < length then index else r.maxBucketIndex

/-- The answer to a literal after the literals shown before it. -/
abbrev Hook (α : Type) := Array α → α → Bool

variable {α : Type}

namespace Table

/-- Checks entries of chain `index`; `remaining` is how many more there may be. -/
def inspect (t : Table α) (hook : Hook α) (index : Nat) :
    Nat → List (Linked α) → Array α → Except Defect Unit × Array α
  | _, [], shown => (.ok (), shown)
  | remaining, (id, e) :: rest, shown =>
    let answer := hook shown e.literal
    let shown := shown.push e.literal
    let expected := t.hashToIndex e.hash
    if !answer then (.error (.rejected id index), shown)
    else if expected ≠ index then (.error (.misplaced id e.hash index expected), shown)
    else
      match remaining with
      | 0 => (.error (.cyclic index), shown)
      | remaining + 1 => t.inspect hook index remaining rest shown

def inspectChains (t : Table α) (name : String) (hook : Hook α) :
    List Nat → Report → Array α → Outcome (Array α) Report
  | [], report, shown => .ok report shown
  | index :: rest, report, shown =>
    let w := t.walk index
    match t.inspect hook index (t.arena.liveCount - report.elementCount) w.visited shown with
    | (.error defect, shown) => .fail (.verification name defect) shown
    | (.ok (), shown) =>
      match w.ending.check with
      | .error fault => .fail fault shown
      | .ok () => t.inspectChains name hook rest (report.add index w.visited.length) shown

def verifyWith (t : Table α) (name : String) (hook : Hook α) : Outcome (Array α) Report :=
  (t.inspectChains name hook (List.range t.size) .zero #[]).bind fun report shown =>
    if t.count = report.elementCount then .ok report shown
    else .fail (.verification name (.miscounted t.count report.elementCount)) shown

def verify (t : Table α) (name : String) (accept : α → Bool) : Outcome (Array α) Report :=
  t.verifyWith name fun _ => accept

end Table

end ChainedTable
