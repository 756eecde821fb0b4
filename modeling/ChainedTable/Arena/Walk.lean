import ChainedTable.Arena.Basic

set_option autoImplicit false

/-!
Walks along links, as data: the entries met and how the walk ends. Links may be bent into any
shape, so a walk has a bound; with one step more than there are slots, a walk that is still open
has met an entry twice and never ends.

What is read of a chain (its entries, their number, what a verification finds) is a function of its
walk.
-/

namespace ChainedTable

inductive Ending where
  /-- The last link is empty. -/
  | closed
  /-- The last link names a slot without an entry. -/
  | dead (id : EntryId)
  /-- The bound is used up. -/
  | unfinished
  deriving DecidableEq

def Ending.check : Ending → Except Fault Unit
  | .closed => .ok ()
  | .dead id => .error (.notAllocated id)
  | .unfinished => .error .endless

structure Walk (α : Type) where
  visited : List (EntryId × Entry α)
  ending : Ending

variable {α : Type}

def Walk.ids (w : Walk α) : List EntryId := w.visited.map Prod.fst

/-- Continues with `v` where `w` closes. -/
def Walk.append (w v : Walk α) : Walk α :=
  match w.ending with
  | .closed => ⟨w.visited ++ v.visited, v.ending⟩
  | _ => w

theorem Walk.append_closed {w : Walk α} (h : w.ending = .closed) (v : Walk α) :
    w.append v = ⟨w.visited ++ v.visited, v.ending⟩ := by simp [append, h]

theorem Walk.append_dead {w : Walk α} {id : EntryId} (h : w.ending = .dead id) (v : Walk α) :
    w.append v = w := by simp [append, h]

theorem Walk.append_of_check {w : Walk α} {f : Fault} (h : w.ending.check = .error f)
    (v : Walk α) : w.append v = w := by
  cases he : w.ending with
  | closed => simp [he, Ending.check] at h
  | dead id => simp [append, he]
  | unfinished => simp [append, he]

theorem Ending.check_eq_ok {e : Ending} : e.check = .ok () ↔ e = .closed := by
  cases e <;> simp [check]

theorem Walk.visited_append (w v : Walk α) :
    ∃ rest, (w.append v).visited = w.visited ++ rest := by
  cases he : w.ending with
  | closed => exact ⟨v.visited, by rw [append_closed he]⟩
  | dead id => exact ⟨[], by simp [append, he]⟩
  | unfinished => exact ⟨[], by simp [append, he]⟩

def Walk.flatten (ws : List (Walk α)) : Walk α := ws.foldr Walk.append ⟨[], .closed⟩

theorem Walk.flatten_cons (w : Walk α) (ws : List (Walk α)) :
    flatten (w :: ws) = w.append (flatten ws) := rfl

/-- The first `limit` entries, or the fault met before that many. -/
def Walk.take (w : Walk α) (limit : Nat) : Except Fault (List (EntryId × Entry α)) :=
  if limit ≤ w.visited.length then .ok (w.visited.take limit)
  else w.ending.check.map fun _ => w.visited

def Walk.predecessor? (w : Walk α) (id : EntryId) : Except Fault (Option EntryId) :=
  match w.visited.find? fun x => x.2.next = some id with
  | some x => .ok (some x.1)
  | none => w.ending.check.map fun _ => none

def Walk.meets (w : Walk α) (id : EntryId) : Except Fault Bool :=
  if id ∈ w.ids then .ok true else w.ending.check.map fun _ => false

def Arena.walkFrom (a : Arena α) : Nat → Option EntryId → List (EntryId × Entry α) → Walk α
  | _, none, seen => ⟨seen.reverse, .closed⟩
  | 0, some _, seen => ⟨seen.reverse, .unfinished⟩
  | bound + 1, some id, seen =>
    match a.get? id with
    | none => ⟨seen.reverse, .dead id⟩
    | some e => a.walkFrom bound e.next ((id, e) :: seen)

def Arena.walk (a : Arena α) (bound : Nat) (cursor : Option EntryId) : Walk α :=
  a.walkFrom bound cursor []

theorem Arena.walkFrom_eq (a : Arena α) (bound : Nat) (cursor : Option EntryId)
    (seen : List (EntryId × Entry α)) :
    a.walkFrom bound cursor seen =
      ⟨seen.reverse ++ (a.walk bound cursor).visited, (a.walk bound cursor).ending⟩ := by
  induction bound generalizing cursor seen with
  | zero => cases cursor <;> simp [walk, walkFrom]
  | succ bound ih =>
    cases cursor with
    | none => simp [walk, walkFrom]
    | some id =>
      cases h : a.get? id with
      | none => simp [walk, walkFrom, h]
      | some e =>
        have hs := ih e.next ((id, e) :: seen)
        have hn := ih e.next [(id, e)]
        simp [walk, walkFrom, h] at hs hn ⊢
        simp [hs, hn]

@[simp] theorem Arena.walk_none (a : Arena α) (bound : Nat) :
    a.walk bound none = ⟨[], .closed⟩ := by cases bound <;> rfl

@[simp] theorem Arena.walk_zero (a : Arena α) (id : EntryId) :
    a.walk 0 (some id) = ⟨[], .unfinished⟩ := rfl

theorem Arena.walk_live {a : Arena α} {id : EntryId} {e : Entry α} (bound : Nat)
    (h : a.get? id = some e) :
    a.walk (bound + 1) (some id) =
      ⟨(id, e) :: (a.walk bound e.next).visited, (a.walk bound e.next).ending⟩ := by
  have hn := a.walkFrom_eq bound e.next [(id, e)]
  simpa [walk, walkFrom, h] using hn

theorem Arena.walk_dead {a : Arena α} {id : EntryId} (bound : Nat) (h : a.get? id = none) :
    a.walk (bound + 1) (some id) = ⟨[], .dead id⟩ := by
  simp [walk, walkFrom, h]

theorem Arena.get?_of_mem_walk {a : Arena α} {bound : Nat} {cursor : Option EntryId}
    {x : EntryId × Entry α} (hx : x ∈ (a.walk bound cursor).visited) : a.get? x.1 = some x.2 := by
  induction bound generalizing cursor with
  | zero => cases cursor <;> simp at hx
  | succ bound ih =>
    cases cursor with
    | none => simp at hx
    | some id =>
      cases h : a.get? id with
      | none => simp [walk_dead bound h] at hx
      | some e =>
        rw [walk_live bound h, List.mem_cons] at hx
        rcases hx with rfl | hx
        · exact h
        · exact ih hx

def Arena.nextFree (a : Arena α) (id : EntryId) : Option EntryId :=
  match a.slots[id.index]? with
  | some (.free next) => next
  | _ => none

def Arena.freeListFrom (a : Arena α) : Nat → Option EntryId → List EntryId → List EntryId
  | 0, _, seen => seen.reverse
  | _, none, seen => seen.reverse
  | bound + 1, some id, seen => a.freeListFrom bound (a.nextFree id) (id :: seen)

/-- The free list, next to be used again first, cut after one item more than there are slots. -/
def Arena.freeList (a : Arena α) : List EntryId := a.freeListFrom (a.carved + 1) a.freeHead []

@[simp] theorem Arena.freeListFrom_none (a : Arena α) (bound : Nat) (seen : List EntryId) :
    a.freeListFrom bound none seen = seen.reverse := by cases bound <;> rfl

theorem Arena.freeListFrom_eq (a : Arena α) (bound : Nat) (cursor : Option EntryId)
    (seen : List EntryId) :
    a.freeListFrom bound cursor seen = seen.reverse ++ a.freeListFrom bound cursor [] := by
  induction bound generalizing cursor seen with
  | zero => simp [freeListFrom]
  | succ bound ih =>
    cases cursor with
    | none => simp
    | some id =>
      have hs := ih (a.nextFree id) (id :: seen)
      have hn := ih (a.nextFree id) [id]
      simp [freeListFrom, hs, hn]

theorem Arena.freeListFrom_some (a : Arena α) (bound : Nat) (id : EntryId) :
    a.freeListFrom (bound + 1) (some id) [] = id :: a.freeListFrom bound (a.nextFree id) [] := by
  have hn := a.freeListFrom_eq bound (a.nextFree id) [id]
  simpa [freeListFrom] using hn

end ChainedTable
