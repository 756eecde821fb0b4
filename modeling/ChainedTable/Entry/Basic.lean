import ChainedTable.Entry.Link

set_option autoImplicit false

namespace ChainedTable

structure Entry (α : Type) where
  hash : UInt32
  link : Link
  literal : α
  deriving DecidableEq

variable {α : Type}

def Entry.fresh (hash : UInt32) (literal : α) : Entry α := ⟨hash, .ofNext none, literal⟩

def Entry.next (e : Entry α) : Option EntryId := e.link.next

def Entry.isShared (e : Entry α) : Bool := e.link.isShared

/-- Overwrites the whole link word, which clears the shared flag. -/
def Entry.setLink (e : Entry α) (next : Option EntryId) : Entry α := { e with link := .ofNext next }

def Entry.setShared (e : Entry α) : Entry α := { e with link := e.link.setShared }

def Entry.redirect (e : Entry α) (next : Option EntryId) : Entry α :=
  { e with link := e.link.redirect next }

def Entry.setLiteral (e : Entry α) (literal : α) : Entry α := { e with literal := literal }

@[simp] theorem Entry.hash_fresh (h : UInt32) (x : α) : (fresh h x).hash = h := rfl
@[simp] theorem Entry.literal_fresh (h : UInt32) (x : α) : (fresh h x).literal = x := rfl
@[simp] theorem Entry.next_fresh (h : UInt32) (x : α) : (fresh h x).next = none := by
  simp [fresh, next]
@[simp] theorem Entry.isShared_fresh (h : UInt32) (x : α) : (fresh h x).isShared = false := by
  simp [fresh, isShared]

@[simp] theorem Entry.hash_setShared (e : Entry α) : e.setShared.hash = e.hash := rfl
@[simp] theorem Entry.literal_setShared (e : Entry α) : e.setShared.literal = e.literal := rfl
@[simp] theorem Entry.next_setShared (e : Entry α) : e.setShared.next = e.next := by
  simp [setShared, next]
@[simp] theorem Entry.isShared_setShared (e : Entry α) : e.setShared.isShared = true := by
  simp [setShared, isShared]

@[simp] theorem Entry.next_setLink (e : Entry α) (n : Option EntryId) :
    (e.setLink n).next = n := by simp [setLink, next]
@[simp] theorem Entry.isShared_setLink (e : Entry α) (n : Option EntryId) :
    (e.setLink n).isShared = false := by simp [setLink, isShared]

@[simp] theorem Entry.hash_redirect (e : Entry α) (n : Option EntryId) :
    (e.redirect n).hash = e.hash := rfl
@[simp] theorem Entry.literal_redirect (e : Entry α) (n : Option EntryId) :
    (e.redirect n).literal = e.literal := rfl
@[simp] theorem Entry.next_redirect (e : Entry α) (n : Option EntryId) :
    (e.redirect n).next = n := by simp [redirect, next]
@[simp] theorem Entry.isShared_redirect (e : Entry α) (n : Option EntryId) :
    (e.redirect n).isShared = e.isShared := by simp [redirect, isShared]

@[simp] theorem Entry.hash_setLiteral (e : Entry α) (x : α) : (e.setLiteral x).hash = e.hash := rfl
@[simp] theorem Entry.literal_setLiteral (e : Entry α) (x : α) :
    (e.setLiteral x).literal = x := rfl
@[simp] theorem Entry.next_setLiteral (e : Entry α) (x : α) : (e.setLiteral x).next = e.next := rfl
@[simp] theorem Entry.isShared_setLiteral (e : Entry α) (x : α) :
    (e.setLiteral x).isShared = e.isShared := rfl

theorem Entry.ext_reading {a b : Entry α} (hh : a.hash = b.hash) (hn : a.next = b.next)
    (hs : a.isShared = b.isShared) (hl : a.literal = b.literal) : a = b := by
  have : a.link = b.link := Link.ext_iff_reading.mpr ⟨hn, hs⟩
  cases a
  cases b
  simp_all

end ChainedTable
