import ChainedTable.Arena.Walk

set_option autoImplicit false

namespace ChainedTable

variable {α : Type}

namespace Arena

inductive Call (α : Type) where
  | allocate (hash : UInt32) (literal : α) (sizing : Sizing)
  | free (id : EntryId)
  | get (id : EntryId)
  | getMut (id : EntryId) (f : Entry α → Entry α)
  /-- Like `get`, for an id that has to be live. -/
  | index (id : EntryId)
  | indexMut (id : EntryId) (f : Entry α → Entry α)

inductive Reply (α : Type) where
  | made (id : EntryId)
  | recycled (literal : α)
  /-- The entry as it was found, before a borrower came to it. -/
  | found (entry : Option (Entry α))
  deriving DecidableEq

def perform [SlotSize α] (a : Arena α) : Call α → Outcome (Arena α) (Reply α)
  | .allocate hash literal z => (a.allocate hash literal z).map .made
  | .free id => (a.free id).map .recycled
  | .get id => .ok (.found (a.get? id)) a
  | .getMut id f => .ok (.found (a.get? id)) (a.update id f).state
  | .index id => .ofExcept ((a.entry id).map fun e => .found (some e)) a
  | .indexMut id f => (a.update id f).map fun _ => .found (a.get? id)

def run [SlotSize α] (a : Arena α) (cs : List (Call α)) : Arena α := Outcome.run perform a cs

def results [SlotSize α] (a : Arena α) (cs : List (Call α)) : List (Except Fault (Reply α)) :=
  Outcome.results perform a cs

def Call.allocates : Call α → Bool
  | .allocate _ _ _ => true
  | _ => false

def Call.frees : Call α → Bool
  | .free _ => true
  | _ => false

section
variable [SlotSize α] (a : Arena α) (c : Call α) (cs : List (Call α))

@[simp] theorem run_nil : a.run [] = a := rfl

theorem run_cons : a.run (c :: cs) = (a.perform c).state.run cs := rfl

theorem results_cons :
    a.results (c :: cs) = (a.perform c).result :: (a.perform c).state.results cs := rfl

end

section
variable [SlotSize α] (a : Arena α) (id : EntryId)

theorem perform_get : a.perform (.get id) = a.perform (.getMut id fun e => e) := by
  cases he : a.get? id with
  | none => simp [perform, update, he]
  | some e => simp [perform, update, he, store_get? he]

theorem perform_index : a.perform (.index id) = a.perform (.indexMut id fun e => e) := by
  cases he : a.get? id with
  | none => simp [perform, update, entry, he, Except.map]
  | some e => simp [perform, update, entry, he, store_get? he, Except.map]

/-- What a call leaves that neither allocates nor frees is the work of a borrower. -/
theorem state_perform (c : Call α) :
    (∃ h x z, c = .allocate h x z) ∨ (∃ id, c = .free id) ∨
      c.allocates = false ∧ c.frees = false ∧
        ∃ id f, (a.perform c).state = (a.update id f).state := by
  cases c with
  | allocate h x z => exact .inl ⟨h, x, z, rfl⟩
  | free id => exact .inr (.inl ⟨id, rfl⟩)
  | get id => exact .inr (.inr ⟨rfl, rfl, id, fun e => e, by rw [perform_get]; rfl⟩)
  | getMut id f => exact .inr (.inr ⟨rfl, rfl, id, f, rfl⟩)
  | index id => exact .inr (.inr ⟨rfl, rfl, id, fun e => e, by rw [perform_index]; simp [perform]⟩)
  | indexMut id f => exact .inr (.inr ⟨rfl, rfl, id, f, by simp [perform]⟩)

end

end Arena

end ChainedTable
