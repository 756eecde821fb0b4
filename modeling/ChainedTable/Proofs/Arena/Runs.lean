import ChainedTable.Arena.Call
import ChainedTable.Proofs.Arena.Accounting

set_option autoImplicit false

namespace ChainedTable

namespace Arena

variable {α : Type} {a : Arena α} {c : Call α} {cs : List (Call α)} {free : List EntryId}

/-- The call frees no id that is on the free list. -/
def Spares (a : Arena α) : Call α → Prop
  | .free id => id ∉ a.freeList
  | _ => True

def Careful [SlotSize α] : Arena α → List (Call α) → Prop
  | _, [] => True
  | a, c :: cs => a.Spares c ∧ (a.perform c).state.Careful cs

instance (a : Arena α) : (c : Call α) → Decidable (a.Spares c)
  | .free id => inferInstanceAs (Decidable (id ∉ a.freeList))
  | .allocate _ _ _ => inferInstanceAs (Decidable True)
  | .get _ => inferInstanceAs (Decidable True)
  | .getMut _ _ => inferInstanceAs (Decidable True)
  | .index _ => inferInstanceAs (Decidable True)
  | .indexMut _ _ => inferInstanceAs (Decidable True)

instance decidableCareful [SlotSize α] :
    (a : Arena α) → (cs : List (Call α)) → Decidable (a.Careful cs)
  | _, [] => inferInstanceAs (Decidable True)
  | a, c :: cs =>
    have := decidableCareful (a.perform c).state cs
    inferInstanceAs (Decidable (a.Spares c ∧ (a.perform c).state.Careful cs))

theorem careful_of_not_frees [SlotSize α] (h : ∀ c ∈ cs, c.frees = false) : a.Careful cs := by
  induction cs generalizing a with
  | nil => trivial
  | cons c cs ih =>
    obtain ⟨hc, hcs⟩ := List.forall_mem_cons.mp h
    refine ⟨?_, ih hcs⟩
    cases c with
    | free id => simp [Call.frees] at hc
    | _ => trivial

theorem Threaded.not_mem (ht : a.Threaded free) {id : EntryId} (hid : a.Spares (.free id)) :
    a.freeLink id = none := by
  have hnot : id ∉ free := by rwa [← freeList_of_path ht.path]
  cases hl : a.freeLink id with
  | none => rfl
  | some next => exact absurd (ht.all id (by simp [hl])) hnot

theorem Threaded.free_state (ht : a.Threaded free) {id : EntryId} (hid : a.freeLink id = none) :
    ∃ free', (a.free id).state.Threaded free' := by
  rcases a.free_cases id with ⟨f, hf⟩ | ⟨e, he, -, hok⟩ | ⟨next, hl, -⟩
  · exact ⟨free, by rwa [hf]⟩
  · exact ⟨id :: free, by rw [hok]; exact ht.released he⟩
  · simp [hid] at hl

section
variable [SlotSize α]

theorem Accounted.perform (h : a.Accounted) (c : Call α) : (a.perform c).state.Accounted := by
  rcases a.state_perform c with ⟨hash, x, z, rfl⟩ | ⟨id, rfl⟩ | ⟨-, -, id, f, hs⟩
  · simpa [Arena.perform] using h.allocate hash x z
  · simpa [Arena.perform] using h.free id
  · rw [hs]
    exact h.update id f

theorem Accounted.run (h : a.Accounted) (cs : List (Call α)) : (a.run cs).Accounted :=
  Outcome.run_induction Arena.perform a cs (fun _ c ha => ha.perform c) h

theorem Numbered.perform (h : a.Numbered) (c : Call α) : (a.perform c).state.Numbered := by
  rcases a.state_perform c with ⟨hash, x, z, rfl⟩ | ⟨id, rfl⟩ | ⟨-, -, id, f, hs⟩
  · simpa [Arena.perform] using h.allocate hash x z
  · simpa [Arena.perform] using h.free id
  · rw [hs]
    exact h.update id f

theorem Threaded.allocate_state (ht : a.Threaded free) (h : UInt32) (x : α) (z : Sizing) :
    ∃ free', (a.allocate h x z).state.Threaded free' := by
  rcases a.allocate_cases h x z with ⟨id, next, hh, hl, htaken⟩ | ⟨id, r, bs, hh, hid, hok⟩ |
    ⟨f, r, bs, hf⟩
  · cases free with
    | nil =>
      have hnone : a.freeHead = none := ht.path
      simp [hh] at hnone
    | cons i rest =>
      obtain rfl : id = i := Option.some.inj (hh.symm.trans ht.path.1)
      have hthr := ht.taken hl (.fresh h x)
      rcases htaken with hok | ⟨-, hf⟩
      · exact ⟨rest, by rwa [hok]⟩
      · exact ⟨rest, by rwa [hf]⟩
  · have hlt := id.index_lt
    exact ⟨free, by rw [hok]; exact (ht.extend (by omega)).withBlocks⟩
  · exact ⟨free, by rw [hf]; exact ht.withBlocks⟩

theorem Threaded.perform (ht : a.Threaded free) (hc : a.Spares c) :
    ∃ free', (a.perform c).state.Threaded free' := by
  rcases a.state_perform c with ⟨h, x, z, rfl⟩ | ⟨id, rfl⟩ | ⟨-, -, id, f, hs⟩
  · simpa [Arena.perform] using ht.allocate_state h x z
  · simpa [Arena.perform] using ht.free_state (ht.not_mem hc)
  · exact ⟨free, by rw [hs]; exact ht.update id f⟩

theorem Threaded.run (ht : a.Threaded free) (hcs : a.Careful cs) :
    ∃ free', (a.run cs).Threaded free' := by
  induction cs generalizing a free with
  | nil => exact ⟨free, ht⟩
  | cons c cs ih =>
    obtain ⟨hc, hcs⟩ := hcs
    obtain ⟨free', ht'⟩ := ht.perform hc
    exact ih ht' hcs

end

end Arena

end ChainedTable
