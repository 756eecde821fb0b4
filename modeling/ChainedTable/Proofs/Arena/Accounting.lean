import ChainedTable.Proofs.Arena.Recycling
import Mathlib.Data.List.Count

set_option autoImplicit false

namespace ChainedTable

namespace Arena

variable {α : Type} {a b : Arena α} {id : EntryId} {e : Entry α} {next : Option EntryId}
  {ids : List EntryId} {r : Nat} {bs : Array Nat}

def freeSlots (a : Arena α) : Nat := a.slots.toList.countP Slot.isFree

def Accounted (a : Arena α) : Prop := a.freeCount = a.freeSlots

theorem accounted_empty : (empty : Arena α).Accounted := rfl

theorem freeSlots_set {a : Arena α} {i : Nat} {s : Slot α} (hs : a.slots[i]? = some s)
    (s' : Slot α) : (a.slots.toList.set i s').countP Slot.isFree + (if s.isFree then 1 else 0) =
      a.freeSlots + if s'.isFree then 1 else 0 := by
  rw [← Array.getElem?_toList, List.getElem?_eq_some_iff] at hs
  obtain ⟨hi, hs⟩ := hs
  rw [List.countP_set hi, hs, freeSlots]
  by_cases hf : s.isFree
  · have hpos : 0 < a.slots.toList.countP Slot.isFree :=
      List.countP_pos_iff.mpr ⟨s, hs ▸ List.getElem_mem hi, hf⟩
    simp only [hf, ↓reduceIte]
    omega
  · simp [hf]

theorem freeSlots_taken (e : Entry α) (h : a.freeLink id = some next) (n : Option EntryId) :
    (a.taken id n e).freeSlots + 1 = a.freeSlots := by
  have hset := freeSlots_set (freeLink_eq_some.mp h) (.occupied e)
  simpa [freeSlots, taken, store, Slot.isFree] using hset

theorem freeSlots_released (h : a.get? id = some e) :
    (a.released id).freeSlots = a.freeSlots + 1 := by
  have hset := freeSlots_set (get?_eq_some.mp h) (.free a.freeHead)
  simpa [freeSlots, released, withFree, Slot.isFree] using hset

theorem freeSlots_withFree (h : a.freeLink id = some next) (n : Option EntryId) :
    (a.withFree id n).freeSlots = a.freeSlots := by
  have hset := freeSlots_set (freeLink_eq_some.mp h) (.free n)
  simpa [freeSlots, withFree, Slot.isFree] using hset

theorem freeSlots_of_isFree (h : b.slots.map Slot.isFree = a.slots.map Slot.isFree) :
    b.freeSlots = a.freeSlots := by
  have hl := congrArg (fun xs : Array Bool => xs.toList.countP fun x => x) h
  simpa [freeSlots, List.countP_map, Function.comp_def] using hl

theorem Accounted.relinked (h : a.Accounted) (hab : Relinked a b) : b.Accounted := by
  rw [Accounted, hab.freeCount, h, freeSlots_of_isFree hab.isFree]

theorem Accounted.store (h : a.Accounted) (e' : Entry α) (hid : a.get? id = some e) :
    (a.store id e').Accounted := by
  rw [Accounted, freeCount_store, h, freeSlots_of_isFree (isFree_store_live e' hid)]

theorem Accounted.update (h : a.Accounted) (id : EntryId) (f : Entry α → Entry α) :
    (a.update id f).state.Accounted := by
  cases he : a.get? id with
  | none => simpa [update_dead he] using h
  | some e => simpa [update_live he] using h.store (f e) he

theorem Accounted.taken (h : a.Accounted) (hid : a.freeLink id = some next) (n : Option EntryId)
    (e : Entry α) : (a.taken id n e).Accounted ∧ 0 < a.freeCount := by
  have hslots := freeSlots_taken e hid n
  have hcount : (a.taken id n e).freeCount = a.freeCount - 1 := rfl
  rw [Accounted] at h ⊢
  omega

theorem Accounted.allocate [SlotSize α] (h : a.Accounted) (hash : UInt32) (x : α) (z : Sizing) :
    (a.allocate hash x z).state.Accounted := by
  rcases a.allocate_cases hash x z with ⟨id, next, -, hl, hok | ⟨hc, -⟩⟩ | ⟨id, r, bs, -, -, hok⟩ |
    ⟨f, r, bs, hf⟩
  · rw [hok, Outcome.state_ok]
    exact (h.taken hl next _).1
  · have := (h.taken hl next (.fresh hash x)).2
    omega
  · rw [hok, Outcome.state_ok]
    simpa [Accounted, freeSlots, extend, withBlocks, Slot.isFree] using h
  · rw [hf, Outcome.state_fail]
    exact h

theorem Accounted.free (h : a.Accounted) (id : EntryId) : (a.free id).state.Accounted := by
  rcases a.free_cases id with ⟨f, hf⟩ | ⟨e, he, -, hok⟩ | ⟨next, hl, hf⟩
  · rw [hf, Outcome.state_fail]
    exact h
  · rw [hok, Outcome.state_ok, Accounted, freeSlots_released he]
    exact congrArg (· + 1) h
  · rw [hf, Outcome.state_fail, Accounted, freeSlots_withFree hl]
    exact h

theorem numbered_empty : (empty : Arena α).Numbered := Nat.zero_le _

theorem Numbered.of_carved (h : a.Numbered) (hc : b.carved = a.carved) : b.Numbered := by
  rwa [Numbered, hc]

theorem Numbered.update (h : a.Numbered) (id : EntryId) (f : Entry α → Entry α) :
    (a.update id f).state.Numbered := by
  cases he : a.get? id with
  | none => simpa [update_dead he] using h
  | some e => simpa [update_live he] using h.of_carved (carved_store a id (f e))

theorem Numbered.allocate [SlotSize α] (h : a.Numbered) (hash : UInt32) (x : α) (z : Sizing) :
    (a.allocate hash x z).state.Numbered := by
  rcases a.allocate_cases hash x z with ⟨id, next, -, -, hok | ⟨-, hf⟩⟩ | ⟨id, r, bs, -, hid, hok⟩ |
    ⟨f, r, bs, hf⟩
  · rw [hok, Outcome.state_ok]
    exact h.of_carved carved_taken
  · rw [hf, Outcome.state_fail]
    exact h.of_carved carved_taken
  · have hlt := id.index_lt
    rw [hok, Outcome.state_ok, Numbered, carved_withBlocks, carved_extend]
    omega
  · rw [hf, Outcome.state_fail]
    exact h.of_carved carved_withBlocks

theorem Numbered.free (h : a.Numbered) (id : EntryId) : (a.free id).state.Numbered := by
  rcases a.free_cases id with ⟨f, hf⟩ | ⟨e, -, -, hok⟩ | ⟨next, -, hf⟩
  · rwa [hf, Outcome.state_fail]
  · rw [hok, Outcome.state_ok]
    exact h.of_carved carved_released
  · rw [hf, Outcome.state_fail]
    exact h.of_carved carved_withFree

def liveIndices (a : Arena α) : List Nat :=
  (a.slots.toList.zipIdx.filter fun x => !x.1.isFree).map Prod.snd

theorem mem_liveIndices (h : a.get? id = some e) : id.index ∈ a.liveIndices := by
  refine List.mem_map.mpr ⟨(.occupied e, id.index), List.mem_filter.mpr ⟨?_, rfl⟩, rfl⟩
  rw [List.mem_zipIdx_iff_getElem?, Array.getElem?_toList]
  exact get?_eq_some.mp h

theorem Accounted.length_liveIndices (h : a.Accounted) : a.liveIndices.length = a.liveCount := by
  have hfst := congrArg (List.countP fun s => !s.isFree) (List.zipIdx_map_fst 0 a.slots.toList)
  rw [List.countP_map, Function.comp_def] at hfst
  have hsum := List.length_eq_countP_add_countP Slot.isFree (l := a.slots.toList)
  rw [liveIndices, List.length_map, ← List.countP_eq_length_filter, hfst]
  simp only [Accounted, freeSlots] at h
  simp only [liveCount, ← Array.length_toList, h, hsum]
  simp

/-- There are no more distinct live ids than the live count says. -/
theorem Accounted.length_le (h : a.Accounted) (hnd : ids.Nodup)
    (hlive : ∀ id ∈ ids, ∃ e, a.get? id = some e) : ids.length ≤ a.liveCount := by
  have hinj : (ids.map EntryId.index).Nodup := hnd.map fun _ _ he => EntryId.index_inj.mp he
  have hsub : ids.map EntryId.index ⊆ a.liveIndices := by
    intro k hk
    obtain ⟨id, hid, rfl⟩ := List.mem_map.mp hk
    obtain ⟨e, he⟩ := hlive id hid
    exact mem_liveIndices he
  rw [← h.length_liveIndices, ← List.length_map EntryId.index]
  exact (hinj.subperm hsub).length_le

end Arena

end ChainedTable
