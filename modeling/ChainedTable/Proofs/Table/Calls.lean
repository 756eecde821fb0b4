import ChainedTable.Proofs.Arena.Runs
import ChainedTable.Proofs.Table.Frame
import ChainedTable.Table.Call

set_option autoImplicit false

namespace ChainedTable

variable {α : Type}

/-- A call that makes, frees and rewrites no entry. -/
def Call.relinks : Call α → Bool
  | .addEntry _ _ | .setBucket _ _ | .setNext _ _ | .increment => true
  | .unlink _ _ | .resize _ | .maybeGrow _ _ => true
  | _ => false

def Call.adds : Call α → Bool
  | .addEntry _ _ | .increment => true
  | _ => false

def Call.counts : Call α → Bool
  | .freeEntry _ => true
  | c => c.adds

namespace Table

variable {t : Table α} {c : Call α} {id : EntryId}

theorem increment_cases (t : Table α) :
    ∃ n r, t.increment.state = { t with count := n, traffic := r } ∧
      r.removed = t.traffic.removed := by
  simp only [increment]
  cases addWord t.count 1 with
  | error f => exact ⟨t.count, t.traffic, rfl, rfl⟩
  | ok n =>
    cases hr : t.traffic.recordAdd with
    | error f => exact ⟨n, t.traffic, rfl, rfl⟩
    | ok r => exact ⟨n, r, rfl, by rw [(Traffic.recordAdd_eq_ok.mp hr).1]⟩

theorem arena_increment (t : Table α) : t.increment.state.arena = t.arena := by
  obtain ⟨n, r, h, -⟩ := t.increment_cases
  rw [h]

/-- What freeing a counted entry can do: nothing, if nothing is counted; else it does what the arena
does, and if that succeeds it counts the removal or stops at an overflow of the counter. -/
theorem freeEntry_cases (t : Table α) (id : EntryId) :
    t.freeEntry id = .fail .nothingCounted t ∨
    (∃ f a, t.arena.free id = .fail f a ∧ t.freeEntry id = .fail f { t with arena := a }) ∨
    ∃ x a, t.arena.free id = .ok x a ∧
      (t.freeEntry id = .ok x { t with
          arena := a, count := t.count - 1,
          traffic := ⟨t.traffic.added, t.traffic.removed + 1⟩ } ∨
        wordLimit ≤ t.traffic.removed + 1 ∧
          t.freeEntry id = .fail .additionOverflow { t with arena := a, count := t.count - 1 }) := by
  by_cases hc : t.count = 0
  · exact .inl (by simp [freeEntry, hc])
  · cases ha : t.arena.free id with
    | fail f a => exact .inr (.inl ⟨f, a, rfl, by simp [freeEntry, hc, freeUnlinked, onArena_eq, ha]⟩)
    | ok x a =>
      refine .inr (.inr ⟨x, a, rfl, ?_⟩)
      cases hr : addWord t.traffic.removed 1 with
      | ok n =>
        obtain ⟨rfl, -⟩ := addWord_eq_ok.mp hr
        exact .inl (by simp [freeEntry, hc, freeUnlinked, onArena_eq, ha, Traffic.recordRemove, hr,
          Except.map])
      | error f =>
        obtain ⟨rfl, hfull⟩ := addWord_eq_error.mp hr
        exact .inr ⟨hfull, by simp [freeEntry, hc, freeUnlinked, onArena_eq, ha,
          Traffic.recordRemove, hr, Except.map]⟩

theorem relinked_addEntry (t : Table α) (i : Nat) (id : EntryId) :
    t.arena.Relinked (t.addEntry i id).state.arena := by
  cases hi : t.checkIndex i with
  | error f => simpa [addEntry, hi] using Arena.Relinked.refl t.arena
  | ok _ =>
    cases he : t.arena.get? id with
    | none => simpa [addEntry, hi, he] using Arena.Relinked.refl t.arena
    | some e =>
      have hp := (relinked_prepend i he).arena
      rw [← arena_increment (t.prepend i id e)] at hp
      simpa [addEntry, hi, he] using hp

theorem relinked_setBucket (t : Table α) (i : Nat) (h : Option EntryId) :
    t.arena.Relinked (t.setBucket i h).state.arena := by
  cases hi : t.checkIndex i <;> simpa [setBucket, hi] using Arena.Relinked.refl t.arena

theorem relinked_setNext (t : Table α) (id : EntryId) (n : Option EntryId) :
    t.arena.Relinked (t.setNext id n).state.arena := by
  cases he : t.arena.get? id with
  | none => simpa [setNext, onArena_eq, Arena.update_dead he] using Arena.Relinked.refl t.arena
  | some e => simpa [setNext, onArena_eq, Arena.update_live he] using Arena.relinked_store n he

theorem relinked_perform [SlotSize α] [Memory] (t : Table α) (h : c.relinks = true) :
    t.arena.Relinked (t.perform c).state.arena := by
  cases c with
  | addEntry i id => simpa [perform] using t.relinked_addEntry i id
  | setBucket i head => simpa [perform] using t.relinked_setBucket i head
  | setNext id n => simpa [perform] using t.relinked_setNext id n
  | increment => simpa [perform, arena_increment] using Arena.Relinked.refl t.arena
  | unlink i id => simpa [perform] using (t.relinked_unlink i id).arena
  | resize n => simpa [perform] using (t.relinked_resize n).arena
  | maybeGrow maxSize load => simpa [perform] using (t.relinked_maybeGrow maxSize load).arena
  | _ => simp [Call.relinks] at h

theorem newSharedEntry_eq [SlotSize α] (t : Table α) (h : UInt32) (x : α) :
    t.newSharedEntry h x = t.onArena fun a => (a.allocate h x t.sizing).bind fun id a =>
      (a.update id Entry.setShared).map fun _ => id := by
  simp only [newSharedEntry, newEntry, onArena_eq]
  cases t.arena.allocate h x t.sizing with
  | fail f a => rfl
  | ok id a =>
    simp only [Outcome.mapState_ok, Outcome.bind_ok]
    cases a.update id Entry.setShared <;> rfl

theorem sameCounts_perform [SlotSize α] [Memory] (t : Table α) (hc : c.counts = false) :
    SameCounts t (t.perform c).state := by
  cases c with
  | newEntry h x => simp [perform, newEntry, onArena_eq, SameCounts]
  | newSharedEntry h x => simp [perform, newSharedEntry_eq, onArena_eq, SameCounts]
  | setBucket i head =>
    cases hi : t.checkIndex i <;> simp [perform, setBucket, hi, setHead, SameCounts]
  | setNext id next => simp [perform, setNext, onArena_eq, SameCounts]
  | unlink i id => simpa [perform] using (t.relinked_unlink i id).sameCounts
  | freeUnlinked id => simp [perform, freeUnlinked, onArena_eq, SameCounts]
  | setLiteral id x => simp [perform, setLiteral, onArena_eq, SameCounts]
  | resize n => simpa [perform] using (t.relinked_resize n).sameCounts
  | maybeGrow maxSize load => simpa [perform] using (t.relinked_maybeGrow maxSize load).sameCounts
  | _ => simp [Call.counts, Call.adds] at hc

/-- What a call does to the arena: it relinks, or it makes and rewrites entries, or it frees one and
passes on a fault of that. -/
theorem arena_perform [SlotSize α] [Memory] (t : Table α) (c : Call α) :
    t.arena.Relinked (t.perform c).state.arena ∨
    (∃ ds : List (Arena.Call α), (∀ d ∈ ds, d.frees = false) ∧
      (t.perform c).state.arena = t.arena.run ds) ∨
    ∃ id, (t.perform c).state.arena = (t.arena.free id).state ∧
      ∀ f, (t.arena.free id).result = .error f → (t.perform c).result = .error f := by
  by_cases hc : c.relinks = true
  · exact .inl (t.relinked_perform hc)
  · cases c with
    | newEntry h x =>
      refine .inr (.inl ⟨[.allocate h x t.sizing], by simp [Arena.Call.frees], ?_⟩)
      simp [perform, newEntry, onArena_eq, Arena.run_cons, Arena.perform]
    | newSharedEntry h x =>
      simp only [perform, newSharedEntry_eq, onArena_eq, Outcome.state_map, Outcome.state_mapState]
      cases ha : t.arena.allocate h x t.sizing with
      | fail f b =>
        refine .inr (.inl ⟨[.allocate h x t.sizing], by simp [Arena.Call.frees], ?_⟩)
        simp [Arena.run_cons, Arena.perform, ha]
      | ok id b =>
        refine .inr (.inl ⟨[.allocate h x t.sizing, .getMut id Entry.setShared],
          by simp [Arena.Call.frees], ?_⟩)
        simp [Arena.run_cons, Arena.perform, ha]
    | freeEntry id =>
      simp only [perform, Outcome.state_map, Outcome.result_map]
      rcases t.freeEntry_cases id with hnone | ⟨f, a, ha, hfail⟩ | ⟨x, a, ha, hok | ⟨-, hover⟩⟩
      · exact .inl (by rw [hnone]; exact .refl t.arena)
      · exact .inr (.inr ⟨id, by rw [hfail, ha]; rfl, by simp [hfail, ha, Except.map]⟩)
      · exact .inr (.inr ⟨id, by rw [hok, ha]; rfl, by simp [ha]⟩)
      · exact .inr (.inr ⟨id, by rw [hover, ha]; rfl, by simp [ha]⟩)
    | freeUnlinked id =>
      refine .inr (.inr ⟨id, by simp [perform, freeUnlinked, onArena_eq], fun f hf => ?_⟩)
      simp [perform, freeUnlinked, onArena_eq, Outcome.result_map, hf, Except.map]
    | setLiteral id x =>
      refine .inr (.inl ⟨[.getMut id (·.setLiteral x)], by simp [Arena.Call.frees], ?_⟩)
      simp [perform, setLiteral, onArena_eq, Arena.run_cons, Arena.perform]
    | _ => simp [Call.relinks] at hc

theorem arena_run [SlotSize α] [Memory] {P : Arena α → Prop}
    (hrel : ∀ a b, a.Relinked b → P a → P b)
    (hcall : ∀ a c, P a → P (Arena.perform a c).state) (h : P t.arena) (cs : List (Call α)) :
    P (t.run cs).arena := by
  refine Outcome.run_induction (P := fun t => P t.arena) perform t cs (fun t c ht => ?_) h
  rcases t.arena_perform c with hc | ⟨ds, -, hds⟩ | ⟨id, hid, -⟩
  · exact hrel _ _ hc ht
  · rw [hds]
    exact Outcome.run_induction Arena.perform t.arena ds hcall ht
  · have hfree : (t.arena.perform (.free id)).state = (t.arena.free id).state :=
      Outcome.state_map _ _
    rw [hid, ← hfree]
    exact hcall _ _ ht

theorem accounted_run [SlotSize α] [Memory] (h : t.arena.Accounted) (cs : List (Call α)) :
    (t.run cs).arena.Accounted :=
  arena_run (fun _ _ hab ha => ha.relinked hab) (fun _ c ha => ha.perform c) h cs

theorem numbered_run [SlotSize α] [Memory] (h : t.arena.Numbered) (cs : List (Call α)) :
    (t.run cs).arena.Numbered :=
  arena_run (fun _ _ hab ha => ha.of_carved hab.carved) (fun _ c ha => ha.perform c) h cs

theorem accounted_create [Memory] {n : Nat} {tag : MemoryTag} (ht : create n tag = .ok t) :
    t.arena.Accounted := by
  rw [(create_eq_ok ht).2.1]
  exact Arena.accounted_empty

end Table

end ChainedTable
