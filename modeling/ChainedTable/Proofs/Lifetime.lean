import ChainedTable.Literal
import ChainedTable.Proofs.Table.Calls

set_option autoImplicit false

/-!
The life of an entry. From the call that makes it an entry stays in its slot, with its hash and its
flag and the literal stored last, until a call frees it; no other call touches it, also none that
fails or is a mistake. A shared entry is never freed. Nothing is asked of the table for this: each
step only has to be right about the slot of the entry.

There is one way out besides a free that succeeds. A counted entry is released before its removal
is counted, so a free that stops at the removal counter has released the slot; but that counter does
not overflow in fewer than `wordLimit` calls.
-/

namespace ChainedTable

variable {α : Type}

namespace Arena

variable {a b : Arena α} {id j : EntryId} {c : Content α} {h : UInt32} {x : α} {z : Sizing}

theorem content?_of_get?_eq (hg : b.get? id = a.get? id) : b.content? id = a.content? id := by
  rw [content?, content?, hg]

theorem ne_of_dead (hc : a.content? id = some c) (hj : a.get? j = none) : id ≠ j := by
  intro he
  subst he
  simp [content?, hj] at hc

theorem content?_allocate [SlotSize α] (hc : a.content? id = some c) :
    (a.allocate h x z).state.content? id = some c := by
  have htaken : ∀ {j next}, a.freeLink j = some next →
      (a.taken j next (.fresh h x)).content? id = some c := by
    intro j next hl
    have hne := ne_of_dead hc (get?_of_freeLink hl)
    rw [← hc]
    exact content?_of_get?_eq (by rw [get?_taken _ (index_lt_of_freeLink hl), if_neg hne])
  rcases a.allocate_cases h x z with ⟨j, next, -, hl, hok | ⟨-, hf⟩⟩ | ⟨j, r, bs, -, hj, hok⟩ |
    ⟨f, r, bs, hf⟩
  · rw [hok, Outcome.state_ok]
    exact htaken hl
  · rw [hf, Outcome.state_fail]
    exact htaken hl
  · have hne := ne_of_dead hc (get?_of_carved_le (Nat.le_of_eq hj.symm))
    rw [hok, Outcome.state_ok, ← hc]
    exact content?_of_get?_eq (by rw [get?_withBlocks, get?_extend _ hj, if_neg hne])
  · rw [hf, Outcome.state_fail]
    exact hc

theorem allocate_ok [SlotSize α] (hok : a.allocate h x z = .ok id b) :
    a.get? id = none ∧ b.get? id = some (.fresh h x) := by
  rcases a.allocate_cases h x z with ⟨j, next, -, hl, hj | ⟨-, hf⟩⟩ | ⟨j, r, bs, -, hindex, hj⟩ |
    ⟨f, r, bs, hf⟩
  · obtain ⟨rfl, rfl⟩ := Outcome.ok.inj (hok.symm.trans hj)
    exact ⟨get?_of_freeLink hl, by rw [get?_taken _ (index_lt_of_freeLink hl), if_pos rfl]⟩
  · simp [hf] at hok
  · obtain ⟨rfl, rfl⟩ := Outcome.ok.inj (hok.symm.trans hj)
    exact ⟨get?_of_carved_le (Nat.le_of_eq hindex.symm),
      by rw [get?_withBlocks, get?_extend _ hindex, if_pos rfl]⟩
  · simp [hf] at hok

theorem content?_update {f : Entry α → Entry α} (hc : a.content? id = some c) (hne : id ≠ j) :
    (a.update j f).state.content? id = some c := by
  cases hj : a.get? j with
  | none => simpa [update_dead hj] using hc
  | some e =>
    rw [update_live hj, Outcome.state_ok, content?_store _ (index_lt_of_get? hj), if_neg hne, hc]

/-- A live entry survives every free but one of its own that succeeds, and that one hands back its
literal. -/
theorem content?_free (hc : a.content? id = some c) (j : EntryId) :
    (a.free j).state.content? id = some c ∧ (j = id → ∃ f, (a.free j).result = .error f) ∨
      j = id ∧ c.shared = false ∧ (a.free j).result = .ok c.literal := by
  rcases a.free_cases j with ⟨f, hf⟩ | ⟨e, he, hs, hok⟩ | ⟨next, hl, hf⟩
  · rw [hf]
    exact .inl ⟨hc, fun _ => ⟨f, rfl⟩⟩
  · by_cases hj : j = id
    · subst hj
      rw [content?_of_get? he, Option.some.injEq] at hc
      subst hc
      exact .inr ⟨rfl, hs, by rw [hok]; rfl⟩
    · refine .inl ⟨?_, fun h => absurd h hj⟩
      rw [hok, Outcome.state_ok, ← hc]
      exact content?_of_get?_eq (by rw [get?_released (index_lt_of_get? he), if_neg (Ne.symm hj)])
  · have hne := ne_of_dead hc (get?_of_freeLink hl)
    refine .inl ⟨?_, fun h => absurd h.symm hne⟩
    rw [hf, Outcome.state_fail, ← hc]
    exact content?_of_get?_eq (by rw [get?_withFree (index_lt_of_freeLink hl), if_neg hne])

end Arena

namespace Call

def makes : Call α → Content α → Prop
  | .newEntry hash literal, c => c = ⟨hash, literal, false⟩
  | .newSharedEntry hash literal, c => c = ⟨hash, literal, true⟩
  | _, _ => False

def frees : Call α → EntryId → Prop
  | .freeEntry j, id => j = id
  | .freeUnlinked j, id => j = id
  | _, _ => False

def stored (id : EntryId) (x : α) : Call α → α
  | .setLiteral j y => if j = id then y else x
  | _ => x

theorem stored_of_relinks {k : Call α} {id : EntryId} {x : α} (h : k.relinks = true) :
    k.stored id x = x := by
  cases k with
  | setLiteral j y => simp [relinks] at h
  | _ => rfl

theorem not_frees_of_relinks {k : Call α} {id : EntryId} (h : k.relinks = true) :
    ¬ k.frees id := by
  cases k with
  | freeEntry j => simp [relinks] at h
  | freeUnlinked j => simp [relinks] at h
  | _ => exact fun hf => hf

end Call

def lastStored (id : EntryId) (x : α) (ks : List (Call α)) : α :=
  ks.foldl (fun x k => k.stored id x) x

namespace Table

variable {t : Table α} {id j : EntryId} {c : Content α} {k : Call α}

theorem removed_addEntry (t : Table α) (i : Nat) (id : EntryId) :
    (t.addEntry i id).state.traffic.removed = t.traffic.removed := by
  cases hi : t.checkIndex i with
  | error f => simp [addEntry, hi]
  | ok _ =>
    cases he : t.arena.get? id with
    | none => simp [addEntry, hi, he]
    | some e =>
      obtain ⟨n, r, hinc, hr⟩ := (t.prepend i id e).increment_cases
      simp [addEntry, hi, he, hinc, hr, (relinked_prepend i he).traffic]

section
variable [SlotSize α] [Memory]

/-- One call on a live entry: it keeps its contents, with the literal that the call stores, or the
call is a free of its own that comes as far as the arena. -/
theorem content?_perform (hc : t.arena.content? id = some c) (k : Call α) :
    (t.perform k).state.arena.content? id = some { c with literal := k.stored id c.literal } ∧
        (k.frees id → ∃ f, (t.perform k).result = .error f) ∨
      k.frees id ∧ c.shared = false ∧ ((t.perform k).result = .ok (.recycled c.literal) ∨
        (t.perform k).result = .error .additionOverflow ∧ wordLimit ≤ t.traffic.removed + 1) := by
  by_cases hk : k.relinks = true
  · refine .inl ⟨?_, fun hf => absurd hf (Call.not_frees_of_relinks hk)⟩
    rw [(t.relinked_perform hk).content? id, hc, Call.stored_of_relinks hk]
  · cases k with
    | newEntry h x =>
      refine .inl ⟨?_, fun hf => hf.elim⟩
      simpa [perform, newEntry, onArena_eq, Call.stored] using Arena.content?_allocate hc
    | newSharedEntry h x =>
      refine .inl ⟨?_, fun hf => hf.elim⟩
      have ha := Arena.content?_allocate (h := h) (x := x) (z := t.sizing) hc
      simp only [perform, newSharedEntry_eq, onArena_eq, Outcome.state_map, Outcome.state_mapState]
      cases hb : t.arena.allocate h x t.sizing with
      | fail f b =>
        rw [hb] at ha
        exact ha
      | ok j b =>
        rw [hb] at ha
        have hne := Arena.ne_of_dead hc (Arena.allocate_ok hb).1
        simpa [Call.stored] using Arena.content?_update ha hne
    | freeEntry j =>
      have hfree := Arena.content?_free hc j
      rw [perform, Outcome.state_map, Outcome.result_map]
      rcases t.freeEntry_cases j with hnone | ⟨f, a, ha, hfail⟩ | ⟨x, a, ha, hdone⟩
      · rw [hnone]
        exact .inl ⟨hc, fun _ => ⟨_, rfl⟩⟩
      · rw [ha] at hfree
        rw [hfail]
        rcases hfree with ⟨hkeep, -⟩ | ⟨-, -, hok⟩
        · exact .inl ⟨hkeep, fun _ => ⟨f, rfl⟩⟩
        · simp at hok
      · rw [ha] at hfree
        rcases hfree with ⟨hkeep, hfail⟩ | ⟨hj, hs, hok⟩
        · have hne : j ≠ id := by
            intro hj
            obtain ⟨f, hf⟩ := hfail hj
            simp at hf
          refine .inl ⟨?_, fun hj => absurd hj hne⟩
          rcases hdone with hok | ⟨-, hover⟩
          · rw [hok]
            exact hkeep
          · rw [hover]
            exact hkeep
        · -- the slot is released before the removal is counted
          obtain rfl : x = c.literal := by simpa using hok
          refine .inr ⟨hj, hs, ?_⟩
          rcases hdone with hok | ⟨hfull, hover⟩
          · exact .inl (by rw [hok]; rfl)
          · exact .inr ⟨by rw [hover]; rfl, hfull⟩
    | freeUnlinked j =>
      simp only [perform, Outcome.state_map, Outcome.result_map, freeUnlinked, onArena_eq,
        Outcome.state_mapState, Outcome.result_mapState]
      rcases Arena.content?_free hc j with ⟨hkeep, hfail⟩ | ⟨hj, hs, hok⟩
      · refine .inl ⟨hkeep, fun hj => ?_⟩
        obtain ⟨f, hf⟩ := hfail hj
        exact ⟨f, by rw [hf]; rfl⟩
      · exact .inr ⟨hj, hs, .inl (by rw [hok]; rfl)⟩
    | setLiteral j x =>
      refine .inl ⟨?_, fun hf => hf.elim⟩
      simp only [perform, setLiteral, onArena_eq, Outcome.state_map, Outcome.state_mapState]
      by_cases hj : j = id
      · subst hj
        obtain ⟨e, he, rfl⟩ := Arena.content?_eq_some.mp hc
        rw [Arena.update_live he, Outcome.state_ok,
          Arena.content?_store _ (Arena.index_lt_of_get? he)]
        simp [Call.stored, Entry.content]
      · simpa [Call.stored, hj] using Arena.content?_update hc (Ne.symm hj)
    | _ => simp [Call.relinks] at hk

theorem made_perform (h : (t.perform k).result = .ok (.made id)) :
    t.arena.get? id = none ∧ ∃ c, k.makes c ∧ (t.perform k).state.arena.content? id = some c := by
  cases k with
  | newEntry hash x =>
    simp only [perform, newEntry, onArena_eq] at h ⊢
    cases ha : t.arena.allocate hash x t.sizing with
    | fail f b => simp [ha] at h
    | ok j b =>
      obtain rfl : j = id := by simpa [ha] using h
      obtain ⟨hnone, hnew⟩ := Arena.allocate_ok ha
      exact ⟨hnone, ⟨hash, x, false⟩, rfl, by simpa using Arena.content?_of_get? hnew⟩
  | newSharedEntry hash x =>
    simp only [perform, newSharedEntry_eq, onArena_eq] at h ⊢
    cases ha : t.arena.allocate hash x t.sizing with
    | fail f b => simp [ha] at h
    | ok j b =>
      obtain ⟨hnone, hnew⟩ := Arena.allocate_ok ha
      obtain rfl : j = id := by simpa [ha, Arena.update_live hnew] using h
      refine ⟨hnone, ⟨hash, x, true⟩, rfl, ?_⟩
      simp [Arena.update_live hnew, Arena.content?_store _ (Arena.index_lt_of_get? hnew)]
  | addEntry i j => cases hr : t.addEntry i j <;> simp [perform, hr] at h
  | setBucket i head => cases hr : t.setBucket i head <;> simp [perform, hr] at h
  | setNext j n => cases hr : t.setNext j n <;> simp [perform, hr] at h
  | increment => cases hr : t.increment <;> simp [perform, hr] at h
  | unlink i j => cases hr : t.unlink i j <;> simp [perform, hr] at h
  | freeEntry j => cases hr : t.freeEntry j <;> simp [perform, hr] at h
  | freeUnlinked j => cases hr : t.freeUnlinked j <;> simp [perform, hr] at h
  | setLiteral j x => cases hr : t.setLiteral j x <;> simp [perform, hr] at h
  | resize n => cases hr : t.resize n <;> simp [perform, hr] at h
  | maybeGrow maxSize load => cases hr : t.maybeGrow maxSize load <;> simp [perform, hr] at h

theorem removed_perform (t : Table α) (k : Call α) :
    (t.perform k).state.traffic.removed ≤ t.traffic.removed + 1 := by
  cases hk : k.counts with
  | false =>
    rw [(t.sameCounts_perform hk).2]
    exact Nat.le_succ _
  | true =>
    cases k with
    | addEntry i j => simp [perform, removed_addEntry]
    | increment =>
      obtain ⟨n, r, hinc, hr⟩ := t.increment_cases
      simp [perform, hinc, hr]
    | freeEntry j =>
      rw [perform, Outcome.state_map]
      rcases t.freeEntry_cases j with h | ⟨f, a, -, h⟩ | ⟨x, a, -, h | ⟨-, h⟩⟩ <;> simp [h]
    | _ => simp [Call.counts, Call.adds] at hk

theorem removed_run (t : Table α) (ks : List (Call α)) :
    (t.run ks).traffic.removed ≤ t.traffic.removed + ks.length := by
  induction ks generalizing t with
  | nil => simp
  | cons k ks ih =>
    have hone := t.removed_perform k
    have hrest := ih (t.perform k).state
    rw [run_cons, List.length_cons]
    omega

/-- At some step of the run the property holds of the table and the call that comes next. -/
def Occurs (P : Table α → Call α → Prop) : Table α → List (Call α) → Prop
  | _, [] => False
  | t, k :: ks => P t k ∨ Occurs P (t.perform k).state ks

def Recycles (id : EntryId) (t : Table α) (k : Call α) : Prop :=
  k.frees id ∧ ∃ x, (t.perform k).result = .ok (.recycled x)

/-- A free of `id` that stops at the removal counter. -/
def Overruns (id : EntryId) (t : Table α) (k : Call α) : Prop :=
  k.frees id ∧ (t.perform k).result = .error .additionOverflow

/-- The entry `id` is live with these contents; no call makes it anew, and only one that is not
shared can be freed, for its literal. -/
structure Holds (t : Table α) (id : EntryId) (c : Content α) : Prop where
  content : (t.arena.get? id).map Entry.content = some c
  not_made : ∀ k, (t.perform k).result ≠ .ok (.made id)
  freed : ∀ k x, k.frees id → (t.perform k).result = .ok (.recycled x) →
    c.shared = false ∧ x = c.literal
  shared_kept : c.shared = true → ∀ k, k.frees id → ∃ f, (t.perform k).result = .error f

theorem holds_of_content? (hc : t.arena.content? id = some c) : t.Holds id c where
  content := hc
  not_made k hmade := by
    have hnone := (made_perform hmade).1
    simp [Arena.content?, hnone] at hc
  freed k x hk hok := by
    rcases content?_perform hc k with ⟨-, hfail⟩ | ⟨-, hs, hresult⟩
    · obtain ⟨f, hf⟩ := hfail hk
      simp [hok] at hf
    · rcases hresult with hlit | ⟨hover, -⟩
      · obtain rfl : x = c.literal := by simpa using hok.symm.trans hlit
        exact ⟨hs, rfl⟩
      · simp [hok] at hover
  shared_kept hs k hk := by
    rcases content?_perform hc k with ⟨-, hfail⟩ | ⟨-, hnot, -⟩
    · exact hfail hk
    · simp [hs] at hnot

theorem content?_run (hc : t.arena.content? id = some c) (ks : List (Call α)) :
    (t.run ks).arena.content? id = some { c with literal := lastStored id c.literal ks } ∨
      c.shared = false ∧ (Occurs (Recycles id) t ks ∨
        Occurs (Overruns id) t ks ∧ wordLimit ≤ t.traffic.removed + ks.length) := by
  induction ks generalizing t c with
  | nil => exact .inl hc
  | cons k ks ih =>
    have hone := t.removed_perform k
    rw [List.length_cons]
    rcases content?_perform hc k with ⟨hkeep, -⟩ | ⟨hk, hs, hresult⟩
    · rcases ih hkeep with hlive | ⟨hs, hrec | ⟨hover, hfull⟩⟩
      · exact .inl hlive
      · exact .inr ⟨hs, .inl (.inr hrec)⟩
      · exact .inr ⟨hs, .inr ⟨.inr hover, by omega⟩⟩
    · rcases hresult with hok | ⟨hover, hfull⟩
      · exact .inr ⟨hs, .inl (.inl ⟨hk, c.literal, hok⟩)⟩
      · exact .inr ⟨hs, .inr ⟨.inl ⟨hk, hover⟩, by omega⟩⟩

/-- Once an entry is made it holds, with the literal stored last, after every run of calls, unless
one of them has recycled it. A run in which a free of it stopped at the removal counter is excepted,
and has at least `wordLimit` calls. A shared entry holds after every run. -/
theorem holds_once_made {n : Nat} {tag : MemoryTag} (ht : create n tag = .ok t)
    (before : List (Call α)) {make : Call α}
    (hmade : ((t.run before).perform make).result = .ok (.made id)) :
    ∃ c, make.makes c ∧ ∀ ks,
      (t.run (before ++ make :: ks)).Holds id { c with literal := lastStored id c.literal ks } ∨
        c.shared = false ∧ (Occurs (Recycles id) (t.run (before ++ [make])) ks ∨
          Occurs (Overruns id) (t.run (before ++ [make])) ks ∧
            wordLimit ≤ (before ++ make :: ks).length) := by
  obtain ⟨-, c, hmakes, hc⟩ := made_perform hmade
  have hmake : (t.run (before ++ [make])).arena.content? id = some c := by
    rw [run_append]
    exact hc
  refine ⟨c, hmakes, fun ks => ?_⟩
  have hzero : t.traffic.removed = 0 := by
    rw [(create_eq_ok ht).2.2.2]
    rfl
  have hremoved := t.removed_run (before ++ [make])
  rw [List.append_cons, run_append]
  rcases content?_run hmake ks with hlive | ⟨hs, hrec | ⟨hover, hfull⟩⟩
  · exact .inl (holds_of_content? hlive)
  · exact .inr ⟨hs, .inl hrec⟩
  · exact .inr ⟨hs, .inr ⟨hover, by rw [List.length_append]; omega⟩⟩

end

theorem holds_once_made_shared :
    ∃ (_ : Memory) (t : Table UInt32) (id : EntryId), create 2 .symbol = .ok t ∧
      (t.perform (.newSharedEntry 5 7)).result = .ok (.made id) ∧
      (t.run [.newSharedEntry 5 7, .freeUnlinked id, .setLiteral id 8]).Holds id ⟨5, 8, true⟩ := by
  let mem : Memory := .below 100 (by decide)
  let id : EntryId := .ofIndex 0 (by decide)
  let t : Table UInt32 := ⟨emptyBuckets 2, 0, .empty, .symbol, .zero, by decide⟩
  have ht : create 2 .symbol = .ok t := rfl
  have hid : EntryId.ofIndex? t.arena.carved = some id := rfl
  obtain ⟨r, bs, ha⟩ := Arena.allocate_carve (h := 5) (x := 7) (z := t.sizing) (by decide) rfl hid
  have hmade : (t.perform (.newSharedEntry 5 7)).result = .ok (.made id) := by
    simp [perform, newSharedEntry_eq, onArena_eq, ha, Arena.update_live (Arena.allocate_ok ha).2]
  obtain ⟨c, rfl, hall⟩ := holds_once_made ht [] hmade
  rcases hall [.freeUnlinked id, .setLiteral id 8] with hholds | ⟨hs, -⟩
  · exact ⟨mem, t, id, ht, hmade, hholds⟩
  · simp at hs

end Table

end ChainedTable
