import ChainedTable.Literal
import ChainedTable.Proofs.Table.Checks

set_option autoImplicit false

namespace ChainedTable

variable {α : Type}

def Call.allocates : Call α → Bool
  | .newEntry _ _ | .newSharedEntry _ _ => true
  | _ => false

namespace Table

def addsOf [Memory] (t : Table α) (c : Call α) : Nat :=
  if c.adds ∧ t.firstFault c = none then 1 else 0

def addsMade [SlotSize α] [Memory] : Table α → List (Call α) → Nat
  | _, [] => 0
  | t, c :: cs => t.addsOf c + addsMade (t.perform c).state cs

/-- A call fails exactly with the fault of its first check that fails, and then leaves what it is to
leave; a resize is refused exactly where the buckets cannot be had. -/
structure FailsByChecks [SlotSize α] [Memory] (t : Table α) (c : Call α) : Prop where
  fails : ∀ f, (t.perform c).result = .error f ↔ t.firstFault c = some f
  leaves : ∀ f u, t.perform c = .fail f u → t.Leaves u c f
  refused : ∀ m, c = .resize m → ∀ e,
    (t.perform c).result = .ok (.resized (.error e)) ↔ ¬ Allocatable m ∧ e = refusal m
  refused_state : ∀ m, c = .resize m → ¬ Allocatable m → (t.perform c).state = t

variable {t : Table α} {c : Call α} {cs : List (Call α)} {n : Nat} {tag : MemoryTag}
  {chains : Nat → List EntryId} {stops : Nat → Option EntryId} {free : List EntryId}

section
variable [SlotSize α] [Memory]

theorem balanced_perform (hb : t.Balanced) (hroom : t.traffic.added + t.addsOf c < wordLimit) :
    (t.perform c).state.Balanced ∧
      (t.perform c).state.traffic.added = t.traffic.added + t.addsOf c := by
  cases hc : c.counts with
  | false =>
    have hsame := t.sameCounts_perform hc
    have hadds : c.adds = false := by
      cases c <;> first | rfl | simp [Call.counts, Call.adds] at hc
    exact ⟨hb.same hsame, by rw [hsame.2]; simp [addsOf, hadds]⟩
  | true =>
    cases c with
    | addEntry i id =>
      rw [perform, Outcome.state_map]
      rcases Nat.lt_or_ge i t.size with hi | hi
      · cases he : t.arena.get? id with
        | none =>
          simpa [addsOf, firstFault, Nat.not_le.mpr hi, he, addEntry, checkIndex_of_lt hi] using hb
        | some e =>
          have hone : t.addsOf (.addEntry i id) = 1 := by
            simp [addsOf, Call.adds, firstFault, hi, he]
          rw [hone] at hroom ⊢
          obtain ⟨hadd, hbal⟩ := hb.addEntry hi he hroom
          rw [hadd]
          exact ⟨hbal, by rw [Outcome.state_ok, tallied, (relinked_prepend i he).traffic]⟩
      · simpa [addsOf, firstFault, hi, addEntry, checkIndex_of_le hi] using hb
    | increment =>
      rw [perform, Outcome.state_map, (hb.increment hroom).1]
      exact ⟨(hb.increment hroom).2, rfl⟩
    | freeEntry id =>
      have hnone : t.addsOf (.freeEntry id) = 0 := by simp [addsOf, Call.adds]
      rw [hnone, perform, Outcome.state_map]
      by_cases hcount : t.count = 0
      · simpa [freeEntry, hcount] using hb
      · cases hfree : t.arena.free id with
        | fail f b =>
          have hsame : SameCounts t { t with arena := b } := ⟨rfl, rfl⟩
          simpa [freeEntry, hcount, freeUnlinked, onArena_eq, hfree] using hb.same hsame
        | ok x b =>
          obtain ⟨hok, hbal⟩ := hb.freeEntry hcount hfree
          rw [hok]
          exact ⟨hbal, rfl⟩
    | _ => simp [Call.counts, Call.adds] at hc

theorem balanced_run (hb : t.Balanced) (hroom : t.traffic.added + t.addsMade cs < wordLimit) :
    (t.run cs).Balanced ∧ (t.run cs).traffic.added = t.traffic.added + t.addsMade cs := by
  induction cs generalizing t with
  | nil => exact ⟨hb, rfl⟩
  | cons c cs ih =>
    rw [addsMade] at hroom ⊢
    obtain ⟨hone, hadded⟩ := balanced_perform (c := c) hb (by omega)
    obtain ⟨hrest, hmore⟩ := ih hone (by omega)
    exact ⟨hrest, by rw [run_cons]; omega⟩

theorem addsMade_concat : t.addsMade (cs ++ [c]) = t.addsMade cs + (t.run cs).addsOf c := by
  induction cs generalizing t with
  | nil => simp [addsMade]
  | cons d cs ih => simp [addsMade, ih, run_cons, Nat.add_assoc]

theorem threaded_perform (ht : t.arena.Threaded free)
    (hc : ∀ id, (t.perform c).result ≠ .error (.freedTwice id)) :
    ∃ free', (t.perform c).state.arena.Threaded free' := by
  rcases t.arena_perform c with hrel | ⟨ds, hds, heq⟩ | ⟨id, heq, hfail⟩
  · exact ⟨free, ht.relinked hrel⟩
  · rw [heq]
    exact ht.run (Arena.careful_of_not_frees hds)
  · rw [heq]
    refine ht.free_state ?_
    cases hl : t.arena.freeLink id with
    | none => rfl
    | some next => exact absurd (hfail _ (by rw [Arena.free_freed hl]; rfl)) (hc id)

theorem threaded_run (ht : t.arena.Threaded free)
    (hcs : ∀ id, .error (.freedTwice id) ∉ t.results cs) :
    ∃ free', (t.run cs).arena.Threaded free' := by
  induction cs generalizing t free with
  | nil => exact ⟨free, ht⟩
  | cons c cs ih =>
    simp only [results_cons, List.mem_cons, not_or] at hcs
    obtain ⟨free', ht'⟩ := threaded_perform ht fun id h => (hcs id).1 h.symm
    exact ih ht' fun id => (hcs id).2

theorem error_not_mem_of_all_ok (h : ((t.results cs).all fun r => r.toOption.isSome) = true)
    (f : Fault) : .error f ∉ t.results cs := by
  intro hmem
  have hsome := List.all_eq_true.mp h _ hmem
  simp [Except.toOption] at hsome

theorem decided_perform (hz : SlotSize.bytes α * maxBlockEntries < wordLimit) (hb : t.Balanced)
    (hl : t.LaidOut chains stops) (hcarved : t.arena.carved < maxEntries)
    (hadds : t.traffic.added + t.addsOf c < wordLimit)
    (ht : c.allocates = true → ∃ free, t.arena.Threaded free) : t.Decided c := by
  cases c with
  | newEntry h x =>
    obtain ⟨free, ht⟩ := ht rfl
    exact decided_newEntry hz ht hcarved h x
  | newSharedEntry h x =>
    obtain ⟨free, ht⟩ := ht rfl
    exact decided_newSharedEntry hz ht hcarved h x
  | addEntry i id =>
    exact decided_addEntry hb fun hnone => by simpa [addsOf, Call.adds, hnone] using hadds
  | setBucket i head => exact decided_setBucket t i head
  | setNext id next => exact decided_update rfl rfl rfl
  | increment => exact decided_increment hb hadds
  | unlink i id => exact decided_unlink hl i id
  | freeEntry id => exact decided_freeEntry hb id
  | freeUnlinked id => exact decided_freeUnlinked t id
  | setLiteral id x => exact decided_update rfl rfl rfl
  | resize n => exact decided_resize hl n
  | maybeGrow maxSize load => exact decided_maybeGrow hl maxSize load

theorem Decided.failsByChecks (h : t.Decided c) : t.FailsByChecks c where
  fails f := by
    rcases h with ⟨hnone, r, u, hp⟩ | ⟨g, u, hsome, hp, -⟩
    · simp [hnone, hp]
    · simp [hsome, hp]
  leaves f u hp := by
    rcases h with ⟨-, r, v, hok⟩ | ⟨g, v, -, hfail, hleaves⟩
    · simp [hok] at hp
    · obtain ⟨rfl, rfl⟩ := Outcome.fail.inj (hfail.symm.trans hp)
      exact hleaves
  refused := by
    rintro m rfl e
    by_cases hm : Allocatable m
    · simp only [perform, resize, hm, ↓reduceDIte, not_true_eq_false, false_and, iff_false]
      cases (t.clear m hm.1).migrate t.migrationBound t.buckets.toList <;> simp
    · simp [perform, resize_refused hm, hm, eq_comm]
  refused_state := by
    rintro m rfl hm
    simp [perform, resize_refused hm]

/-- In every state that a run of calls leaves, if its chains end and share no id, a call fails
exactly by its checks. -/
theorem fails_by_checks (hz : SlotSize.bytes α * maxBlockEntries < wordLimit)
    (ht : create n tag = .ok t) (hl : (t.run cs).LaidOut chains stops)
    (hcarved : (t.run cs).arena.carved < maxEntries)
    (hadds : t.addsMade (cs ++ [c]) < wordLimit)
    (honce : c.allocates = true → ∀ id, .error (.freedTwice id) ∉ t.results cs) :
    (t.run cs).FailsByChecks c := by
  obtain ⟨hr, hb, -, hzero⟩ := represents_create ht
  rw [addsMade_concat] at hadds
  have hroom : t.traffic.added + t.addsMade cs < wordLimit := by omega
  obtain ⟨hbal, hadded⟩ := balanced_run hb hroom
  refine (decided_perform hz hbal hl hcarved (by omega) fun hc => ?_).failsByChecks
  exact threaded_run hr.threaded (honce hc)

end

theorem fails_by_checks_dead_end :
    ∃ (_ : Memory) (t : Table UInt32) (a b : EntryId) (cs : List (Call UInt32)),
      create 2 .symbol = .ok t ∧
      cs = [.newEntry 1 10, .newEntry 3 30, .addEntry 1 a, .addEntry 1 b, .freeUnlinked a] ∧
      (t.run cs).firstFault (.resize 3) = some (.notAllocated a) ∧
      ((t.run cs).perform (.resize 3)).result = .error (.notAllocated a) ∧
      (t.run cs).FailsByChecks (.resize 3) := by
  let mem : Memory := .below 100 (by decide)
  let a : EntryId := .ofIndex 0 (by decide)
  let b : EntryId := .ofIndex 1 (by decide)
  let cs : List (Call UInt32) :=
    [.newEntry 1 10, .newEntry 3 30, .addEntry 1 a, .addEntry 1 b, .freeUnlinked a]
  let t : Table UInt32 := ⟨emptyBuckets 2, 0, .empty, .symbol, .zero, by decide⟩
  have ht : create 2 .symbol = .ok t := rfl
  have hl := laidOut_walks (t := t.run cs) (by decide +kernel) (by decide +kernel)
  have hfails : (t.run cs).FailsByChecks (.resize 3) :=
    fails_by_checks (by decide) ht hl (by decide +kernel) (by decide +kernel)
      (by simp [Call.allocates])
  have hfirst : (t.run cs).firstFault (.resize 3) = some (.notAllocated a) := by decide +kernel
  exact ⟨mem, t, a, b, cs, ht, rfl, hfirst, (hfails.fails _).mpr hfirst, hfails⟩

end Table

end ChainedTable
