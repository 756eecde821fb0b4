import ChainedTable.Proofs.Verification
import Mathlib.Data.List.TakeWhile

set_option autoImplicit false

namespace ChainedTable

variable {α : Type}

theorem split_of_find? {l : List EntryId} {keep : EntryId → Bool} {d : EntryId}
    (h : (l.find? fun id => !keep id) = some d) :
    ∃ met rest, l = met ++ d :: rest ∧ keep d = false ∧ (∀ id ∈ met, keep id = true) ∧
      ∀ more, (l ++ more).takeWhile keep = met := by
  obtain ⟨hd, met, rest, rfl, hmet⟩ := List.find?_eq_some_iff_append.mp h
  have hd : keep d = false := by simpa using hd
  have hmet : ∀ id ∈ met, keep id = true := by simpa using hmet
  refine ⟨met, rest, rfl, hd, hmet, fun more => ?_⟩
  rw [List.append_assoc, List.takeWhile_append_of_pos hmet, List.cons_append,
    List.takeWhile_cons_of_neg (by simp [hd]), List.append_nil]

/-- Walks that each break off at the first id that is not kept break off there together. -/
theorem Walk.flatten_takeWhile {ws : Nat → Walk α} {chains : Nat → List EntryId}
    (keep : EntryId → Bool) (is : List Nat)
    (hids : ∀ i ∈ is, (ws i).ids = (chains i).takeWhile keep)
    (hend : ∀ i ∈ is, (ws i).ending = .ofStop ((chains i).find? fun id => !keep id)) :
    (flatten (is.map ws)).ids = (is.flatMap chains).takeWhile keep ∧
      (flatten (is.map ws)).ending = .ofStop ((is.flatMap chains).find? fun id => !keep id) := by
  induction is with
  | nil => exact ⟨rfl, rfl⟩
  | cons i is ih =>
    obtain ⟨hrest, hrestend⟩ := ih (fun j hj => hids j (by simp [hj])) fun j hj =>
      hend j (by simp [hj])
    have hi := hids i (by simp)
    have hiend := hend i (by simp)
    rw [List.map_cons, flatten_cons, List.flatMap_cons, List.find?_append]
    cases hf : (chains i).find? fun id => !keep id with
    | some d =>
      -- the rest of the walks is not reached
      rw [hf] at hiend
      obtain ⟨met, rest, -, -, -, htake⟩ := split_of_find? hf
      have hmet : (chains i).takeWhile keep = met := by simpa using htake []
      rw [append_dead hiend, hi, hmet, htake]
      exact ⟨rfl, hiend⟩
    | none =>
      rw [hf] at hiend
      have hall : ∀ id ∈ chains i, keep id = true := by simpa using hf
      have hself : (chains i).takeWhile keep = chains i := List.takeWhile_eq_self_iff.mpr hall
      rw [append_closed hiend, List.takeWhile_append_of_pos hall, ← hrest, ← hself, ← hi]
      exact ⟨List.map_append, by simpa using hrestend⟩

namespace Table

/-- `u` is `t` with the entries `ids` gone, wherever they are linked. -/
structure Punctured (t u : Table α) (ids : List EntryId) : Prop where
  size : u.size = t.size
  head : ∀ i, u.head i = t.head i
  get? : ∀ id, u.arena.get? id = if id ∈ ids then none else t.arena.get? id

/-- What a resize to `n` buckets leaves that broke off after the ids `met`. -/
structure Interrupted (t u : Table α) (met : List EntryId) (n : Nat) : Prop where
  size : u.size = n
  chain : ∀ j < n, (u.walk j).ending = .closed ∧
    (u.walk j).ids = (met.filter fun id => (t.arena.hash id).toNat % n = j).reverse
  lost : ∀ id, id ∉ met → u.bucketIndexOf id = .ok none ∧ u.arena.get? id = t.arena.get? id
  relinked : Relinked t u
  freeList : u.arena.freeList = t.arena.freeList

variable {t u : Table α} {chains : Nat → List EntryId} {id : EntryId} {e : Entry α} {n : Nat}
  {ids : List EntryId}

/-- Freeing a live entry that is not shared, linked or not; that the removal may not be counted any
more does not matter. -/
theorem punctured_freeEntry (he : t.arena.get? id = some e) (hs : e.isShared = false)
    (hc : t.count ≠ 0) :
    t.Punctured (t.freeEntry id).state [id] ∧ (t.freeEntry id).state.count = t.count - 1 := by
  have hfree := Arena.free_live he hs
  have hget : ∀ j, (t.arena.released id).get? j = if j ∈ [id] then none else t.arena.get? j := by
    intro j
    simp [Arena.get?_released (Arena.index_lt_of_get? he)]
  obtain ⟨r, hr⟩ : ∃ r, (t.freeEntry id).state =
      { t with arena := t.arena.released id, count := t.count - 1, traffic := r } := by
    simp only [freeEntry, hc, ↓reduceIte, freeUnlinked, onArena_eq, hfree, Outcome.mapState_ok,
      Outcome.bind_ok]
    cases t.traffic.recordRemove with
    | error f => exact ⟨t.traffic, rfl⟩
    | ok r => exact ⟨r, rfl⟩
  rw [hr]
  exact ⟨⟨rfl, fun _ => rfl, hget⟩, rfl⟩

theorem punctured_run [SlotSize α] [Memory] (hnd : ids.Nodup)
    (hlive : ∀ id ∈ ids, ∃ e, t.arena.get? id = some e ∧ e.isShared = false)
    (hc : ids.length ≤ t.count) : t.Punctured (t.run (ids.map .freeEntry)) ids := by
  induction ids generalizing t with
  | nil => exact ⟨rfl, fun _ => rfl, fun _ => by simp⟩
  | cons id ids ih =>
    obtain ⟨hnot, hnd⟩ := List.nodup_cons.mp hnd
    rw [List.length_cons] at hc
    obtain ⟨e, he, hs⟩ := hlive id (by simp)
    obtain ⟨hone, hcount⟩ := punctured_freeEntry he hs (by omega)
    have hrest : ∀ j ∈ ids, ∃ e, (t.freeEntry id).state.arena.get? j = some e ∧
        e.isShared = false := by
      intro j hj
      have hne : j ≠ id := fun hje => hnot (hje ▸ hj)
      rw [hone.get? j, if_neg (by simpa using hne)]
      exact hlive j (by simp [hj])
    have hmore := ih hnd hrest (by omega)
    rw [List.map_cons, run_cons, perform, Outcome.state_map]
    refine ⟨hmore.size.trans hone.size, fun i => (hmore.head i).trans (hone.head i), fun j => ?_⟩
    rw [hmore.get? j, hone.get? j]
    by_cases hj : j ∈ ids <;> simp [hj]

namespace Punctured

theorem path (hp : t.Punctured u ids) (h : t.Arranged chains) (i : Nat) :
    Path u.arena.link (u.head i) ((chains i).takeWhile fun id => id ∉ ids)
      ((chains i).find? fun id => !decide (id ∉ ids)) := by
  rw [hp.head i]
  refine (h.path i).takeWhile _ fun id _ hid => ?_
  rw [decide_eq_true_eq] at hid
  simp only [Arena.link, hp.get? id, if_neg hid]

theorem laidOut (hp : t.Punctured u ids) (h : t.Arranged chains) :
    u.LaidOut (fun i => (chains i).takeWhile fun id => id ∉ ids)
      fun i => (chains i).find? fun id => !decide (id ∉ ids) where
  path := hp.path h
  dead := by
    intro i id hid
    have hmem : id ∈ ids := by simpa using List.find?_some hid
    rw [hp.get? id, if_pos hmem]
  apart := by
    intro i j id hi hj
    exact h.apart ((List.takeWhile_sublist _).mem hi) ((List.takeWhile_sublist _).mem hj)

theorem traversal (hp : t.Punctured u ids) (h : t.Arranged chains) :
    u.traversal.ids = (t.linked chains).takeWhile (fun id => id ∉ ids) ∧
      u.traversal.ending = .ofStop ((t.linked chains).find? fun id => !decide (id ∉ ids)) := by
  have hl := hp.laidOut h
  rw [traversal_flatten, hp.size]
  exact Walk.flatten_takeWhile _ _ (fun i _ => (hl.walk i).2) fun i _ => (hl.walk i).1

end Punctured

theorem Arranged.bucketIndexOf_none (h : t.Arranged chains) (hid : ∀ i, id ∉ chains i) :
    t.bucketIndexOf id = .ok none := by
  have hnone : ((List.range t.size).find? fun i => id ∈ chains i) = none :=
    List.find?_eq_none.mpr fun i _ => by simpa using hid i
  rw [bucketIndexOf, h.firstMeeting, hnone]

/-- Where entries of a well formed table were freed while they were linked, a resize meets the ids
ahead of the first of them, puts these on the chains of the new size, and stops. All others are on
no chain then. -/
theorem resize_stops_at_freed [SlotSize α] [Memory] (h : t.WellFormed chains) (hne : ids ≠ [])
    (hnd : ids.Nodup) (hlinked : ∀ id ∈ ids, ∃ i, id ∈ chains i)
    (hfree : ∀ id ∈ ids, ∃ e, t.arena.get? id = some e ∧ e.isShared = false)
    (hn : Allocatable n) :
    ∃ met d rest u, t.linked chains = met ++ d :: rest ∧ d ∈ ids ∧ (∀ id ∈ met, id ∉ ids) ∧
      (t.run (ids.map .freeEntry)).traversal.ids = met ∧
      (t.run (ids.map .freeEntry)).traversal.ending = .dead d ∧
      (t.run (ids.map .freeEntry)).resize n = .fail (.notAllocated d) u ∧
      (t.run (ids.map .freeEntry)).Interrupted u met n := by
  have hsub : ∀ id ∈ ids, id ∈ t.linked chains := fun id hid => h.mem_linked.mpr (hlinked id hid)
  have hcount : ids.length ≤ t.count := by
    rw [h.counted]
    exact (hnd.subperm hsub).length_le
  have hp := punctured_run hnd hfree hcount
  generalize t.run (ids.map .freeEntry) = v at hp
  have hl := hp.laidOut h.toArranged
  obtain ⟨hmet, hend⟩ := hp.traversal h.toArranged
  cases hf : (t.linked chains).find? fun id => !decide (id ∉ ids) with
  | none =>
    obtain ⟨id, hid⟩ := List.exists_mem_of_ne_nil ids hne
    exact absurd (List.find?_eq_none.mp hf id (hsub id hid)) (by simp [hid])
  | some d =>
    obtain ⟨met, rest, hsplit, hd, hkept, htake⟩ := split_of_find? hf
    rw [hf] at hend
    have hmet : v.traversal.ids = met := by rw [hmet, ← htake [], List.append_nil]
    have hend : v.traversal.ending = .dead d := hend
    obtain ⟨u, hu, hrel, hsize, harr, hlink⟩ := hl.resize hn
    rw [hmet] at harr hlink
    rw [hend] at hu
    refine ⟨met, d, rest, u, hsplit, by simpa using hd, by simpa using hkept, hmet, hend, hu, ?_⟩
    constructor
    case size => exact hsize
    case chain => exact fun j _ => harr.walk j
    case lost =>
      intro id hid
      exact ⟨harr.bucketIndexOf_none (by simp [hid]), hrel.arena.get?_eq (hlink id hid)⟩
    case relinked => exact hrel
    case freeList => exact hrel.arena.freeList

theorem resize_stops_at_freed_tail :
    ∃ (_ : Memory) (t u : Table UInt32) (a b c e : EntryId) (cs : List (Call UInt32)),
      create 3 .symbol = .ok t ∧
      cs = [.newEntry 0 7, .newEntry 3 8, .newEntry 1 9, .newEntry 2 6, .addEntry 0 a,
        .addEntry 0 b, .addEntry 1 c, .addEntry 2 e] ∧
      ((t.run cs).WellFormed fun i => ((t.run cs).walk i).ids) ∧
      ((t.run cs).run [.freeEntry c, .freeEntry a]).resize 2 = .fail (.notAllocated a) u ∧
      ((t.run cs).run [.freeEntry c, .freeEntry a]).Interrupted u [b] 2 ∧
      u.bucketIndexOf e = .ok none := by
  let mem : Memory := .below 100 (by decide)
  let a : EntryId := .ofIndex 0 (by decide)
  let b : EntryId := .ofIndex 1 (by decide)
  let c : EntryId := .ofIndex 2 (by decide)
  let e : EntryId := .ofIndex 3 (by decide)
  let cs : List (Call UInt32) :=
    [.newEntry 0 7, .newEntry 3 8, .newEntry 1 9, .newEntry 2 6, .addEntry 0 a, .addEntry 0 b,
      .addEntry 1 c, .addEntry 2 e]
  let t : Table UInt32 := ⟨emptyBuckets 3, 0, .empty, .symbol, .zero, by decide⟩
  have hpass : ((t.run cs).verify "symbols" fun _ => true).result.toOption = some ⟨4, 2, 0⟩ := by
    decide +kernel
  have hnd : [c, a].Nodup := by decide
  have hfree : ∀ id ∈ [c, a], ((t.run cs).arena.get? id).map Entry.isShared = some false := by
    decide +kernel
  have hmet : ((t.run cs).run [.freeEntry c, .freeEntry a]).traversal.ids = [b] := by
    decide +kernel
  have hend : ((t.run cs).run [.freeEntry c, .freeEntry a]).traversal.ending = .dead a := by
    decide +kernel
  have hw := wellFormed_of_report hpass
  have hlinked : ∀ id ∈ [c, a], ∃ i, id ∈ ((t.run cs).walk i).ids := by
    intro id hid
    rcases List.mem_pair.mp hid with rfl | rfl
    · exact ⟨1, by decide +kernel⟩
    · exact ⟨0, by decide +kernel⟩
  obtain ⟨met, d, rest, u, -, -, -, hids, hdead, hu, hi⟩ :=
    resize_stops_at_freed (n := 2) hw (by simp) hnd hlinked
      (fun id hid => by simpa using hfree id hid) (by decide)
  have hb : met = [b] := hids.symm.trans hmet
  have ha : d = a := by simpa using hdead.symm.trans hend
  rw [hb] at hi
  rw [ha] at hu
  have he : e ∉ [b] := by decide
  exact ⟨mem, t, u, a, b, c, e, cs, rfl, rfl, hw, hu, hi, (hi.lost e he).1⟩

end Table

end ChainedTable
