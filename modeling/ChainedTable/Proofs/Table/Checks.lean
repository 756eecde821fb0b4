import ChainedTable.Proofs.Table.Calls
import ChainedTable.Proofs.Table.Representation

set_option autoImplicit false

/-!
The checks of the calls. `Table.firstFault` says, in the order in which a call makes its checks,
which fault it is to meet, by readers of the table only. On a table whose chains end, be it at a
dead id, a call meets that fault and no other, and leaves the table as it was. Two faults come too
late for that: a slot that is freed twice has its link bent, and a resize that meets a dead id has
moved what it met before.
-/

namespace ChainedTable

variable {α : Type}

def Arena.freeFault (a : Arena α) (id : EntryId) : Option Fault :=
  if a.carved ≤ id.index then some (.neverAllocated id)
  else
    match a.get? id with
    | some e => if e.isShared then some (.sharedFreed id) else none
    | none => some (.freedTwice id)

namespace Table

def movesTo [Memory] (t : Table α) : Call α → Option Nat
  | .resize size => if Allocatable size then some size else none
  | .maybeGrow maxSize load =>
    match t.growth maxSize load with
    | .growTo size => if Allocatable size then some size else none
    | _ => none
  | _ => none

def firstFault [Memory] (t : Table α) : Call α → Option Fault
  | .newEntry _ _ | .newSharedEntry _ _ | .increment => none
  | .addEntry index id =>
    if t.size ≤ index then some (.indexOutOfRange index t.size)
    else if (t.arena.get? id).isNone then some (.notAllocated id)
    else none
  | .setBucket index _ => if t.size ≤ index then some (.indexOutOfRange index t.size) else none
  | .setNext id _ | .setLiteral id _ =>
    if (t.arena.get? id).isNone then some (.notAllocated id) else none
  | .unlink index id =>
    if (t.arena.get? id).isNone then some (.notAllocated id)
    else if t.size ≤ index then some (.indexOutOfRange index t.size)
    else if id ∈ (t.walk index).ids then none
    else (t.walk index).ending.deadId?.map .notAllocated
  | .freeEntry id => if t.count = 0 then some .nothingCounted else t.arena.freeFault id
  | .freeUnlinked id => t.arena.freeFault id
  | .resize size =>
    (t.movesTo (.resize size)).bind fun _ => t.traversal.ending.deadId?.map .notAllocated
  | .maybeGrow maxSize load =>
    (t.movesTo (.maybeGrow maxSize load)).bind fun _ => t.traversal.ending.deadId?.map .notAllocated

/-- What a move to `n` buckets leaves that meets a dead id: the ids met before are on the chains of
their hashes, latest first, and no others are linked. -/
structure BrokenOff (t u : Table α) (n : Nat) : Prop where
  relinked : Relinked t u
  size : u.size = n
  arranged : u.Arranged fun j =>
    (t.traversal.ids.filter fun id => (t.arena.hash id).toNat % n = j).reverse
  link : ∀ id, id ∉ t.traversal.ids → u.arena.link id = t.arena.link id

structure Leaves [Memory] (t u : Table α) (c : Call α) (f : Fault) : Prop where
  same : (∀ id, f ≠ .freedTwice id) → t.movesTo c = none → u = t
  bent : ∀ id, f = .freedTwice id →
    u = { t with arena := t.arena.withFree id t.arena.freeHead }
  broken : ∀ n, t.movesTo c = some n → t.BrokenOff u n

def Decided [SlotSize α] [Memory] (t : Table α) (c : Call α) : Prop :=
  (t.firstFault c = none ∧ ∃ r u, t.perform c = .ok r u) ∨
    ∃ f u, t.firstFault c = some f ∧ t.perform c = .fail f u ∧ t.Leaves u c f

end Table

theorem Arena.free_decided (a : Arena α) (id : EntryId) :
    (a.freeFault id = none ∧ ∃ x b, a.free id = .ok x b) ∨
      ∃ f b, a.freeFault id = some f ∧ a.free id = .fail f b ∧
        ((∀ j, f ≠ .freedTwice j) ∧ b = a ∨
          f = .freedTwice id ∧ b = a.withFree id a.freeHead) := by
  by_cases hle : a.carved ≤ id.index
  · have hs : a.slots[id.index]? = none := Array.getElem?_eq_none hle
    exact .inr ⟨.neverAllocated id, a, by simp [freeFault, hle], by simp [free, hs], by simp⟩
  · rcases live_or_free (Nat.lt_of_not_le hle) with ⟨e, he⟩ | ⟨n, hn⟩
    · have hs := get?_eq_some.mp he
      cases hshared : e.isShared with
      | false => exact .inl ⟨by simp [freeFault, hle, he, hshared], _, _, free_live he hshared⟩
      | true =>
        exact .inr ⟨.sharedFreed id, a, by simp [freeFault, hle, he, hshared],
          by simp [free, hs, hshared], by simp⟩
    · exact .inr ⟨.freedTwice id, _, by simp [freeFault, hle, get?_of_freeLink hn], free_freed hn,
        by simp⟩

namespace Table

variable {t u : Table α} {c : Call α} {f : Fault} {id : EntryId} {i n : Nat}
  {chains : Nat → List EntryId} {stops : Nat → Option EntryId} {free : List EntryId}

section
variable [SlotSize α]

theorem decided_ok [Memory] {r : Reply α} (hf : t.firstFault c = none)
    (hp : t.perform c = .ok r u) :
    t.Decided c := .inl ⟨hf, r, u, hp⟩

theorem decided_fail [Memory] (hf : t.firstFault c = some f) (hp : t.perform c = .fail f t)
    (hnot : ∀ id, f ≠ .freedTwice id) (hm : t.movesTo c = none) : t.Decided c :=
  .inr ⟨f, t, hf, hp, fun _ _ => rfl, fun id hid => absurd hid (hnot id), by simp [hm]⟩

theorem decided_setBucket [Memory] (t : Table α) (i : Nat) (h : Option EntryId) :
    t.Decided (.setBucket i h) := by
  rcases Nat.lt_or_ge i t.size with hi | hi
  · refine decided_ok (r := .done) (u := t.setHead i h) ?_ ?_
    · simp [firstFault, hi]
    · simp [perform, setBucket, checkIndex_of_lt hi]
  · refine decided_fail (f := .indexOutOfRange i t.size) ?_ ?_ (by simp) rfl
    · simp [firstFault, hi]
    · simp [perform, setBucket, checkIndex_of_le hi]

theorem decided_update [Memory] (hc : t.firstFault c =
      if (t.arena.get? id).isNone then some (.notAllocated id) else none)
    {g : Entry α → Entry α}
    (hp : t.perform c = (t.onArena fun a => a.update id g).map fun _ => .done)
    (hm : t.movesTo c = none) : t.Decided c := by
  cases he : t.arena.get? id with
  | none =>
    refine decided_fail (f := .notAllocated id) (by simp [hc, he]) ?_ (by simp) hm
    rw [hp, onArena_eq, Arena.update_dead he]
    rfl
  | some e =>
    refine decided_ok (r := .done) (u := t.store id (g e)) (by simp [hc, he]) ?_
    rw [hp, onArena_eq, Arena.update_live he]
    rfl

theorem decided_addEntry [Memory] (hb : t.Balanced) {i : Nat} {id : EntryId}
    (hroom : t.firstFault (.addEntry i id) = none → t.traffic.added + 1 < wordLimit) :
    t.Decided (.addEntry i id) := by
  rcases Nat.lt_or_ge i t.size with hi | hi
  · cases he : t.arena.get? id with
    | none =>
      refine decided_fail (f := .notAllocated id) ?_ ?_ (by simp) rfl
      · simp [firstFault, hi, he]
      · simp [perform, addEntry, checkIndex_of_lt hi, he]
    | some e =>
      have hnone : t.firstFault (.addEntry i id) = none := by simp [firstFault, hi, he]
      refine decided_ok (r := .done) (u := (t.prepend i id e).tallied) hnone ?_
      simp [perform, (hb.addEntry hi he (hroom hnone)).1]
  · refine decided_fail (f := .indexOutOfRange i t.size) ?_ ?_ (by simp) rfl
    · simp [firstFault, hi]
    · simp [perform, addEntry, checkIndex_of_le hi]

theorem decided_increment [Memory] (hb : t.Balanced) (hroom : t.traffic.added + 1 < wordLimit) :
    t.Decided .increment :=
  decided_ok (r := .done) (u := t.tallied) rfl (by simp [perform, (hb.increment hroom).1])

theorem decided_unlink [Memory] (h : t.LaidOut chains stops) (i : Nat) (id : EntryId) :
    t.Decided (.unlink i id) := by
  cases he : t.arena.get? id with
  | none =>
    refine decided_fail (f := .notAllocated id) ?_ ?_ (by simp) rfl
    · simp [firstFault, he]
    · simp [perform, unlink, he]
  | some e =>
    rcases Nat.lt_or_ge i t.size with hi | hi
    · obtain ⟨hend, hids⟩ := h.walk i
      by_cases hid : id ∈ chains i
      · obtain ⟨u, hu⟩ := h.unlink_mem hid
        refine decided_ok (r := .answer true) (u := u) ?_ (by simp [perform, hu])
        simp [firstFault, he, hi, hids, hid]
      · have hu := h.unlink_not_mem hi he hid
        cases hs : stops i with
        | none =>
          rw [hend, hs] at hu
          refine decided_ok (r := .answer false) (u := t) ?_ (by rw [perform, hu]; rfl)
          simp [firstFault, he, hi, hids, hid, hend, hs, Ending.deadId?_ofStop]
        | some p =>
          rw [hend, hs] at hu
          refine decided_fail (f := .notAllocated p) ?_ (by rw [perform, hu]; rfl) (by simp) rfl
          simp [firstFault, he, hi, hids, hid, hend, hs, Ending.deadId?_ofStop]
    · refine decided_fail (f := .indexOutOfRange i t.size) ?_ ?_ (by simp) rfl
      · simp [firstFault, he, hi]
      · simp [perform, unlink, he, checkIndex_of_le hi]

/-- A call that fails as the arena does when it frees, and then leaves the rest of the table
alone. -/
theorem decided_free [Memory] (id : EntryId) (hc : t.firstFault c = t.arena.freeFault id)
    (hok : ∀ x b, t.arena.free id = .ok x b → ∃ r u, t.perform c = .ok r u)
    (hfail : ∀ f b, t.arena.free id = .fail f b → t.perform c = .fail f { t with arena := b })
    (hm : t.movesTo c = none) : t.Decided c := by
  rcases t.arena.free_decided id with ⟨hf, x, b, hb⟩ | ⟨f, b, hf, hb, ⟨hnot, rfl⟩ | ⟨rfl, rfl⟩⟩
  · exact .inl ⟨hc.trans hf, hok x b hb⟩
  · exact decided_fail (hc.trans hf) (hfail f t.arena hb) hnot hm
  · refine .inr ⟨_, _, hc.trans hf, hfail _ _ hb, ?_⟩
    constructor
    case same => exact fun h => absurd rfl (h id)
    case bent =>
      intro j hj
      obtain rfl : id = j := by simpa using hj
      rfl
    case broken => simp [hm]

theorem decided_freeUnlinked [Memory] (t : Table α) (id : EntryId) :
    t.Decided (.freeUnlinked id) := by
  refine decided_free id rfl (fun x b hb => ?_) (fun f b hb => ?_) rfl
  · exact ⟨.recycled x, { t with arena := b }, by simp [perform, freeUnlinked, onArena_eq, hb]⟩
  · simp [perform, freeUnlinked, onArena_eq, hb]

theorem decided_freeEntry [Memory] (hb : t.Balanced) (id : EntryId) :
    t.Decided (.freeEntry id) := by
  by_cases hc : t.count = 0
  · refine decided_fail (f := .nothingCounted) ?_ ?_ (by simp) rfl
    · simp [firstFault, hc]
    · simp [perform, freeEntry, hc]
  · refine decided_free id (by simp [firstFault, hc]) (fun x b hfree => ?_)
      (fun f b hfree => ?_) rfl
    · exact ⟨.recycled x, t.untallied b, by simp [perform, (hb.freeEntry hc hfree).1]⟩
    · simp [perform, freeEntry, hc, freeUnlinked, onArena_eq, hfree]

theorem decided_move [Memory] (h : t.LaidOut chains stops) (hn : Allocatable n)
    (hm : t.movesTo c = some n)
    (hc : t.firstFault c = t.traversal.ending.deadId?.map .notAllocated)
    {g : Except Refusal Unit → Reply α} (hp : t.perform c = (t.resize n).map g) : t.Decided c := by
  obtain ⟨u, hu, hrel, hsize, harr, hlink⟩ := h.resize hn
  rw [hu] at hp
  cases he : t.traversal.ending with
  | closed =>
    rw [he] at hp
    exact decided_ok (by rw [hc, he]; rfl) hp
  | dead p =>
    rw [he] at hp
    refine .inr ⟨.notAllocated p, u, by rw [hc, he]; rfl, hp, ?_⟩
    constructor
    case same => simp [hm]
    case bent => simp
    case broken =>
      intro k hk
      obtain rfl : n = k := by simpa [hm] using hk
      exact ⟨hrel, hsize, harr, hlink⟩
  | unfinished => exact absurd he h.traversal_ends

theorem decided_resize [Memory] (h : t.LaidOut chains stops) (n : Nat) : t.Decided (.resize n) := by
  by_cases hn : Allocatable n
  · exact decided_move h hn (by simp [movesTo, hn]) (by simp [firstFault, movesTo, hn]) rfl
  · refine decided_ok (r := .resized (.error (refusal n))) (u := t) ?_ ?_
    · simp [firstFault, movesTo, hn]
    · simp [perform, resize_refused hn]

theorem decided_maybeGrow [Memory] (h : t.LaidOut chains stops) (maxSize load : Nat) :
    t.Decided (.maybeGrow maxSize load) := by
  cases hg : t.growth maxSize load with
  | atLimit =>
    exact decided_ok (r := .answer false) (u := t) (by simp [firstFault, movesTo, hg])
      (by simp [perform, maybeGrow, hg])
  | belowLoad =>
    exact decided_ok (r := .answer false) (u := t) (by simp [firstFault, movesTo, hg])
      (by simp [perform, maybeGrow, hg])
  | growTo n =>
    by_cases hn : Allocatable n
    · refine decided_move (g := fun _ => .answer true) h hn (by simp [movesTo, hg, hn])
        (by simp [firstFault, movesTo, hg, hn]) ?_
      simp only [perform, maybeGrow, hg]
      cases t.resize n <;> rfl
    · refine decided_ok (r := .answer true) (u := t) ?_ ?_
      · simp [firstFault, movesTo, hg, hn]
      · simp [perform, maybeGrow, hg, resize_refused hn]

theorem allocate_of_threaded (hz : SlotSize.bytes α * maxBlockEntries < wordLimit)
    (ht : t.arena.Threaded free) (hroom : t.arena.carved < maxEntries) (h : UInt32) (x : α) :
    ∃ id b, t.arena.allocate h x t.sizing = .ok id b ∧ b.get? id = some (.fresh h x) := by
  obtain ⟨⟨id, rest, k⟩, hid⟩ := Option.isSome_iff_exists.mp (isSome_takeId.mpr (.inr hroom))
  obtain ⟨b, hb, -, -, -, hget⟩ := ht.allocate (h := h) (x := x) (z := t.sizing) hz hid
  exact ⟨id, b, hb, by simp [hget]⟩

theorem decided_newEntry [Memory] (hz : SlotSize.bytes α * maxBlockEntries < wordLimit)
    (ht : t.arena.Threaded free) (hroom : t.arena.carved < maxEntries) (h : UInt32) (x : α) :
    t.Decided (.newEntry h x) := by
  obtain ⟨id, b, hb, -⟩ := allocate_of_threaded hz ht hroom h x
  exact decided_ok (r := .made id) (u := { t with arena := b }) rfl
    (by simp [perform, newEntry, onArena_eq, hb])

theorem decided_newSharedEntry [Memory] (hz : SlotSize.bytes α * maxBlockEntries < wordLimit)
    (ht : t.arena.Threaded free) (hroom : t.arena.carved < maxEntries) (h : UInt32) (x : α) :
    t.Decided (.newSharedEntry h x) := by
  obtain ⟨id, b, hb, he⟩ := allocate_of_threaded hz ht hroom h x
  exact decided_ok (r := .made id)
    (u := { t with arena := b.store id (Entry.setShared (.fresh h x)) }) rfl
    (by simp [perform, newSharedEntry_eq, onArena_eq, hb, Arena.update_live he])

end

end Table

end ChainedTable
