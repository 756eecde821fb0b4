import ChainedTable.Proofs.Table.Representation
import ChainedTable.Literal
import ChainedTable.Table.Call

set_option autoImplicit false

/-!
Sessions: a table together with what its caller has to keep in mind, the ids that are counted and,
among them, those that were taken off their chain again. A caller who adds an entry once, at the
bucket of its hash, and recycles a counted one only when it is off its chain, meets no fault, and
the table stays in order.
-/

namespace ChainedTable

variable {α : Type}

structure Session (α : Type) where
  table : Table α
  /-- The ids added and not recycled since. -/
  counted : List EntryId
  /-- The counted ids that were taken off a chain. -/
  detached : List EntryId
  adds : Nat

namespace Table

def OnChain (t : Table α) (id : EntryId) : Prop := ∃ i, id ∈ (t.walk i).ids

def Live (t : Table α) (id : EntryId) : Prop := (t.arena.get? id).isSome

instance (t : Table α) (id : EntryId) : Decidable (t.Live id) :=
  inferInstanceAs (Decidable ((t.arena.get? id).isSome = true))

def IsShared (t : Table α) (id : EntryId) : Prop :=
  ∃ e, t.arena.get? id = some e ∧ e.isShared = true

namespace Represents

variable {t : Table α} {m : Ledger α} {id : EntryId} {c : Content α}

theorem onChain_iff (hr : t.Represents m) : t.OnChain id ↔ id ∈ m.linked := by
  rw [Ledger.mem_linked, OnChain]
  simp only [(hr.arranged.walk _).2]

theorem shared_of_not (hr : t.Represents m) (hc : m.entries.lookup id = some c)
    (h : ¬ t.IsShared id) : c.shared = false := by
  obtain ⟨e, he, rfl⟩ := hr.get? hc
  by_contra hs
  exact h ⟨e, he, Bool.eq_true_of_not_eq_false hs⟩

end Represents

end Table

namespace Session

def start (t : Table α) : Session α := ⟨t, [], [], 0⟩

/-- The calls of a caller who knows what the table leaves to it. Heads, links and the count are
not written by hand, and only as many slots and adds are asked for as there are numbers for. -/
def Permits (s : Session α) : Call α → Prop
  | .newEntry _ _ => s.table.arena.carved < maxEntries
  | .newSharedEntry _ _ => s.table.arena.carved < maxEntries
  | .addEntry index id =>
    (∃ e, s.table.arena.get? id = some e ∧ index = s.table.hashToIndex e.hash) ∧
      id ∉ s.counted ∧ s.adds + 1 < wordLimit
  | .unlink index id => index < s.table.size ∧ s.table.Live id
  | .freeEntry id => id ∈ s.detached ∧ ¬ s.table.IsShared id
  | .freeUnlinked id => s.table.Live id ∧ id ∉ s.counted ∧ ¬ s.table.IsShared id
  | .setLiteral id _ => s.table.Live id
  | .resize _ => True
  | .maybeGrow _ _ => True
  | .setBucket _ _ => False
  | .setNext _ _ => False
  | .increment => False

def note (s : Session α) : Call α → Outcome (Table α) (Reply α) → Session α
  | .addEntry _ id, .ok _ t => { s with table := t, counted := id :: s.counted, adds := s.adds + 1 }
  | .unlink _ id, .ok (.answer true) t => { s with table := t, detached := id :: s.detached }
  | .freeEntry id, .ok _ t =>
    { s with table := t, counted := s.counted.erase id, detached := s.detached.erase id }
  | _, o => { s with table := o.state }

def after [SlotSize α] [Memory] (s : Session α) (c : Call α) : Session α :=
  s.note c (s.table.perform c)

inductive Reached [SlotSize α] [Memory] (n : Nat) (tag : MemoryTag) : Session α → Prop where
  | start {t : Table α} : Table.create n tag = .ok t → Reached n tag (start t)
  | step {s : Session α} {c : Call α} : Reached n tag s → s.Permits c → Reached n tag (s.after c)

/-- A table in order. The slots carved are those of linked entries, of live entries on no chain,
and of the free list. -/
structure Orderly (s : Session α) : Prop where
  size_pos : 0 < s.table.size
  chains_end : ∀ i, (s.table.walk i).ending = .closed
  chain_nodup : ∀ i, (s.table.walk i).ids.Nodup
  apart : ∀ {i j : Nat} {id : EntryId},
    id ∈ (s.table.walk i).ids → id ∈ (s.table.walk j).ids → i = j
  free_ends : Path s.table.arena.freeLink s.table.arena.freeHead s.table.arena.freeList none
  free_nodup : s.table.arena.freeList.Nodup
  carved_iff : ∀ id, id.index < s.table.arena.carved ↔
    s.table.Live id ∨ id ∈ s.table.arena.freeList
  linked_live : ∀ id, s.table.OnChain id → s.table.Live id
  free_dead : ∀ id, id ∈ s.table.arena.freeList → ¬ s.table.Live id
  free_count : s.table.arena.freeCount = s.table.arena.freeList.length
  placed : ∀ {i : Nat} {id : EntryId} {e : Entry α}, id ∈ (s.table.walk i).ids →
    s.table.arena.get? id = some e → s.table.hashToIndex e.hash = i
  detached_nodup : s.detached.Nodup
  detached_loose : ∀ id ∈ s.detached, s.table.Live id ∧ ¬ s.table.OnChain id
  counted_iff : ∀ id, id ∈ s.counted ↔ s.table.OnChain id ∨ id ∈ s.detached
  count : s.table.count = s.table.traversal.ids.length + s.detached.length
  added : s.table.traffic.added = s.adds
  removed : s.table.traffic.added = s.table.count + s.table.traffic.removed

structure Keeps (s : Session α) (m : Ledger α) : Prop where
  represents : s.table.Represents m
  balanced : s.table.Balanced
  added : s.table.traffic.added = s.adds
  count : s.table.count = s.counted.length
  counted_nodup : s.counted.Nodup
  counted_iff : ∀ id, id ∈ s.counted ↔ id ∈ m.linked ∨ id ∈ s.detached
  detached_nodup : s.detached.Nodup
  detached_loose : ∀ id ∈ s.detached, id ∉ m.linked ∧ ∃ c, m.entries.lookup id = some c

variable {s : Session α} {u : Table α} {m m' : Ledger α} {id : EntryId} {n : Nat}
  {tag : MemoryTag}

theorem keeps_start [Memory] {t : Table α} (h : Table.create n tag = .ok t) :
    (start t).Keeps (.start n) := by
  obtain ⟨hr, hb, hc, hadded⟩ := Table.represents_create h
  exact ⟨hr, hb, hadded, hc, .nil, by simp [start], .nil, by simp [start]⟩

namespace Keeps

theorem live_iff (hk : s.Keeps m) :
    s.table.Live id ↔ ∃ c, m.entries.lookup id = some c := by
  rw [Table.Live, ← Option.isSome_iff_exists, ← hk.represents.content? id, Arena.isSome_content?]

theorem onChain_iff (hk : s.Keeps m) : s.table.OnChain id ↔ id ∈ m.linked :=
  hk.represents.onChain_iff

theorem same (hk : s.Keeps m) (hu : u.Represents m') (hs : Table.SameCounts s.table u)
    (hlinked : ∀ j, j ∈ m'.linked ↔ j ∈ m.linked)
    (hlive : ∀ j ∈ s.detached, ∃ c, m'.entries.lookup j = some c) :
    Keeps { s with table := u } m' where
  represents := hu
  balanced := hk.balanced.same hs
  added := (congrArg Traffic.added hs.2).trans hk.added
  count := hs.1.trans hk.count
  counted_nodup := hk.counted_nodup
  counted_iff j := by rw [hk.counted_iff j, hlinked j]
  detached_nodup := hk.detached_nodup
  detached_loose j hj := by
    rw [hlinked j]
    exact ⟨(hk.detached_loose j hj).1, hlive j hj⟩

theorem made (hk : s.Keeps m) {c : Content α} (hm : m.take? = some (id, m'))
    (hu : u.Represents (m'.put id c)) (hs : Table.SameCounts s.table u) :
    Keeps { s with table := u } (m'.put id c) := by
  refine hk.same hu hs (fun j => by rw [Ledger.linked_made hm]) fun j hj => ?_
  apply Ledger.exists_lookup_put
  rw [(Ledger.take?_same hm).2]
  exact (hk.detached_loose j hj).2

theorem not_linked (hk : s.Keeps m) (h : id ∉ s.counted) : id ∉ m.linked :=
  fun hid => h ((hk.counted_iff id).mpr (.inl hid))

theorem added_entry (hk : s.Keeps m) {i : Nat} (hi : i < m.buckets.length)
    (hnew : id ∉ s.counted) (hu : u.Represents (m.link i id)) (hb : u.Balanced)
    (hcount : u.count = s.table.count + 1) (hadded : u.traffic.added = s.table.traffic.added + 1) :
    Keeps { s with table := u, counted := id :: s.counted, adds := s.adds + 1 } (m.link i id) where
  represents := hu
  balanced := hb
  added := by rw [hadded, hk.added]
  count := by simp [hcount, hk.count]
  counted_nodup := hk.counted_nodup.cons hnew
  counted_iff j := by rw [List.mem_cons, hk.counted_iff j, Ledger.mem_linked_link hi, or_assoc]
  detached_nodup := hk.detached_nodup
  detached_loose j hj := by
    obtain ⟨hloose, hlive⟩ := hk.detached_loose j hj
    have hne : j ≠ id := by
      intro heq
      subst heq
      exact hnew ((hk.counted_iff j).mpr (.inr hj))
    refine ⟨?_, hlive⟩
    rw [Ledger.mem_linked_link hi]
    simp [hne, hloose]

theorem unlinked_entry (hk : s.Keeps m) {i : Nat} (hid : id ∈ m.chain i)
    (hu : u.Represents (m.unlink i id)) (hs : Table.SameCounts s.table u) :
    Keeps { s with table := u, detached := id :: s.detached } (m.unlink i id) where
  represents := hu
  balanced := hk.balanced.same hs
  added := (congrArg Traffic.added hs.2).trans hk.added
  count := hs.1.trans hk.count
  counted_nodup := hk.counted_nodup
  counted_iff j := by
    rw [hk.counted_iff j, hk.represents.mem_unlink hid, List.mem_cons]
    by_cases hj : j = id
    · subst hj
      simp [Ledger.mem_linked.mpr ⟨i, hid⟩]
    · simp [hj]
  detached_nodup := by
    refine hk.detached_nodup.cons fun hmem => ?_
    exact (hk.detached_loose id hmem).1 (Ledger.mem_linked.mpr ⟨i, hid⟩)
  detached_loose j hj := by
    rw [hk.represents.mem_unlink hid]
    rcases List.mem_cons.mp hj with rfl | hj
    · exact ⟨by simp, hk.represents.lookup_of_mem hid⟩
    · obtain ⟨hloose, hlive⟩ := hk.detached_loose j hj
      exact ⟨by simp [hloose], hlive⟩

theorem freed_entry (hk : s.Keeps m) (hid : id ∈ s.detached) (hu : u.Represents (m.recycle id))
    (hb : u.Balanced) (hcount : u.count = s.table.count - 1)
    (hadded : u.traffic.added = s.table.traffic.added) :
    Keeps { s with
      table := u, counted := s.counted.erase id, detached := s.detached.erase id }
      (m.recycle id) where
  represents := hu
  balanced := hb
  added := hadded.trans hk.added
  count := by
    rw [hcount, hk.count, List.length_erase_of_mem ((hk.counted_iff id).mpr (.inr hid))]
  counted_nodup := hk.counted_nodup.erase id
  counted_iff j := by
    rw [hk.counted_nodup.mem_erase_iff, hk.detached_nodup.mem_erase_iff, hk.counted_iff j,
      Ledger.linked_recycle]
    have hne : j ∈ m.linked → j ≠ id := by
      intro hj heq
      subst heq
      exact (hk.detached_loose j hid).1 hj
    tauto
  detached_nodup := hk.detached_nodup.erase id
  detached_loose j hj := by
    obtain ⟨hne, hj⟩ := hk.detached_nodup.mem_erase_iff.mp hj
    obtain ⟨hloose, hlive⟩ := hk.detached_loose j hj
    exact ⟨hloose, by rwa [Ledger.lookup_recycle, if_neg hne]⟩

theorem performed [SlotSize α] [Memory] {c : Call α} {r : Reply α}
    (hp : s.table.perform c = .ok r u)
    (h : (s.note c (.ok r u)).Keeps m) :
    ∃ r u m', s.table.perform c = .ok r u ∧ (s.after c).Keeps m' :=
  ⟨r, u, m, hp, by rwa [after, hp]⟩

/-- A permitted call succeeds, and what it leaves is again a session on a ledger. -/
theorem step [SlotSize α] [Memory] (hz : SlotSize.bytes α * maxBlockEntries < wordLimit)
    (hk : s.Keeps m)
    {c : Call α} (hc : s.Permits c) :
    ∃ r u m', s.table.perform c = .ok r u ∧ (s.after c).Keeps m' := by
  have hr := hk.represents
  cases c with
  | newEntry h x =>
    obtain ⟨id, m', hm⟩ := hr.exists_take? hc
    obtain ⟨u, hu, hs, -, -, hru⟩ := hr.newEntry (h := h) (x := x) hz hm
    have hp : s.table.perform (.newEntry h x) = .ok (.made id) u := by simp [Table.perform, hu]
    exact performed hp (hk.made hm hru hs)
  | newSharedEntry h x =>
    obtain ⟨id, m', hm⟩ := hr.exists_take? hc
    obtain ⟨u, hu, hs, -, hru⟩ := hr.newSharedEntry (h := h) (x := x) hz hm
    have hp : s.table.perform (.newSharedEntry h x) = .ok (.made id) u := by
      simp [Table.perform, hu]
    exact performed hp (hk.made hm hru hs)
  | addEntry i id =>
    obtain ⟨⟨e, he, rfl⟩, hnew, hroom⟩ := hc
    have hc := hr.lookup he
    have hi : s.table.hashToIndex e.hash = m.index e.content.hash := by
      rw [Table.hashToIndex, Ledger.index, hr.size]
      rfl
    obtain ⟨u, hu, hru, hb, hcount, hadded⟩ :=
      hr.addEntry hk.balanced hc (hk.not_linked hnew) (by rwa [hk.added])
    have hp : s.table.perform (.addEntry (s.table.hashToIndex e.hash) id) = .ok .done u := by
      rw [hi]
      simp [Table.perform, hu]
    refine performed hp (hk.added_entry ?_ hnew hru hb hcount hadded)
    rw [← hi, ← hr.size]
    exact s.table.hashToIndex_lt _
  | setBucket i h => exact hc.elim
  | setNext id n => exact hc.elim
  | increment => exact hc.elim
  | unlink i id =>
    obtain ⟨hi, hlive⟩ := hc
    obtain ⟨c, hc⟩ := hk.live_iff.mp hlive
    by_cases hid : id ∈ m.chain i
    · obtain ⟨u, hu, hs, hru⟩ := hr.unlink_mem hid
      have hp : s.table.perform (.unlink i id) = .ok (.answer true) u := by
        simp [Table.perform, hu]
      exact performed hp (hk.unlinked_entry hid hru hs)
    · -- an entry that is elsewhere stays there, and nothing is noted
      have hu := hr.unlink_not_mem hi hc hid
      have hp : s.table.perform (.unlink i id) = .ok (.answer false) s.table := by
        simp [Table.perform, hu]
      exact performed hp hk
  | freeEntry id =>
    obtain ⟨hid, hshared⟩ := hc
    obtain ⟨hloose, c, hc⟩ := hk.detached_loose id hid
    have hcount : 0 < s.table.count := by
      rw [hk.count]
      exact List.length_pos_of_mem ((hk.counted_iff id).mpr (.inr hid))
    obtain ⟨u, hu, hru, hb, hcu, hadded⟩ :=
      hr.freeEntry hk.balanced hc (hr.shared_of_not hc hshared) hloose hcount
    have hp : s.table.perform (.freeEntry id) = .ok (.recycled c.literal) u := by
      simp [Table.perform, hu]
    exact performed hp (hk.freed_entry hid hru hb hcu hadded)
  | freeUnlinked id =>
    obtain ⟨hlive, hnew, hshared⟩ := hc
    obtain ⟨c, hc⟩ := hk.live_iff.mp hlive
    obtain ⟨u, hu, hs, hru⟩ :=
      hr.freeUnlinked hc (hr.shared_of_not hc hshared) (hk.not_linked hnew)
    have hp : s.table.perform (.freeUnlinked id) = .ok (.recycled c.literal) u := by
      simp [Table.perform, hu]
    refine performed hp (hk.same hru hs (fun j => by rw [Ledger.linked_recycle]) fun j hj => ?_)
    have hne : j ≠ id := by
      intro heq
      subst heq
      exact hnew ((hk.counted_iff j).mpr (.inr hj))
    rw [Ledger.lookup_recycle, if_neg hne]
    exact (hk.detached_loose j hj).2
  | setLiteral id x =>
    obtain ⟨c, hc⟩ := hk.live_iff.mp hc
    obtain ⟨u, hu, hs, hru⟩ := hr.setLiteral (x := x) hc
    have hp : s.table.perform (.setLiteral id x) = .ok .done u := by simp [Table.perform, hu]
    exact performed hp (hk.same hru hs (fun j => by rw [Ledger.linked_put]) fun j hj =>
      Ledger.exists_lookup_put (hk.detached_loose j hj).2)
  | resize n =>
    obtain ⟨u, hu, hs, hru⟩ := hr.resizeTo n
    have hp : s.table.perform (.resize n) =
        .ok (.resized (if Allocatable n then .ok () else .error (refusal n))) u := by
      simp [Table.perform, hu]
    refine performed hp (hk.same hru hs (fun j => Ledger.mem_linked_resizeTo) fun j hj => ?_)
    rw [Ledger.entries_resizeTo]
    exact (hk.detached_loose j hj).2
  | maybeGrow maxSize load =>
    obtain ⟨u, hu, hs, hru⟩ := hr.maybeGrow maxSize load
    have hp : s.table.perform (.maybeGrow maxSize load) =
        .ok (.answer (s.table.growth maxSize load).attempts) u := by
      simp [Table.perform, hu]
    refine performed hp (hk.same hru hs (fun j => Ledger.mem_linked_grow _) fun j hj => ?_)
    rw [Ledger.entries_grow]
    exact (hk.detached_loose j hj).2

theorem orderly (hk : s.Keeps m) : s.Orderly := by
  have hr := hk.represents
  have harr := hr.arranged
  have hfree := Arena.freeList_of_path hr.threaded.path
  have hids : s.table.traversal.ids = m.linked := by
    rw [harr.traversal_ids, ← hr.linked, Table.linked]
  have hdetached : ∀ j ∈ s.detached, j ∉ m.linked := fun j hj => (hk.detached_loose j hj).1
  have hperm : s.counted.Perm (m.linked ++ s.detached) := by
    refine (List.perm_ext_iff_of_nodup hk.counted_nodup ?_).mpr fun j => ?_
    · refine List.nodup_append.mpr ⟨hr.nodup_linked, hk.detached_nodup, ?_⟩
      intro i hi j hj heq
      exact hdetached j hj (heq ▸ hi)
    · rw [hk.counted_iff j, List.mem_append]
  constructor
  case size_pos => exact s.table.size_pos
  case chains_end => exact fun i => (harr.walk i).1
  case chain_nodup => exact harr.walks.nodup
  case apart => exact harr.walks.apart
  case free_ends =>
    rw [hfree]
    exact hr.threaded.path
  case free_nodup =>
    rw [hfree]
    exact hr.threaded.path.nodup
  case carved_iff =>
    intro id
    rw [hfree]
    exact hr.threaded.carved_iff
  case linked_live =>
    intro id hid
    exact hk.live_iff.mpr (hr.live_of_linked (hk.onChain_iff.mp hid))
  case free_dead =>
    intro id hid
    rw [hfree] at hid
    simp [Table.Live, hr.threaded.get?_none hid]
  case free_count => rw [hfree, hr.threaded.count]
  case placed =>
    intro i id e hid he
    rw [(harr.walk i).2] at hid
    rw [← Table.bucketOf_of_get? he]
    exact hr.placed hid
  case detached_nodup => exact hk.detached_nodup
  case detached_loose =>
    intro id hid
    rw [hk.onChain_iff, hk.live_iff]
    exact ⟨(hk.detached_loose id hid).2, hdetached id hid⟩
  case counted_iff =>
    intro id
    rw [hk.counted_iff id, hk.onChain_iff]
  case count => rw [hk.count, hperm.length_eq, List.length_append, hids]
  case added => exact hk.added
  case removed => exact hk.balanced.added_eq

end Keeps

theorem Reached.keeps [SlotSize α] [Memory] (hz : SlotSize.bytes α * maxBlockEntries < wordLimit)
    (h : Reached n tag s) : ∃ m, s.Keeps m := by
  induction h with
  | start ht => exact ⟨_, keeps_start ht⟩
  | step _ hc ih =>
    obtain ⟨m, hk⟩ := ih
    obtain ⟨r, u, m', -, hk'⟩ := hk.step hz hc
    exact ⟨m', hk'⟩

/-- In every session the table is in order, and the next permitted call succeeds. -/
theorem orderly_and_progress [SlotSize α] [Memory]
    (hz : SlotSize.bytes α * maxBlockEntries < wordLimit) (h : Reached n tag s) :
    s.Orderly ∧ ∀ c, s.Permits c → ∃ r, (s.table.perform c).result = .ok r := by
  obtain ⟨m, hk⟩ := h.keeps hz
  refine ⟨hk.orderly, fun c hc => ?_⟩
  obtain ⟨r, u, m', hp, -⟩ := hk.step hz hc
  exact ⟨r, by rw [hp, Outcome.result_ok]⟩

theorem orderly_and_progress_detached :
    ∃ (_ : Memory) (s : Session UInt32) (id : EntryId), s.Reached 2 .symbol ∧
      s.detached = [id] ∧ s.Orderly ∧ ∃ r, (s.table.perform (.freeEntry id)).result = .ok r := by
  let mem : Memory := .below 100 (by decide)
  let id : EntryId := .ofIndex 0 (by decide)
  let t : Table UInt32 := ⟨Table.emptyBuckets 2, 0, .empty, .symbol, .zero, by decide⟩
  have h₀ : Reached 2 .symbol (start t) := .start rfl
  have h₁ := h₀.step (c := .newEntry 5 7) (by show 0 < maxEntries; decide)
  have h₂ := h₁.step (c := .addEntry 1 id)
    ⟨⟨.fresh 5 7, by decide +kernel, by decide +kernel⟩, by decide +kernel, by decide +kernel⟩
  have h₃ := h₂.step (c := .unlink 1 id) ⟨by decide +kernel, by decide +kernel⟩
  obtain ⟨horderly, hprogress⟩ := orderly_and_progress (by decide) h₃
  refine ⟨mem, _, id, h₃, by decide +kernel, horderly, hprogress _ ⟨by decide +kernel, ?_⟩⟩
  intro ⟨e, he, hs⟩
  have hfresh : e = .fresh 5 7 := Option.some.inj (he.symm.trans (by decide +kernel))
  simp [hfresh] at hs

end Session

end ChainedTable
