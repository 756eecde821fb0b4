import ChainedTable.Proofs.Table.Counted
import ChainedTable.Literal
import ChainedTable.Table.Call

set_option autoImplicit false

/-!
Deeds: the composite operations with which a table is run when every live entry is linked. A deed is
an operation on tables and one on ledgers, and the table simulates the ledger: from a table and a
ledger that agree, both give the same answers and agree again, for deeds of any number and order.
-/

namespace ChainedTable

variable {α : Type}

inductive Deed (α : Type) where
  | insert (hash : UInt32) (literal : α)
  | insertShared (hash : UInt32) (literal : α)
  /-- Takes a linked entry out and recycles it. -/
  | remove (id : EntryId)
  /-- Makes an entry and recycles it at once. -/
  | drop (hash : UInt32) (literal : α)
  | store (id : EntryId) (literal : α)
  | resize (size : Nat)
  | maybeGrow (maxSize load : Nat)

def Deed.adds : Deed α → Bool
  | .insert _ _ => true
  | .insertShared _ _ => true
  | _ => false

namespace Table

def act [SlotSize α] [Memory] (t : Table α) : Deed α → Outcome (Table α) (List (Reply α))
  | .insert hash literal => (t.insert hash literal).map fun id => [.made id]
  | .insertShared hash literal => (t.insertShared hash literal).map fun id => [.made id]
  | .remove id => (t.remove id).map fun literal => literal.toList.map .recycled
  | .drop hash literal =>
    (t.newEntry hash literal).bind fun id t =>
      (t.freeUnlinked id).map fun literal => [.made id, .recycled literal]
  | .store id literal => (t.setLiteral id literal).map fun _ => []
  | .resize size => (t.resize size).map fun r => [.resized r]
  | .maybeGrow maxSize load => (t.maybeGrow maxSize load).map fun b => [.answer b]

def acts [SlotSize α] [Memory] (t : Table α) :
    List (Deed α) → Outcome (Table α) (List (List (Reply α)))
  | [] => .ok [] t
  | d :: ds => (t.act d).bind fun r t => (t.acts ds).map (r :: ·)

end Table

namespace Ledger

def growth (m : Ledger α) (maxSize load : Nat) : Growth :=
  if maxSize ≤ m.buckets.length then .atLimit
  else if m.linked.length / m.buckets.length ≤ load then .belowLoad
  else .growTo (min (2 * m.buckets.length) maxSize)

def act [Memory] (m : Ledger α) : Deed α → Option (List (Reply α) × Ledger α)
  | .insert hash literal => m.take?.map fun (id, m') =>
    ([.made id], (m'.put id ⟨hash, literal, false⟩).link (m.index hash) id)
  | .insertShared hash literal => m.take?.map fun (id, m') =>
    ([.made id], (m'.put id ⟨hash, literal, true⟩).link (m.index hash) id)
  | .remove id =>
    match m.entries.lookup id with
    | some ⟨hash, literal, false⟩ =>
      some ([.recycled literal], (m.unlink (m.index hash) id).recycle id)
    | _ => none
  | .drop hash literal => m.take?.map fun (id, m') =>
    ([.made id, .recycled literal], (m'.put id ⟨hash, literal, false⟩).recycle id)
  | .store id literal =>
    (m.entries.lookup id).map fun c => ([], m.put id { c with literal := literal })
  | .resize size =>
    some ([.resized (if Allocatable size then .ok () else .error (refusal size))], m.resizeTo size)
  | .maybeGrow maxSize load =>
    some ([.answer (m.growth maxSize load).attempts], m.grow (m.growth maxSize load))

def acts [Memory] (m : Ledger α) : List (Deed α) → Option (List (List (Reply α)) × Ledger α)
  | [] => some ([], m)
  | d :: ds => (m.act d).bind fun (r, m) => (m.acts ds).map fun (rs, m) => (r :: rs, m)

/-- When there is such a deed: an id is left, or the entry to write is there, or the one to remove
is there and not shared. -/
def Admits (m : Ledger α) : Deed α → Prop
  | .insert _ _ => m.freed ≠ [] ∨ m.next < maxEntries
  | .insertShared _ _ => m.freed ≠ [] ∨ m.next < maxEntries
  | .drop _ _ => m.freed ≠ [] ∨ m.next < maxEntries
  | .remove id => ∃ c, m.entries.lookup id = some c ∧ c.shared = false
  | .store id _ => ∃ c, m.entries.lookup id = some c
  | .resize _ => True
  | .maybeGrow _ _ => True

theorem isSome_act_iff [Memory] (m : Ledger α) (d : Deed α) : (m.act d).isSome ↔ m.Admits d := by
  cases d with
  | insert h x => simp only [act, Option.isSome_map, isSome_take?, Admits]
  | insertShared h x => simp only [act, Option.isSome_map, isSome_take?, Admits]
  | drop h x => simp only [act, Option.isSome_map, isSome_take?, Admits]
  | remove id =>
    cases hc : m.entries.lookup id with
    | none => simp [act, Admits, hc]
    | some c =>
      obtain ⟨h, x, shared⟩ := c
      cases shared <;> simp [act, Admits, hc]
  | store id x => simp only [act, Option.isSome_map, Option.isSome_iff_exists, Admits]
  | resize n => simp [act, Admits]
  | maybeGrow maxSize load => simp [act, Admits]

def listing (m : Ledger α) (ids : List EntryId) : List (EntryId × Content α) :=
  ids.filterMap fun id => (m.entries.lookup id).map (Prod.mk id)

end Ledger

def Linked.reading (x : Linked α) : EntryId × Content α := (x.1, x.2.content)

namespace Table

/-- A table that represents a ledger in which every entry is linked, and counts them right. -/
structure Simulates (t : Table α) (m : Ledger α) : Prop where
  represents : t.Represents m
  balanced : t.Balanced
  linked : ∀ {id : EntryId} {c : Content α}, m.entries.lookup id = some c → id ∈ m.linked
  count : t.count = m.linked.length

variable {t u v : Table α} {m m' : Ledger α} {id : EntryId} {c : Content α} {n : Nat}
  {tag : MemoryTag}

theorem simulates_create [Memory] (ht : create n tag = .ok t) : t.Simulates (.start n) := by
  obtain ⟨hr, hb, hc, -⟩ := represents_create ht
  exact ⟨hr, hb, fun h => by simp [Ledger.start] at h, by simp [hc]⟩

namespace Simulates

theorem counted (h : t.Simulates m) : t.Counted m := ⟨h.represents, h.balanced, h.count⟩

theorem of_counted (hc : t.Counted m)
    (hlinked : ∀ {id c}, m.entries.lookup id = some c → id ∈ m.linked) : t.Simulates m :=
  ⟨hc.represents, hc.balanced, hlinked, hc.count⟩

theorem growth (h : t.Simulates m) (maxSize load : Nat) :
    t.growth maxSize load = m.growth maxSize load := by
  rw [Table.growth, Ledger.growth, h.represents.size, h.count]

theorem mem_chain (h : t.Simulates m) (hc : m.entries.lookup id = some c) :
    id ∈ m.chain (m.index c.hash) := by
  obtain ⟨i, hi⟩ := Ledger.mem_linked.mp (h.linked hc)
  have hp := h.represents.placed_hash hi
  have hh : (m.hash id).toNat % m.buckets.length = m.index c.hash := by
    simp [Ledger.hash, hc, Ledger.index]
  rwa [← hh, hp]

theorem added_entry (h : t.Simulates m) {i : Nat} (hm : m.take? = some (id, m'))
    (hu : u.Counted ((m'.put id c).link i id))
    (hmem : ∀ j, j ∈ ((m'.put id c).link i id).linked ↔ j = id ∨ j ∈ m.linked) :
    u.Simulates ((m'.put id c).link i id) := by
  refine of_counted hu fun {j d} hj => ?_
  change (m'.put id c).entries.lookup j = some d at hj
  rw [hmem]
  rw [Ledger.lookup_put, (Ledger.take?_same hm).2] at hj
  split at hj
  · rename_i hji
    exact .inl hji
  · exact .inr (h.linked hj)

theorem removed_entry (h : t.Simulates m) {i : Nat}
    (hu : u.Counted ((m.unlink i id).recycle id))
    (hmem : ∀ j, j ∈ ((m.unlink i id).recycle id).linked ↔ j ≠ id ∧ j ∈ m.linked) :
    u.Simulates ((m.unlink i id).recycle id) := by
  refine of_counted hu fun {j d} hj => ?_
  rw [hmem]
  rw [Ledger.lookup_recycle] at hj
  split at hj
  · simp at hj
  · rename_i hne
    exact ⟨hne, h.linked hj⟩

theorem same (h : t.Simulates m) (hru : u.Represents m') (hs : SameCounts t u)
    (hmem : ∀ j, j ∈ m'.linked ↔ j ∈ m.linked)
    (hlookup : ∀ {j d}, m'.entries.lookup j = some d → j ∈ m.linked) : u.Simulates m' :=
  of_counted (h.counted.same hru hs hmem) fun hj => (hmem _).mpr (hlookup hj)

theorem act [SlotSize α] [Memory] (hz : SlotSize.bytes α * maxBlockEntries < wordLimit)
    (h : t.Simulates m) {d : Deed α} {r : List (Reply α)} (hd : m.act d = some (r, m'))
    (hroom : t.traffic.added + (if d.adds then 1 else 0) < wordLimit) :
    ∃ u, t.act d = .ok r u ∧ u.Simulates m' ∧
      u.traffic.added = t.traffic.added + if d.adds then 1 else 0 := by
  have hr := h.represents
  cases d with
  | insert hash x =>
    obtain ⟨⟨id, m₁⟩, hm, heq⟩ := Option.map_eq_some_iff.mp hd
    obtain ⟨rfl, rfl⟩ := Prod.mk.inj heq
    obtain ⟨u, hu, hcu, hmem, -, -, hadded⟩ := h.counted.insert hz hm hroom hash x
    exact ⟨u, by simp [Table.act, hu], h.added_entry hm hcu hmem, hadded⟩
  | insertShared hash x =>
    obtain ⟨⟨id, m₁⟩, hm, heq⟩ := Option.map_eq_some_iff.mp hd
    obtain ⟨rfl, rfl⟩ := Prod.mk.inj heq
    obtain ⟨u, hu, hcu, hmem, -, -, hadded⟩ := h.counted.insertShared hz hm hroom hash x
    exact ⟨u, by simp [Table.act, hu], h.added_entry hm hcu hmem, hadded⟩
  | remove id =>
    simp only [Ledger.act] at hd
    split at hd
    · rename_i hash x hc
      obtain ⟨rfl, rfl⟩ := Prod.mk.inj (Option.some.inj hd)
      obtain ⟨u, hu, hcu, hmem, -, -, hadded⟩ := h.counted.remove (h.linked hc) hc
      exact ⟨u, by simp [Table.act, hu], h.removed_entry hcu hmem, hadded⟩
    · simp at hd
  | drop hash x =>
    obtain ⟨⟨id, m₁⟩, hm, heq⟩ := Option.map_eq_some_iff.mp hd
    obtain ⟨rfl, rfl⟩ := Prod.mk.inj heq
    obtain ⟨v, hv, hs, hid, -, hrv⟩ := hr.newEntry (h := hash) (x := x) hz hm
    -- what is dropped was on no chain
    have hlinked : (m₁.put id ⟨hash, x, false⟩).linked = m.linked := Ledger.linked_made hm
    have hc : (m₁.put id ⟨hash, x, false⟩).entries.lookup id = some ⟨hash, x, false⟩ := by
      simp [Ledger.lookup_put]
    obtain ⟨u, hu, ⟨hcu, htu⟩, hru⟩ :=
      hrv.freeUnlinked hc rfl (by rw [hlinked]; exact hr.not_linked hid)
    have hs : SameCounts t u := ⟨hcu.trans hs.1, htu.trans hs.2⟩
    refine ⟨u, by simp [Table.act, hv, hu], h.same hru hs (fun j => ?_) (fun {j d} hj => ?_),
      by rw [hs.2]; rfl⟩
    · rw [Ledger.linked_recycle, hlinked]
    · rw [Ledger.lookup_recycle, Ledger.lookup_put, (Ledger.take?_same hm).2] at hj
      split at hj
      · simp at hj
      · exact h.linked hj
  | store id x =>
    obtain ⟨c, hc, heq⟩ := Option.map_eq_some_iff.mp hd
    obtain ⟨rfl, rfl⟩ := Prod.mk.inj heq
    obtain ⟨u, hu, hs, hru⟩ := hr.setLiteral (x := x) hc
    refine ⟨u, by simp [Table.act, hu], h.same hru hs (fun j => by rw [Ledger.linked_put])
      (fun {j d} hj => ?_), by rw [hs.2]; rfl⟩
    rw [Ledger.lookup_put] at hj
    split at hj
    · rename_i hji
      exact hji ▸ h.linked hc
    · exact h.linked hj
  | resize n =>
    obtain ⟨rfl, rfl⟩ := Prod.mk.inj (Option.some.inj hd)
    obtain ⟨u, hu, hs, hru⟩ := hr.resizeTo n
    refine ⟨u, by simp [Table.act, hu], h.same hru hs (fun j => Ledger.mem_linked_resizeTo)
      (fun {j d} hj => ?_), by rw [hs.2]; rfl⟩
    rw [Ledger.entries_resizeTo] at hj
    exact h.linked hj
  | maybeGrow maxSize load =>
    obtain ⟨rfl, rfl⟩ := Prod.mk.inj (Option.some.inj hd)
    rw [← h.growth]
    obtain ⟨u, hu, hs, hru⟩ := hr.maybeGrow maxSize load
    refine ⟨u, by simp [Table.act, hu], h.same hru hs (fun j => Ledger.mem_linked_grow _)
      (fun {j d} hj => ?_), by rw [hs.2]; rfl⟩
    rw [Ledger.entries_grow] at hj
    exact h.linked hj

end Simulates

structure Agrees (t : Table α) (m : Ledger α) : Prop where
  size : t.size = m.buckets.length
  count : t.count = m.linked.length
  get : ∀ id, (t.arena.get? id).map Entry.content = m.entries.lookup id
  head : ∀ i, t.head i = (m.chain i).head?
  links : ∀ i, Path t.arena.link (t.head i) (m.chain i) none
  chain : ∀ {i : Nat}, i < t.size → ∀ limit, ∃ l, t.chain i limit = .ok l ∧
    l.map Linked.reading = (m.listing (m.chain i)).take limit
  entries : ∀ limit, ∃ l, t.entries limit = .ok l ∧
    l.map Linked.reading = (m.listing m.linked).take limit
  bucketIndexOf : ∀ id, t.bucketIndexOf id =
    .ok (if id ∈ m.linked then some (m.index (m.hash id)) else none)
  freeList : t.arena.freeList = m.freed
  freeCount : t.arena.freeCount = m.freed.length
  carved : t.arena.carved = m.next
  liveCount : t.arena.liveCount = m.linked.length
  traffic : t.traffic.added = t.count + t.traffic.removed

namespace Represents

theorem listing (hr : t.Represents m) {l : List (Linked α)}
    (hl : ∀ x ∈ l, t.arena.get? x.1 = some x.2) :
    l.map Linked.reading = m.listing (l.map Prod.fst) := by
  have hsame : ∀ id, ((t.arena.get? id).map (Prod.mk id)).map Linked.reading =
      (m.entries.lookup id).map (Prod.mk id) := by
    intro id
    rw [← hr.content? id, Arena.content?, Option.map_map, Option.map_map]
    rfl
  conv_lhs => rw [Arena.eq_filterMap_get? hl]
  rw [List.map_filterMap]
  simp only [hsame, Ledger.listing]

theorem bucketIndexOf (hr : t.Represents m) (id : EntryId) : t.bucketIndexOf id =
    .ok (if id ∈ m.linked then some (m.index (m.hash id)) else none) := by
  rw [Table.bucketIndexOf, hr.arranged.firstMeeting]
  congr 1
  cases hf : (List.range t.size).find? fun i => id ∈ m.chain i with
  | none =>
    rw [List.find?_eq_none] at hf
    rw [if_neg]
    intro hid
    obtain ⟨i, hi⟩ := Ledger.mem_linked.mp hid
    have hlt := hr.arranged.lt_size hi
    exact hf i (List.mem_range.mpr hlt) (by simpa using hi)
  | some i =>
    have hi : id ∈ m.chain i := by simpa using List.find?_some hf
    rw [if_pos (Ledger.mem_linked.mpr ⟨i, hi⟩), Ledger.index, hr.placed_hash hi]

end Represents

theorem Simulates.liveCount (h : t.Simulates m) : t.arena.liveCount = m.linked.length := by
  have hr := h.represents
  -- the linked and the freed ids together are the carved ones
  have hdead : ∀ id ∈ m.freed, id ∉ m.linked := by
    intro id hid hmem
    obtain ⟨c, hc⟩ := hr.live_of_linked hmem
    rw [← hr.content? id, Arena.content?, hr.threaded.get?_none hid] at hc
    simp at hc
  have hnd : (m.linked ++ m.freed).Nodup := by
    refine List.nodup_append.mpr ⟨hr.nodup_linked, hr.threaded.path.nodup, fun i hi j hj hij => ?_⟩
    exact hdead j hj (hij ▸ hi)
  have hall : ∀ id, id ∈ m.linked ++ m.freed ↔ id.index < t.arena.carved := by
    intro id
    rw [hr.threaded.carved_iff, List.mem_append, ← Arena.isSome_content?, hr.content? id]
    constructor
    · intro hid
      refine hid.imp_left fun hmem => ?_
      obtain ⟨c, hc⟩ := hr.live_of_linked hmem
      simp [hc]
    · intro hid
      refine hid.imp_left fun hsome => ?_
      obtain ⟨c, hc⟩ := Option.isSome_iff_exists.mp hsome
      exact h.linked hc
  have hlen := length_eq_of_mem_iff hnd hall hr.threaded.carved_le
  rw [List.length_append, ← hr.threaded.count] at hlen
  simp only [Arena.liveCount, Arena.carved] at hlen ⊢
  omega

theorem Simulates.agrees (h : t.Simulates m) : t.Agrees m := by
  have hr := h.represents
  have harr := hr.arranged
  constructor
  case size => exact hr.size
  case count => exact h.count
  case get => exact hr.content?
  case head => exact harr.head
  case links => exact harr.path
  case chain =>
    intro i hi limit
    obtain ⟨hend, hids⟩ := harr.walk i
    refine ⟨(t.walk i).visited.take limit, ?_, ?_⟩
    · simp [Table.chain, checkIndex, hi, Walk.take_closed hend]
    · have hlive : ∀ x ∈ (t.walk i).visited, t.arena.get? x.1 = some x.2 :=
        fun x hx => Arena.get?_of_mem_walk hx
      rw [List.map_take, hr.listing hlive]
      exact congrArg (fun ids => (m.listing ids).take limit) hids
  case entries =>
    intro limit
    have hids : t.traversal.ids = m.linked := by
      rw [harr.traversal_ids, ← hr.linked, Table.linked]
    refine ⟨t.traversal.visited.take limit, ?_, ?_⟩
    · rw [entries_eq, Walk.take_closed (by rw [harr.traversal_eq])]
    · rw [List.map_take, hr.listing fun x hx => harr.get?_of_mem_traversal hx]
      exact congrArg (fun ids => (m.listing ids).take limit) hids
  case bucketIndexOf => exact hr.bucketIndexOf
  case freeList => exact Arena.freeList_of_path hr.threaded.path
  case freeCount => exact hr.threaded.count
  case carved => exact hr.carved
  case liveCount => exact h.liveCount
  case traffic => exact h.balanced.added_eq

theorem Simulates.acts [SlotSize α] [Memory] (hz : SlotSize.bytes α * maxBlockEntries < wordLimit)
    {ds : List (Deed α)} (h : t.Simulates m) {answers : List (List (Reply α))}
    (hm : m.acts ds = some (answers, m'))
    (hroom : t.traffic.added + ds.countP Deed.adds < wordLimit) :
    ∃ u, t.acts ds = .ok answers u ∧ u.Simulates m' ∧
      u.traffic.added = t.traffic.added + ds.countP Deed.adds := by
  induction ds generalizing t m answers with
  | nil =>
    obtain ⟨rfl, rfl⟩ := Prod.mk.inj (Option.some.inj hm)
    exact ⟨t, rfl, h, rfl⟩
  | cons d ds ih =>
    obtain ⟨⟨r, m₁⟩, hd, hm⟩ := Option.bind_eq_some_iff.mp hm
    obtain ⟨⟨rs, m₂⟩, hds, heq⟩ := Option.map_eq_some_iff.mp hm
    obtain ⟨rfl, rfl⟩ := Prod.mk.inj heq
    rw [List.countP_cons] at hroom ⊢
    obtain ⟨v, hv, hvm, hone⟩ := h.act hz hd (by omega)
    obtain ⟨u, hu, hum, hrest⟩ := ih hvm hds (by omega)
    exact ⟨u, by simp [Table.acts, hv, hu], hum, by omega⟩

/-- Whatever deeds a new table is run with, each gives the answer that the ledger gives, and then
every reader of the table agrees with the ledger. A run stops where the ledger has no deed. -/
theorem acts_agrees [SlotSize α] [Memory] (hz : SlotSize.bytes α * maxBlockEntries < wordLimit)
    (ht : create n tag = .ok t) {ds : List (Deed α)} {answers : List (List (Reply α))}
    (hm : (Ledger.start n).acts ds = some (answers, m))
    (hroom : ds.countP Deed.adds < wordLimit) :
    ∃ u, t.acts ds = .ok answers u ∧ u.Agrees m ∧ u.traffic.added = ds.countP Deed.adds := by
  obtain ⟨-, -, -, hzero⟩ := represents_create ht
  obtain ⟨u, hu, hum, hadded⟩ := (simulates_create ht).acts hz hm (by omega)
  exact ⟨u, hu, hum.agrees, by omega⟩

theorem acts_agrees_reuse :
    ∃ (_ : Memory) (t u : Table UInt32) (a b : EntryId) (answers : List (List (Reply UInt32)))
      (m : Ledger UInt32), create 2 .symbol = .ok t ∧
      (Ledger.start 2).acts [.insert 5 50, .insertShared 3 30, .remove a, .drop 1 10, .resize 3,
        .insert 9 90, .store b 31, .maybeGrow 7 0] = some (answers, m) ∧
      t.acts [.insert 5 50, .insertShared 3 30, .remove a, .drop 1 10, .resize 3,
        .insert 9 90, .store b 31, .maybeGrow 7 0] = .ok answers u ∧ u.Agrees m := by
  let mem : Memory := .below 100 (by decide)
  let a : EntryId := .ofIndex 0 (by decide)
  let b : EntryId := .ofIndex 1 (by decide)
  let ds : List (Deed UInt32) := [.insert 5 50, .insertShared 3 30, .remove a, .drop 1 10,
    .resize 3, .insert 9 90, .store b 31, .maybeGrow 7 0]
  let t : Table UInt32 := ⟨emptyBuckets 2, 0, .empty, .symbol, .zero, by decide⟩
  have ht : create 2 .symbol = .ok t := rfl
  have hm : ((Ledger.start 2).acts ds).isSome := by decide +kernel
  obtain ⟨⟨answers, m⟩, hm⟩ := Option.isSome_iff_exists.mp hm
  obtain ⟨u, hu, hagrees, -⟩ := acts_agrees (by decide) ht hm (by decide)
  exact ⟨mem, t, u, a, b, answers, m, ht, hm, hu, hagrees⟩

end Table

end ChainedTable
