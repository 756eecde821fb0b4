import ChainedTable.Proofs.Directory
import ChainedTable.Proofs.Simulation
import ChainedTable.Proofs.Table.Stock
import ChainedTable.Proofs.Verification

set_option autoImplicit false

/-!
Registries are directories. A lookup reads one chain only, and that is enough, since every entry is
on the chain of its hash whatever resizes there were. So a table that is used as a registry answers
as the directory does: there is one entry for a literal, and its id stays until it is taken out.
-/

namespace ChainedTable

variable {α : Type}

namespace Ledger

/-- What a lookup of a literal with this hash is to find among the linked entries. -/
def Finds (m : Ledger α) (hash : UInt32) (literal : α) : Option EntryId → Prop
  | some id => id ∈ m.linked ∧
    ∃ c, m.entries.lookup id = some c ∧ c.hash = hash ∧ c.literal = literal
  | none => ∀ id ∈ m.linked, ∀ c, m.entries.lookup id = some c →
    ¬ (c.hash = hash ∧ c.literal = literal)

structure Indexes [DecidableEq α] (m : Ledger α) (d : Directory α) : Prop where
  size : m.buckets.length = d.size
  freed : m.freed = d.freed
  next : m.next = d.next
  lookup_iff : ∀ k id, d.ids.lookup k = some id ↔ m.entries.lookup id = some ⟨k.1, k.2, false⟩
  unshared : ∀ {id : EntryId} {c : Content α}, m.entries.lookup id = some c → c.shared = false

variable {m m' : Ledger α} {id : EntryId} {c : Content α} {h : UInt32} {x : α} {i n : Nat}
  {found : Option EntryId}

theorem Finds.of_made (hf : (m'.put id c).Finds h x found) (hm : m.take? = some (id, m'))
    (hid : id ∉ m.linked) : m.Finds h x found := by
  have hlinked : (m'.put id c).linked = m.linked := linked_made hm
  have hlookup : ∀ j ∈ m.linked, (m'.put id c).entries.lookup j = m.entries.lookup j := by
    intro j hj
    have hne : j ≠ id := fun he => hid (he ▸ hj)
    rw [lookup_put, if_neg hne, (take?_same hm).2]
  cases found with
  | some j =>
    obtain ⟨hj, d, hd, hkey⟩ := hf
    rw [hlinked] at hj
    exact ⟨hj, d, hlookup j hj ▸ hd, hkey⟩
  | none =>
    intro j hj d hd
    rw [← hlookup j hj] at hd
    exact hf j (hlinked ▸ hj) d hd

variable [DecidableEq α] {d d' : Directory α}

theorem indexes_start (n : Nat) : (start n : Ledger α).Indexes (.start n) where
  size := by simp [start, Directory.start]
  freed := rfl
  next := rfl
  lookup_iff := by simp [start, Directory.start]
  unshared := by simp [start]

namespace Indexes

theorem take? (hi : m.Indexes d) (hd : d.take? = some (id, d')) :
    ∃ m', m.take? = some (id, m') ∧ m'.Indexes d' := by
  obtain ⟨freed, next, htake, rfl⟩ := Directory.take?_eq_some.mp hd
  refine ⟨{ m with freed := freed, next := next }, ?_, hi.size, rfl, rfl, hi.lookup_iff,
    hi.unshared⟩
  exact take?_eq_some.mpr ⟨freed, next, by rw [hi.freed, hi.next, htake], rfl⟩

theorem enter (hi : m.Indexes d) (hid : m.entries.lookup id = none)
    (hnew : d.ids.lookup (h, x) = none) :
    ((m.put id ⟨h, x, false⟩).link i id).Indexes (d.enter h x id) where
  size := by simpa [put, link, Directory.enter] using hi.size
  freed := hi.freed
  next := hi.next
  lookup_iff := by
    intro k j
    change _ ↔ (m.put id ⟨h, x, false⟩).entries.lookup j = _
    rw [Directory.lookup_enter, lookup_put]
    by_cases hk : k = (h, x)
    · subst hk
      by_cases hj : j = id
      · simp [hj]
      · rw [if_pos rfl, if_neg hj, ← hi.lookup_iff, hnew]
        simp [Ne.symm hj]
    · by_cases hj : j = id
      · subst hj
        rw [if_neg hk, if_pos rfl, hi.lookup_iff, hid]
        simp only [reduceCtorEq, false_iff]
        intro heq
        obtain ⟨hh, hx, -⟩ := Content.mk.inj (Option.some.inj heq)
        exact hk (Prod.ext hh.symm hx.symm)
      · rw [if_neg hk, if_neg hj, hi.lookup_iff]
  unshared := by
    intro j c hj
    change (m.put id ⟨h, x, false⟩).entries.lookup j = _ at hj
    rw [lookup_put] at hj
    split at hj
    · rw [← Option.some.inj hj]
    · exact hi.unshared hj

theorem forget (hi : m.Indexes d) (hid : d.ids.lookup (h, x) = some id) :
    ((m.unlink i id).recycle id).Indexes ((d.forget h x).giveBack id) where
  size := by simpa [recycle, unlink, Directory.forget, Directory.giveBack] using hi.size
  freed := congrArg (id :: ·) hi.freed
  next := hi.next
  lookup_iff := by
    intro k j
    rw [Directory.ids_giveBack, Directory.lookup_forget, lookup_recycle]
    change _ ↔ (if j = id then none else m.entries.lookup j) = _
    by_cases hk : k = (h, x)
    · subst hk
      rw [if_pos rfl]
      simp only [reduceCtorEq, false_iff]
      split
      · simp
      · rename_i hj
        intro hc
        have hj' := (hi.lookup_iff (h, x) j).mpr hc
        rw [hid] at hj'
        exact hj (Option.some.inj hj').symm
    · rw [if_neg hk, hi.lookup_iff]
      split
      · rename_i hj
        rw [hj, (hi.lookup_iff _ _).mp hid]
        simp only [reduceCtorEq, iff_false]
        intro heq
        obtain ⟨hh, hx, -⟩ := Content.mk.inj (Option.some.inj heq)
        exact hk (Prod.ext hh.symm hx.symm)
      · rfl
  unshared := by
    intro j c hj
    rw [lookup_recycle] at hj
    split at hj
    · simp at hj
    · exact hi.unshared hj

theorem giveBack (hi : m'.Indexes d') (hid : m'.entries.lookup id = none) :
    ((m'.put id c).recycle id).Indexes (d'.giveBack id) where
  size := hi.size
  freed := congrArg (id :: ·) hi.freed
  next := hi.next
  lookup_iff := by
    intro k j
    rw [Directory.ids_giveBack, lookup_recycle, hi.lookup_iff]
    split
    · rename_i hj
      rw [hj, hid]
    · rename_i hj
      rw [lookup_put, if_neg hj]
  unshared := by
    intro j c hj
    rw [lookup_recycle] at hj
    split at hj
    · simp at hj
    · rename_i hne
      rw [lookup_put, if_neg hne] at hj
      exact hi.unshared hj

theorem resizeTo [Memory] (hi : m.Indexes d) (n : Nat) : (m.resizeTo n).Indexes (d.resizeTo n) := by
  by_cases hn : Allocatable n
  · rw [Ledger.resizeTo, Directory.resizeTo, if_pos hn, if_pos hn]
    exact ⟨length_resize, hi.freed, hi.next, hi.lookup_iff, hi.unshared⟩
  · rwa [Ledger.resizeTo, Directory.resizeTo, if_neg hn, if_neg hn]

theorem grow [Memory] (hi : m.Indexes d) (g : Growth) : (m.grow g).Indexes (d.grow g) := by
  cases g with
  | growTo n => exact hi.resizeTo n
  | atLimit => exact hi
  | belowLoad => exact hi

theorem eq_lookup (hi : m.Indexes d)
    (hlinked : ∀ {id c}, m.entries.lookup id = some c → id ∈ m.linked)
    (hf : m.Finds h x found) : found = d.ids.lookup (h, x) := by
  cases found with
  | some id =>
    obtain ⟨-, ⟨h', x', shared⟩, hc, rfl, rfl⟩ := hf
    obtain rfl : shared = false := hi.unshared hc
    exact ((hi.lookup_iff (h', x') id).mpr hc).symm
  | none =>
    cases hd : d.ids.lookup (h, x) with
    | none => rfl
    | some id =>
      have hc := (hi.lookup_iff _ _).mp hd
      exact absurd ⟨rfl, rfl⟩ (hf id (hlinked hc) _ hc)

end Indexes

end Ledger

namespace Table

variable {t u : Table α} {m m' : Ledger α} {id : EntryId} {h : UInt32} {x : α} {n : Nat}

structure SameEntries (t u : Table α) : Prop where
  buckets : u.buckets = t.buckets
  get? : ∀ id, u.arena.get? id = t.arena.get? id
  walk : ∀ i, u.walk i = t.walk i
  count : u.count = t.count
  traffic : u.traffic = t.traffic
  tag : u.tag = t.tag

/-- An entry that is recycled as soon as it is made leaves no trace but in the free list. -/
theorem freeUnlinked_newEntry [SlotSize α] {free rest : List EntryId}
    (hz : SlotSize.bytes α * maxBlockEntries < wordLimit) (ht : t.arena.Threaded free)
    (htake : takeId free t.arena.carved = some (id, rest, n)) :
    ∃ v u, t.newEntry h x = .ok id v ∧ v.freeUnlinked id = .ok x u ∧ u.buckets = t.buckets ∧
      (∀ j, u.arena.get? j = t.arena.get? j) ∧ u.count = t.count ∧ u.traffic = t.traffic ∧
      u.tag = t.tag := by
  obtain ⟨b, hb, -, -, hnone, hget⟩ :=
    ht.allocate (h := h) (x := x) (z := t.sizing) hz htake
  have hid : b.get? id = some (.fresh h x) := by rw [hget, if_pos rfl]
  have hfree : b.free id = .ok x (b.released id) := Arena.free_live hid (by simp)
  refine ⟨{ t with arena := b }, { t with arena := b.released id }, ?_, ?_, rfl, fun j => ?_, rfl,
    rfl, rfl⟩
  · simp [newEntry, onArena_eq, hb]
  · simp [freeUnlinked, onArena_eq, hfree]
  · change (b.released id).get? j = _
    rw [Arena.get?_released (Arena.index_lt_of_get? hid), hget]
    split
    · rename_i hj
      rw [hj, hnone]
    · rfl

theorem Represents.wellFormed (hr : t.Represents m) (hc : t.count = m.linked.length) :
    t.WellFormed fun i => (t.walk i).ids := by
  have hids : (fun i => (t.walk i).ids) = m.chain := by
    funext i
    exact (hr.arranged.walk i).2
  rw [hids]
  refine ⟨hr.arranged, hr.arranged.nodup, fun hid he => ?_, by rw [hc, hr.linked]⟩
  rw [← bucketOf_of_get? he, hr.placed hid]

variable [DecidableEq α] {d d' : Directory α}

/-- A lookup finds what is to be found: it reads the chain of the hash, and there every entry with
that hash is. -/
theorem Represents.finds (hr : t.Represents m) (h : UInt32) (x : α) :
    ∃ found, t.lookup h x = .ok found ∧ m.Finds h x found := by
  obtain ⟨hend, hids⟩ := hr.arranged.walk (t.hashToIndex h)
  rw [Table.lookup]
  cases hf : (t.walk (t.hashToIndex h)).visited.find?
      fun y => decide (y.2.hash = h ∧ y.2.literal = x) with
  | some y =>
    refine ⟨some y.1, rfl, ?_, y.2.content, ?_, by simpa [Entry.content] using List.find?_some hf⟩
    · have hmem : y.1 ∈ (t.walk (t.hashToIndex h)).ids :=
        List.mem_map_of_mem (List.mem_of_find?_eq_some hf)
      exact Ledger.mem_linked.mpr ⟨_, hids ▸ hmem⟩
    · exact hr.lookup (Arena.get?_of_mem_walk (List.mem_of_find?_eq_some hf))
  | none =>
    refine ⟨none, by simp [hend, Ending.check, Except.map], ?_⟩
    intro id hid c hc hkey
    obtain ⟨hh, hx⟩ := hkey
    obtain ⟨i, hi⟩ := Ledger.mem_linked.mp hid
    obtain ⟨e, he, rfl⟩ := hr.get? hc
    have hplace : i = t.hashToIndex h := by
      rw [← hr.placed hi, bucketOf_of_get? he]
      exact congrArg t.hashToIndex hh
    rw [hplace, ← hids] at hi
    obtain ⟨y, hy, hyid⟩ := List.mem_map.mp hi
    have hye : y.2 = e := by
      have hget := Arena.get?_of_mem_walk hy
      rw [hyid, he] at hget
      exact (Option.some.inj hget).symm
    exact List.find?_eq_none.mp hf y hy (by simpa [hye] using ⟨hh, hx⟩)

def serve [SlotSize α] [Memory] (t : Table α) : Request α → Outcome (Table α) (Reply α)
  | .intern p hash literal => (t.intern p hash literal).map .made
  | .internCandidate p hash literal => (t.internCandidate p hash literal).map .made
  | .unintern hash literal =>
    (t.unintern hash literal).map fun found => found.elim .done .recycled
  | .resize size => (t.resize size).map .resized
  | .maybeGrow maxSize load => (t.maybeGrow maxSize load).map .answer

def serves [SlotSize α] [Memory] (t : Table α) :
    List (Request α) → Outcome (Table α) (List (Reply α))
  | [] => .ok [] t
  | s :: ss => (t.serve s).bind fun r t => (t.serves ss).map (r :: ·)

structure Mirrors (t : Table α) (d : Directory α) : Prop where
  size : t.size = d.size
  lookup : ∀ hash literal, t.lookup hash literal = .ok (d.ids.lookup (hash, literal))
  /-- An id of the directory is linked on the chain of its hash and has its literal. -/
  entry : ∀ {hash : UInt32} {literal : α} {id : EntryId},
    d.ids.lookup (hash, literal) = some id → id ∈ (t.walk (t.hashToIndex hash)).ids ∧
      (t.arena.get? id).map Entry.content = some ⟨hash, literal, false⟩
  /-- Two entries with the same hash and literal, on whatever chains, are one. -/
  once : ∀ {i j : Nat} {x y : Linked α}, x ∈ (t.walk i).visited → y ∈ (t.walk j).visited →
    x.2.hash = y.2.hash → x.2.literal = y.2.literal → x = y
  wellFormed : t.WellFormed fun i => (t.walk i).ids
  count : t.count = d.count
  freeList : t.arena.freeList = d.freed
  carved : t.arena.carved = d.next

/-- A table that serves as a registry: through some ledger it has the ids of the directory. -/
def Serves (t : Table α) (d : Directory α) : Prop := ∃ m, t.Simulates m ∧ m.Indexes d

theorem Simulates.count_eq (hs : t.Simulates m) (hi : m.Indexes d) : t.count = d.count := by
  have hsome : ∀ k ∈ d.ids.keys, (d.ids.lookup k).isSome := fun k hk =>
    Finmap.lookup_isSome.mpr (Finmap.mem_keys.mp hk)
  have hentry : ∀ k (hk : k ∈ d.ids.keys),
      m.entries.lookup ((d.ids.lookup k).get (hsome k hk)) = some ⟨k.1, k.2, false⟩ :=
    fun k hk => (hi.lookup_iff k _).mp (Option.some_get _).symm
  rw [hs.count, ← List.toFinset_card_of_nodup hs.represents.nodup_linked, Directory.count]
  refine (Finset.card_bij (fun k hk => (d.ids.lookup k).get (hsome k hk)) ?_ ?_ ?_).symm
  · exact fun k hk => List.mem_toFinset.mpr (hs.linked (hentry k hk))
  · intro k hk l hl heq
    have hkl := hentry k hk
    rw [heq, hentry l hl] at hkl
    obtain ⟨hh, hx, -⟩ := Content.mk.inj (Option.some.inj hkl)
    exact Prod.ext hh.symm hx.symm
  · intro id hid
    obtain ⟨⟨hash, literal, shared⟩, hc⟩ := hs.represents.live_of_linked (List.mem_toFinset.mp hid)
    obtain rfl : shared = false := hi.unshared hc
    have hk := (hi.lookup_iff (hash, literal) id).mpr hc
    exact ⟨(hash, literal), Finmap.mem_keys.mpr (Finmap.lookup_isSome.mp (by simp [hk])),
      by simp [hk]⟩

theorem Simulates.lookup_eq (hs : t.Simulates m) (hi : m.Indexes d) (h : UInt32) (x : α) :
    t.lookup h x = .ok (d.ids.lookup (h, x)) := by
  obtain ⟨found, hfound, hf⟩ := hs.represents.finds h x
  rw [hfound, hi.eq_lookup hs.linked hf]

theorem Simulates.growth_eq (hs : t.Simulates m) (hi : m.Indexes d) (maxSize load : Nat) :
    m.growth maxSize load = d.growth maxSize load := by
  rw [← hs.growth, Table.growth, Directory.growth, hs.represents.size, hi.size, hs.count_eq hi]

theorem Serves.mirrors (h : t.Serves d) : t.Mirrors d := by
  obtain ⟨m, hs, hi⟩ := h
  have hr := hs.represents
  constructor
  case size => rw [hr.size, hi.size]
  case lookup => exact hs.lookup_eq hi
  case entry =>
    intro hash literal id hid
    have hc := (hi.lookup_iff _ _).mp hid
    refine ⟨?_, (hr.content? id).trans hc⟩
    rw [(hr.arranged.walk _).2, hashToIndex, hr.size]
    exact hs.mem_chain hc
  case once =>
    intro i j x y hx hy hh hl
    have hxe := Arena.get?_of_mem_walk hx
    have hye := Arena.get?_of_mem_walk hy
    -- both ids are the one that the directory has for this literal
    have hid : ∀ {z : Linked α}, t.arena.get? z.1 = some z.2 →
        d.ids.lookup (z.2.hash, z.2.literal) = some z.1 := by
      intro z hz
      have hc := hr.lookup hz
      rw [hi.lookup_iff, hc, ← hi.unshared hc]
      rfl
    have hsame := hid hxe
    rw [hh, hl, hid hye, Option.some.injEq] at hsame
    rw [← hsame, hye, Option.some.injEq] at hxe
    exact Prod.ext hsame.symm hxe.symm
  case wellFormed => exact hr.wellFormed hs.count
  case count => exact hs.count_eq hi
  case freeList => exact (Arena.freeList_of_path hr.threaded.path).trans hi.freed
  case carved => exact hr.carved.trans hi.next

/-- With the candidate made but not linked, a lookup still finds what the directory says. -/
theorem Simulates.lookup_candidate {v : Table α} {c : Content α} (hs : t.Simulates m)
    (hi : m.Indexes d) (hm : m.take? = some (id, m')) (hid : m.entries.lookup id = none)
    (hv : v.Represents (m'.put id c)) (h : UInt32) (x : α) :
    v.lookup h x = .ok (d.ids.lookup (h, x)) := by
  obtain ⟨found, hfound, hf⟩ := hv.finds h x
  rw [hfound, hi.eq_lookup hs.linked (hf.of_made hm (hs.represents.not_linked hid))]

theorem serves_create [Memory] {tag : MemoryTag} (ht : create n tag = .ok t) :
    t.Serves (.start n) :=
  ⟨.start n, simulates_create ht, Ledger.indexes_start n⟩

end Table

theorem Outcome.map_eq_ok {σ β γ : Type} {o : Outcome σ β} {g : β → γ} {c : γ} {s : σ} :
    o.map g = .ok c s ↔ ∃ b, o = .ok b s ∧ g b = c := by
  cases o with
  | fail f s => simp
  | ok b s' => simp [and_comm]

namespace Table

section
variable [DecidableEq α] [SlotSize α] [Memory] {t u v : Table α} {m m' : Ledger α}
  {d d' : Directory α}
  {id candidate : EntryId} {h : UInt32} {x : α} {n : Nat} {s : Request α} {ss rs : List (Request α)}
  {r : Reply α} {answers answers' : List (Reply α)} {p : GrowthPolicy} {tag : MemoryTag}

theorem Serves.enter (hz : SlotSize.bytes α * maxBlockEntries < wordLimit) (ht : t.Serves d)
    (p : GrowthPolicy) (hnew : d.ids.lookup (h, x) = none) (hd : d.take? = some (id, d'))
    (hroom : t.traffic.added + 1 < wordLimit) :
    ∃ u, t.enroll p h x = .ok id u ∧ u.Serves ((d'.enter h x id).maybeGrow p.maxSize p.load) ∧
      u.traffic.added = t.traffic.added + 1 := by
  obtain ⟨m, hs, hi⟩ := ht
  obtain ⟨m', hm, hi'⟩ := hi.take? hd
  obtain ⟨-, -, -, hid, -, -⟩ := hs.represents.newEntry (h := h) (x := x) hz hm
  have hinsert : m.act (.insert h x) =
      some ([.made id], (m'.put id ⟨h, x, false⟩).link (m.index h) id) := by
    simp [Ledger.act, hm]
  obtain ⟨v, hact, hsv, hadded⟩ := hs.act hz hinsert hroom
  obtain ⟨j, hv, hj⟩ := Outcome.map_eq_ok.mp hact
  obtain rfl : j = id := by simpa using hj
  have hiv := hi'.enter (i := m.index h) (by rwa [(Ledger.take?_same hm).2])
    (by rwa [Directory.ids_take? hd])
  obtain ⟨u, hact, hsu, hsame⟩ := hsv.act hz (d := .maybeGrow p.maxSize p.load) rfl
    (by simpa [hadded, Deed.adds] using hroom)
  obtain ⟨b, hu, -⟩ := Outcome.map_eq_ok.mp hact
  rw [hsv.growth_eq hiv] at hsu
  refine ⟨u, ?_, ⟨_, hsu, hiv.grow _⟩, by rw [hsame, hadded]; rfl⟩
  rw [enroll_eq, hv, Outcome.bind_ok, hu, Outcome.map_ok]

theorem Serves.spare (hz : SlotSize.bytes α * maxBlockEntries < wordLimit) (ht : t.Serves d)
    (p : GrowthPolicy) (hk : d.ids.lookup (h, x) = some id) (hd : d.take? = some (candidate, d')) :
    ∃ u, t.internCandidate p h x = .ok id u ∧ t.SameEntries u ∧
      u.Serves (d'.giveBack candidate) := by
  obtain ⟨m, hs, hi⟩ := ht
  have hr := hs.represents
  obtain ⟨m', hm, hi'⟩ := hi.take? hd
  obtain ⟨freed, next, htake, rfl⟩ := Ledger.take?_eq_some.mp hm
  rw [← hr.carved] at htake
  obtain ⟨v, u, hv, hu, hbuckets, hget, hcount, htraffic, htag⟩ :=
    freeUnlinked_newEntry (h := h) (x := x) hz hr.threaded htake
  obtain ⟨v', hv', -, hid, -, hrv⟩ := hr.newEntry (h := h) (x := x) hz hm
  obtain ⟨-, rfl⟩ := Outcome.ok.inj (hv.symm.trans hv')
  have hlook := hs.lookup_candidate hi hm hid hrv h x
  rw [hk] at hlook
  have hdrop : m.act (.drop h x) = some ([.made candidate, .recycled x],
      (Ledger.put { m with freed := freed, next := next } candidate ⟨h, x, false⟩).recycle
        candidate) := by
    simp [Ledger.act, hm]
  obtain ⟨u', hu', hsu, -⟩ := hs.act hz hdrop (by simpa [Deed.adds] using hs.balanced.added_lt)
  obtain rfl : u = u' := by
    simp only [act, hv, hu, Outcome.bind_ok, Outcome.map_ok] at hu'
    exact (Outcome.ok.inj hu').2
  refine ⟨u, ?_, ⟨hbuckets, hget, fun i => ?_, hcount, htraffic, htag⟩, _, hsu,
    hi'.giveBack hid⟩
  · simp only [internCandidate, hv, Outcome.bind_ok, hlook, Outcome.ofExcept_ok, hu,
      Outcome.map_ok]
  · obtain ⟨hend, hids⟩ := hr.arranged.walk i
    obtain ⟨hend', hids'⟩ := hsu.represents.arranged.walk i
    exact Arena.walk_eq_of_get?_eq hget (hids'.trans hids.symm) (hend'.trans hend.symm)

theorem Serves.forget (hz : SlotSize.bytes α * maxBlockEntries < wordLimit) (ht : t.Serves d)
    (hk : d.ids.lookup (h, x) = some id) :
    ∃ u, t.unintern h x = .ok (some x) u ∧ u.Serves ((d.forget h x).giveBack id) ∧
      u.traffic.added = t.traffic.added := by
  obtain ⟨m, hs, hi⟩ := ht
  have hc : m.entries.lookup id = some ⟨h, x, false⟩ := (hi.lookup_iff _ _).mp hk
  obtain ⟨u, hu, hsu, hadded⟩ := hs.act hz (d := .remove id) (by simp only [Ledger.act, hc]; rfl)
    (by simpa [Deed.adds] using hs.balanced.added_lt)
  obtain ⟨literal, hu, hx⟩ := Outcome.map_eq_ok.mp hu
  obtain rfl : literal = some x := by cases literal <;> simp_all
  refine ⟨u, ?_, ⟨_, hsu, hi.forget hk⟩, hadded⟩
  rw [unintern, hs.lookup_eq hi, hk, Outcome.ofExcept_ok, Outcome.bind_ok]
  exact hu

theorem Serves.step (hz : SlotSize.bytes α * maxBlockEntries < wordLimit) (ht : t.Serves d)
    (hd : d.step s = some (r, d'))
    (hroom : t.traffic.added + (if s.adds then 1 else 0) < wordLimit) :
    ∃ u, t.serve s = .ok r u ∧ u.Serves d' ∧
      u.traffic.added ≤ t.traffic.added + if s.adds then 1 else 0 := by
  have hlook : ∀ h x, t.lookup h x = .ok (d.ids.lookup (h, x)) := ht.mirrors.lookup
  cases s with
  | intern p h x =>
    cases hk : d.ids.lookup (h, x) with
    | some id =>
      simp only [Directory.step, hk] at hd
      obtain ⟨rfl, rfl⟩ := Prod.mk.inj (Option.some.inj hd)
      exact ⟨t, by simp [serve, intern, hlook, hk], ht, Nat.le_add_right _ _⟩
    | none =>
      simp only [Directory.step, hk] at hd
      obtain ⟨⟨id, d₁⟩, hd₁, heq⟩ := Option.map_eq_some_iff.mp hd
      obtain ⟨rfl, rfl⟩ := Prod.mk.inj heq
      obtain ⟨u, hu, hsu, hadded⟩ := ht.enter hz p hk hd₁ hroom
      rw [enroll] at hu
      exact ⟨u, by simp [serve, intern, hlook, hk, hu], hsu, Nat.le_of_eq hadded⟩
  | internCandidate p h x =>
    obtain ⟨⟨candidate, d₁⟩, hd₁, heq⟩ := Option.map_eq_some_iff.mp hd
    have hids := Directory.ids_take? hd₁
    cases hk : d.ids.lookup (h, x) with
    | some id =>
      simp only [hids, hk] at heq
      obtain ⟨rfl, rfl⟩ := Prod.mk.inj heq
      obtain ⟨u, hu, hsame, hsu⟩ := ht.spare hz p hk hd₁
      refine ⟨u, by simp [serve, hu], hsu, ?_⟩
      rw [hsame.traffic]
      exact Nat.le_add_right _ _
    | none =>
      simp only [hids, hk] at heq
      obtain ⟨rfl, rfl⟩ := Prod.mk.inj heq
      obtain ⟨u, hu, hsu, hadded⟩ := ht.enter hz p hk hd₁ hroom
      obtain ⟨m, hs, hi⟩ := ht
      obtain ⟨m', hm, -⟩ := hi.take? hd₁
      -- the lookup comes after the candidate is made, and does not see it
      obtain ⟨v, hv, -, hid, -, hrv⟩ := hs.represents.newEntry (h := h) (x := x) hz hm
      have hcandidate := hs.lookup_candidate hi hm hid hrv h x
      rw [enroll, hv, Outcome.bind_ok] at hu
      refine ⟨u, ?_, hsu, Nat.le_of_eq hadded⟩
      simp [serve, internCandidate, hv, hcandidate, hk, hu]
  | unintern h x =>
    cases hk : d.ids.lookup (h, x) with
    | some id =>
      simp only [Directory.step, hk] at hd
      obtain ⟨rfl, rfl⟩ := Prod.mk.inj (Option.some.inj hd)
      obtain ⟨u, hu, hsu, hadded⟩ := ht.forget hz hk
      exact ⟨u, by simp [serve, hu], hsu, Nat.le_of_eq hadded⟩
    | none =>
      simp only [Directory.step, hk] at hd
      obtain ⟨rfl, rfl⟩ := Prod.mk.inj (Option.some.inj hd)
      exact ⟨t, by simp [serve, unintern, hlook, hk], ht, Nat.le_refl _⟩
  | resize n =>
    obtain ⟨rfl, rfl⟩ := Prod.mk.inj (Option.some.inj hd)
    obtain ⟨m, hs, hi⟩ := ht
    obtain ⟨u, hu, hsu, hadded⟩ := hs.act hz (d := .resize n) rfl
      (by simpa [Deed.adds] using hs.balanced.added_lt)
    obtain ⟨b, hu, hb⟩ := Outcome.map_eq_ok.mp hu
    refine ⟨u, ?_, ⟨_, hsu, hi.resizeTo n⟩, Nat.le_of_eq hadded⟩
    simp_all [serve]
  | maybeGrow maxSize load =>
    obtain ⟨rfl, rfl⟩ := Prod.mk.inj (Option.some.inj hd)
    obtain ⟨m, hs, hi⟩ := ht
    obtain ⟨u, hu, hsu, hadded⟩ := hs.act hz (d := .maybeGrow maxSize load) rfl
      (by simpa [Deed.adds] using hs.balanced.added_lt)
    obtain ⟨b, hu, hb⟩ := Outcome.map_eq_ok.mp hu
    rw [hs.growth_eq hi] at hsu hb
    refine ⟨u, ?_, ⟨_, hsu, hi.grow _⟩, Nat.le_of_eq hadded⟩
    simp_all [serve]

theorem Serves.steps (hz : SlotSize.bytes α * maxBlockEntries < wordLimit) (ht : t.Serves d)
    (hd : d.steps ss = some (answers, d'))
    (hroom : t.traffic.added + ss.countP Request.adds < wordLimit) :
    ∃ u, t.serves ss = .ok answers u ∧ u.Serves d' ∧
      u.traffic.added ≤ t.traffic.added + ss.countP Request.adds := by
  induction ss generalizing t d answers with
  | nil =>
    obtain ⟨rfl, rfl⟩ := Prod.mk.inj (Option.some.inj hd)
    exact ⟨t, rfl, ht, Nat.le_refl _⟩
  | cons s ss ih =>
    obtain ⟨⟨r, d₁⟩, hs, hd⟩ := Option.bind_eq_some_iff.mp hd
    obtain ⟨⟨rs, d₂⟩, hss, heq⟩ := Option.map_eq_some_iff.mp hd
    obtain ⟨rfl, rfl⟩ := Prod.mk.inj heq
    rw [List.countP_cons] at hroom ⊢
    obtain ⟨v, hv, htv, hone⟩ := ht.step hz hs (by omega)
    obtain ⟨u, hu, htu, hrest⟩ := ih htv hss (by omega)
    exact ⟨u, by simp [Table.serves, hv, hu], htu, by omega⟩

/-- Whatever requests a new table is given, each gets the answer that the directory gives, and then
every reader of the table agrees with the directory. From there on, a literal keeps its id until it
is taken out, and a candidate for a literal that is there changes nothing but the free list. A run
stops where the directory has no id left. -/
theorem serves_mirrors (hz : SlotSize.bytes α * maxBlockEntries < wordLimit)
    (ht : create n tag = .ok t) (hd : (Directory.start n).steps ss = some (answers, d))
    (hroom : ss.countP Request.adds < wordLimit) :
    ∃ u, t.serves ss = .ok answers u ∧ u.Mirrors d ∧
      (∀ {rs h x id answers' d'}, d.ids.lookup (h, x) = some id → .unintern h x ∉ rs →
        d.steps rs = some (answers', d') → (ss ++ rs).countP Request.adds < wordLimit →
        ∃ v, u.serves rs = .ok answers' v ∧ v.Mirrors d' ∧ v.lookup h x = .ok (some id)) ∧
      ∀ {p h x id candidate d'}, d.ids.lookup (h, x) = some id →
        d.take? = some (candidate, d') →
        ∃ v, u.internCandidate p h x = .ok id v ∧ u.SameEntries v ∧
          v.Mirrors (d'.giveBack candidate) := by
  obtain ⟨-, -, -, hzero⟩ := represents_create ht
  obtain ⟨u, hu, htu, hadded⟩ := (serves_create ht).steps hz hd (by omega)
  refine ⟨u, hu, htu.mirrors, ?_, ?_⟩
  · intro rs h x id answers' d' hk hne hd' hroom'
    rw [List.countP_append] at hroom'
    obtain ⟨v, hv, htv, -⟩ := htu.steps hz hd' (by omega)
    refine ⟨v, hv, htv.mirrors, ?_⟩
    rw [htv.mirrors.lookup, Directory.lookup_steps hd' hk hne]
  · intro p h x id candidate d' hk hd'
    obtain ⟨v, hv, hsame, htv⟩ := htu.spare hz p hk hd'
    exact ⟨v, hv, hsame, htv.mirrors⟩

end

theorem serves_mirrors_candidate :
    ∃ (_ : Memory) (t u v w : Table UInt32) (id : EntryId) (ss rs : List (Request UInt32))
      (answers answers' : List (Reply UInt32)) (d : Directory UInt32),
      create 2 .symbol = .ok t ∧
      ss = [.intern ⟨8, 0⟩ 5 50, .intern ⟨8, 0⟩ 3 50, .unintern 3 50, .resize 3] ∧
      rs = [.internCandidate ⟨8, 0⟩ 7 70, .maybeGrow 16 0] ∧
      t.serves ss = .ok answers u ∧ u.Mirrors d ∧ u.lookup 5 50 = .ok (some id) ∧
      u.serves rs = .ok answers' v ∧ v.lookup 5 50 = .ok (some id) ∧
      u.internCandidate ⟨8, 0⟩ 5 50 = .ok id w ∧ u.SameEntries w := by
  let mem : Memory := .below 100 (by decide)
  let id : EntryId := .ofIndex 0 (by decide)
  let ss : List (Request UInt32) :=
    [.intern ⟨8, 0⟩ 5 50, .intern ⟨8, 0⟩ 3 50, .unintern 3 50, .resize 3]
  let rs : List (Request UInt32) := [.internCandidate ⟨8, 0⟩ 7 70, .maybeGrow 16 0]
  let t : Table UInt32 := ⟨emptyBuckets 2, 0, .empty, .symbol, .zero, by decide⟩
  have ht : create 2 .symbol = .ok t := rfl
  have hd : ((Directory.start 2).steps ss).isSome := by decide +kernel
  have hk : ((Directory.start 2).steps ss).bind (fun r => r.2.ids.lookup (5, 50)) = some id := by
    decide +kernel
  have hrs : (((Directory.start 2).steps ss).bind fun r => r.2.steps rs).isSome := by
    decide +kernel
  have htake : (((Directory.start 2).steps ss).bind fun r => r.2.take?).isSome := by
    decide +kernel
  obtain ⟨⟨answers, d⟩, hd⟩ := Option.isSome_iff_exists.mp hd
  rw [hd, Option.bind_some] at hk hrs htake
  obtain ⟨⟨answers', d'⟩, hrs⟩ := Option.isSome_iff_exists.mp hrs
  obtain ⟨⟨candidate, d''⟩, htake⟩ := Option.isSome_iff_exists.mp htake
  obtain ⟨u, hu, hmirrors, hstays, hspare⟩ := serves_mirrors (by decide) ht hd (by decide)
  obtain ⟨v, hv, -, hlook⟩ := hstays hk (by simp [rs]) hrs (by decide)
  obtain ⟨w, hw, hsame, -⟩ := hspare (p := ⟨8, 0⟩) hk htake
  exact ⟨mem, t, u, v, w, id, ss, rs, answers, answers', d, ht, rfl, rfl, hu, hmirrors,
    by rw [hmirrors.lookup, hk], hv, hlook, hw, hsame⟩

end Table

end ChainedTable
