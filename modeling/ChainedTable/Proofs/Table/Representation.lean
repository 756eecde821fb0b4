import ChainedTable.Proofs.Ledger
import ChainedTable.Proofs.Table.Migration
import ChainedTable.Proofs.Table.Unlinking

set_option autoImplicit false

namespace ChainedTable

variable {α : Type}

def Growth.attempts : Growth → Bool
  | .growTo _ => true
  | _ => false

namespace Table

structure Balanced (t : Table α) : Prop where
  added_eq : t.traffic.added = t.count + t.traffic.removed
  added_lt : t.traffic.added < wordLimit

def tallied (t : Table α) : Table α :=
  { t with count := t.count + 1, traffic := ⟨t.traffic.added + 1, t.traffic.removed⟩ }

/-- With one counted entry fewer, which was recycled. -/
def untallied (t : Table α) (b : Arena α) : Table α :=
  { t with
    arena := b, count := t.count - 1, traffic := ⟨t.traffic.added, t.traffic.removed + 1⟩ }

structure Represents (t : Table α) (m : Ledger α) : Prop where
  size : t.size = m.buckets.length
  arranged : t.Arranged m.chain
  content? : ∀ id, t.arena.content? id = m.entries.lookup id
  threaded : t.arena.Threaded m.freed
  carved : t.arena.carved = m.next
  /-- Every linked id is on the chain of its hash. -/
  placed : ∀ {i : Nat} {id : EntryId}, id ∈ m.chain i → t.bucketOf id = i

variable {t u : Table α} {m m' : Ledger α} {id : EntryId} {c : Content α} {e : Entry α} {i n : Nat}
  {x : α} {h : UInt32}

theorem Balanced.same (hb : t.Balanced) (hs : SameCounts t u) : u.Balanced where
  added_eq := by rw [hs.1, hs.2, hb.added_eq]
  added_lt := by rw [hs.2]; exact hb.added_lt

theorem increment_ok (hcount : t.count + 1 < wordLimit) (hroom : t.traffic.added + 1 < wordLimit) :
    t.increment = .ok () t.tallied := by
  simp only [increment, addWord_eq_ok.mpr ⟨rfl, hcount⟩, Traffic.recordAdd_eq_ok.mpr ⟨rfl, hroom⟩,
    tallied]

theorem addEntry_ok (hi : i < t.size) (he : t.arena.get? id = some e)
    (hcount : t.count + 1 < wordLimit) (hroom : t.traffic.added + 1 < wordLimit) :
    t.addEntry i id = .ok () (t.prepend i id e).tallied := by
  have hrel := relinked_prepend i he
  rw [← hrel.count] at hcount
  rw [← hrel.traffic] at hroom
  simpa only [addEntry, checkIndex_of_lt hi, he] using increment_ok hcount hroom

theorem freeEntry_ok {b : Arena α} (hc : t.count ≠ 0) (hroom : t.traffic.removed + 1 < wordLimit)
    (hfree : t.arena.free id = .ok x b) : t.freeEntry id = .ok x (t.untallied b) := by
  simp [freeEntry, hc, freeUnlinked, onArena_eq, hfree,
    Traffic.recordRemove_eq_ok.mpr ⟨rfl, hroom⟩, untallied]

theorem Balanced.increment (hb : t.Balanced) (hroom : t.traffic.added + 1 < wordLimit) :
    t.increment = .ok () t.tallied ∧ t.tallied.Balanced := by
  have hadded := hb.added_eq
  refine ⟨increment_ok (by omega) hroom, ?_, hroom⟩
  simp only [tallied]
  omega

theorem Balanced.addEntry (hb : t.Balanced) (hi : i < t.size) (he : t.arena.get? id = some e)
    (hroom : t.traffic.added + 1 < wordLimit) :
    t.addEntry i id = .ok () (t.prepend i id e).tallied ∧ (t.prepend i id e).tallied.Balanced := by
  have hadded := hb.added_eq
  have hsame := (relinked_prepend i he).sameCounts
  exact ⟨addEntry_ok hi he (by omega) hroom, ((hb.same hsame).increment (by rwa [hsame.2])).2⟩

theorem Balanced.freeEntry {b : Arena α} (hb : t.Balanced) (hc : t.count ≠ 0)
    (hfree : t.arena.free id = .ok x b) :
    t.freeEntry id = .ok x (t.untallied b) ∧ (t.untallied b).Balanced := by
  have hadded := hb.added_eq
  have hlt := hb.added_lt
  refine ⟨freeEntry_ok hc (by omega) hfree, ?_, hlt⟩
  simp only [untallied]
  omega

theorem represents_create [Memory] {tag : MemoryTag} (ht : create n tag = .ok t) :
    t.Represents (.start n) ∧ t.Balanced ∧ t.count = 0 ∧ t.traffic.added = 0 := by
  obtain ⟨hbuckets, harena, hcount, htraffic⟩ := create_eq_ok ht
  have hhead : ∀ i, t.head i = none := by
    intro i
    by_cases hi : i < n <;> simp [head, hbuckets, emptyBuckets, hi]
  refine ⟨⟨?_, ⟨fun i => ?_, ?_⟩, fun id => ?_, ?_, ?_, ?_⟩, ⟨?_, ?_⟩, hcount,
    by rw [htraffic]; rfl⟩
  · simp [Table.size, hbuckets, emptyBuckets, Ledger.start]
  · simp [hhead]
  · intro i j id hid
    simp at hid
  · simp [Arena.content?, harena, Ledger.start]
  · rw [harena]
    exact Arena.threaded_empty
  · rw [harena]
    rfl
  · intro i id hid
    simp at hid
  · rw [hcount, htraffic]
    rfl
  · rw [htraffic]
    decide

namespace Represents

theorem hash (hr : t.Represents m) : t.arena.hash = m.hash := by
  funext id
  rw [Arena.hash, Ledger.hash, hr.content? id]

theorem lookup (hr : t.Represents m) (he : t.arena.get? id = some e) :
    m.entries.lookup id = some e.content := by
  rw [← hr.content? id, Arena.content?_of_get? he]

theorem get? (hr : t.Represents m) (hc : m.entries.lookup id = some c) :
    ∃ e, t.arena.get? id = some e ∧ e.content = c :=
  Arena.content?_eq_some.mp ((hr.content? id).trans hc)

theorem lookup_of_mem (hr : t.Represents m) (hid : id ∈ m.chain i) :
    ∃ c, m.entries.lookup id = some c := by
  obtain ⟨e, he⟩ := hr.arranged.live hid
  exact ⟨e.content, hr.lookup he⟩

theorem linked (hr : t.Represents m) : t.linked m.chain = m.linked := by
  rw [Table.linked, hr.size, m.linked_eq]

theorem live_of_linked (hr : t.Represents m) (hid : id ∈ m.linked) :
    ∃ c, m.entries.lookup id = some c := by
  obtain ⟨i, hi⟩ := Ledger.mem_linked.mp hid
  exact hr.lookup_of_mem hi

theorem nodup_linked (hr : t.Represents m) : m.linked.Nodup := by
  rw [← hr.linked]
  exact hr.arranged.nodup_linked

theorem mem_unlink (hr : t.Represents m) (hid : id ∈ m.chain i) {j : EntryId} :
    j ∈ (m.unlink i id).linked ↔ j ≠ id ∧ j ∈ m.linked := by
  rw [Ledger.mem_linked, Ledger.mem_linked, Ledger.chain_unlink (Ledger.lt_of_mem_chain hid)]
  constructor
  · intro ⟨k, hk⟩
    rw [Function.update_apply] at hk
    split at hk
    · obtain ⟨hne, hj⟩ := (hr.arranged.nodup i).mem_erase_iff.mp hk
      exact ⟨hne, i, hj⟩
    · rename_i hki
      refine ⟨?_, k, hk⟩
      intro heq
      subst heq
      exact hki (hr.arranged.apart hk hid)
  · intro ⟨hne, k, hk⟩
    refine ⟨k, ?_⟩
    rw [Function.update_apply]
    split
    · rename_i hki
      exact (hr.arranged.nodup i).mem_erase_iff.mpr ⟨hne, hki ▸ hk⟩
    · exact hk

theorem exists_take? (hr : t.Represents m) (h : t.arena.carved < maxEntries) :
    ∃ id m', m.take? = some (id, m') := by
  rw [hr.carved] at h
  obtain ⟨⟨id, m'⟩, hm⟩ := Option.isSome_iff_exists.mp (Ledger.isSome_take?.mpr (.inr h))
  exact ⟨id, m', hm⟩

theorem withCounts (hr : t.Represents m) (n : Nat) (r : Traffic) :
    ({ t with count := n, traffic := r } : Table α).Represents m where
  size := hr.size
  arranged := hr.arranged.congr (fun _ => rfl) fun _ _ _ => rfl
  content? := hr.content?
  threaded := hr.threaded
  carved := hr.carved
  placed := hr.placed

/-- A change of the arena that shows on no chain. -/
theorem withArena (hr : t.Represents m) {b : Arena α} (hbuckets : m'.buckets = m.buckets)
    (hsame : ∀ i, ∀ j ∈ m.chain i, b.link j = t.arena.link j ∧ b.hash j = t.arena.hash j)
    (hcontent : ∀ j, b.content? j = m'.entries.lookup j) (hthr : b.Threaded m'.freed)
    (hcarved : b.carved = m'.next) : ({ t with arena := b } : Table α).Represents m' := by
  have hchain : m'.chain = m.chain := by
    funext i
    rw [Ledger.chain, hbuckets, Ledger.chain]
  refine ⟨hr.size.trans (congrArg List.length hbuckets.symm), ?_, hcontent, hthr, hcarved, ?_⟩
  · rw [hchain]
    exact hr.arranged.congr (fun _ => rfl) fun i j hj => (hsame i j hj).1
  · intro i j hj
    rw [hchain] at hj
    have hp := hr.placed hj
    rw [bucketOf] at hp ⊢
    rw [(hsame i j hj).2]
    exact hp

theorem store (hr : t.Represents m) (he : t.arena.get? id = some e) (e' : Entry α)
    (hnext : e'.next = e.next) (hhash : e'.hash = e.hash) :
    (t.store id e').Represents (m.put id e'.content) := by
  have hlt := Arena.index_lt_of_get? he
  have hc : ∀ j, (t.arena.store id e').content? j =
      if j = id then some e'.content else t.arena.content? j := fun j => Arena.content?_store e' hlt
  refine hr.withArena rfl (fun i j _ => ⟨?_, ?_⟩) (fun j => ?_) (hr.threaded.store e' he)
    ((Arena.carved_store _ _ _).trans hr.carved)
  · rw [Arena.link_store e' hlt, hnext]
    split
    · rename_i hj
      rw [hj, Arena.link_of_get? he]
    · rfl
  · rw [Arena.hash, Arena.hash, hc]
    split
    · rename_i hj
      rw [hj, Arena.content?_of_get? he]
      exact hhash
    · rfl
  · rw [hc, Ledger.lookup_put, hr.content? j]

theorem relinked (hr : t.Represents m) (hu : Relinked t u) {bs : List (List EntryId)}
    (hsize : u.size = bs.length) (harr : u.Arranged (Ledger.chain { m with buckets := bs }))
    (hplaced : ∀ {i : Nat} {id : EntryId}, id ∈ Ledger.chain { m with buckets := bs } i →
      (m.hash id).toNat % bs.length = i) :
    u.Represents { m with buckets := bs } where
  size := hsize
  arranged := harr
  content? id := (hu.arena.content? id).trans (hr.content? id)
  threaded := hr.threaded.relinked hu.arena
  carved := hu.arena.carved.trans hr.carved
  placed := by
    intro i id hid
    rw [bucketOf, hashToIndex, hsize, hu.arena.hash, hr.hash]
    exact hplaced hid

theorem placed_hash (hr : t.Represents m) (hid : id ∈ m.chain i) :
    (m.hash id).toNat % m.buckets.length = i := by
  have hp := hr.placed hid
  rwa [bucketOf, hashToIndex, hr.size, hr.hash] at hp

section
variable [SlotSize α]

theorem newEntry (hz : SlotSize.bytes α * maxBlockEntries < wordLimit) (hr : t.Represents m)
    (hm : m.take? = some (id, m')) :
    ∃ u, t.newEntry h x = .ok id u ∧ SameCounts t u ∧ m.entries.lookup id = none ∧
      u.arena.get? id = some (.fresh h x) ∧ u.Represents (m'.put id ⟨h, x, false⟩) := by
  obtain ⟨freed, next, htake, rfl⟩ := Ledger.take?_eq_some.mp hm
  rw [← hr.carved] at htake
  obtain ⟨b, hb, hthr, hcarved, hnone, hget⟩ :=
    hr.threaded.allocate (h := h) (x := x) (z := t.sizing) hz htake
  have hlookup : m.entries.lookup id = none := by
    rw [← hr.content? id, Arena.content?, hnone]
    rfl
  refine ⟨{ t with arena := b }, by simp [Table.newEntry, onArena_eq, hb], ⟨rfl, rfl⟩, hlookup,
    by simp [hget], hr.withArena rfl (fun i j hj => ?_) (fun j => ?_) hthr hcarved⟩
  · have hne : j ≠ id := fun hje => hr.arranged.not_mem hnone i (hje ▸ hj)
    exact Arena.link_hash_of_get?_eq (by rw [hget, if_neg hne])
  · rw [Arena.content?_fresh hget, Ledger.lookup_put, hr.content? j]

theorem newSharedEntry (hz : SlotSize.bytes α * maxBlockEntries < wordLimit)
    (hr : t.Represents m) (hm : m.take? = some (id, m')) :
    ∃ u, t.newSharedEntry h x = .ok id u ∧ SameCounts t u ∧ m.entries.lookup id = none ∧
      u.Represents (m'.put id ⟨h, x, true⟩) := by
  obtain ⟨u, hu, hcounts, hlookup, he, hru⟩ := hr.newEntry (h := h) (x := x) hz hm
  have hstore := hru.store he (Entry.setShared (.fresh h x)) (by simp) rfl
  refine ⟨u.store id (Entry.setShared (.fresh h x)), ?_, hcounts, hlookup, ?_⟩
  · simp only [Table.newSharedEntry, hu, Outcome.bind_ok, onArena_eq, Arena.update_live he]
    rfl
  · simpa [Ledger.put] using hstore

end

theorem setLiteral (hr : t.Represents m) (hc : m.entries.lookup id = some c) :
    ∃ u, t.setLiteral id x = .ok () u ∧ SameCounts t u ∧
      u.Represents (m.put id { c with literal := x }) := by
  obtain ⟨e, he, rfl⟩ := hr.get? hc
  have hstore := hr.store he (e.setLiteral x) (by simp) (by simp)
  refine ⟨t.store id (e.setLiteral x), ?_, ⟨rfl, rfl⟩, ?_⟩
  · simp only [Table.setLiteral, onArena_eq, Arena.update_live he]
    rfl
  · simpa [Entry.content] using hstore

theorem addEntry (hr : t.Represents m) (hb : t.Balanced) (hc : m.entries.lookup id = some c)
    (hloose : id ∉ m.linked) (hroom : t.traffic.added + 1 < wordLimit) :
    ∃ u, t.addEntry (m.index c.hash) id = .ok () u ∧ u.Represents (m.link (m.index c.hash) id) ∧
      u.Balanced ∧ u.count = t.count + 1 ∧ u.traffic.added = t.traffic.added + 1 := by
  obtain ⟨e, he, rfl⟩ := hr.get? hc
  have hlt : m.index e.content.hash < t.size := by
    rw [Ledger.index, ← hr.size]
    exact Nat.mod_lt _ t.size_pos
  have hbucket : (m.hash id).toNat % m.buckets.length = m.index e.content.hash := by
    simp [Ledger.hash, hc, Ledger.index]
  generalize m.index e.content.hash = i at *
  have hrel := relinked_prepend i he
  have harr := hr.arranged.prepend hlt he fun k hk => hloose (Ledger.mem_linked.mpr ⟨k, hk⟩)
  rw [← Ledger.chain_link (by rwa [← hr.size])] at harr
  have hru : (t.prepend i id e).Represents (m.link i id) := by
    refine hr.relinked hrel (by simpa [size_prepend] using hr.size) harr ?_
    intro k j hj
    change j ∈ (m.link i id).chain k at hj
    rw [Ledger.chain_link (by rwa [← hr.size]), Function.update_apply] at hj
    rw [List.length_modify]
    split at hj
    · rename_i hk
      rcases List.mem_cons.mp hj with rfl | hj
      · exact hbucket.trans hk.symm
      · exact (hr.placed_hash hj).trans hk.symm
    · exact hr.placed_hash hj
  obtain ⟨hadd, hbal⟩ := hb.addEntry hlt he hroom
  refine ⟨(t.prepend i id e).tallied, hadd, hru.withCounts _ _, hbal, ?_, ?_⟩
  · rw [tallied, hrel.count]
  · rw [tallied, hrel.traffic]

theorem unlink_mem (hr : t.Represents m) (hid : id ∈ m.chain i) :
    ∃ u, t.unlink i id = .ok true u ∧ SameCounts t u ∧ u.Represents (m.unlink i id) := by
  obtain ⟨u, hu, hrel, hsize, harr⟩ := hr.arranged.unlink_mem hid
  have hlt := Ledger.lt_of_mem_chain hid
  rw [← Ledger.chain_unlink hlt] at harr
  refine ⟨u, hu, hrel.sameCounts, hr.relinked hrel (by simpa [hsize] using hr.size) harr ?_⟩
  intro k j hj
  change j ∈ (m.unlink i id).chain k at hj
  rw [Ledger.chain_unlink hlt, Function.update_apply] at hj
  rw [List.length_modify]
  split at hj
  · rename_i hk
    exact (hr.placed_hash (List.mem_of_mem_erase hj)).trans hk.symm
  · exact hr.placed_hash hj

theorem unlink_not_mem (hr : t.Represents m) (hi : i < t.size)
    (hc : m.entries.lookup id = some c) (hid : id ∉ m.chain i) :
    t.unlink i id = .ok false t := by
  obtain ⟨e, he, -⟩ := hr.get? hc
  exact hr.arranged.unlink_not_mem hi he hid

theorem freeUnlinked (hr : t.Represents m) (hc : m.entries.lookup id = some c)
    (hs : c.shared = false) (hloose : id ∉ m.linked) :
    ∃ u, t.freeUnlinked id = .ok c.literal u ∧ SameCounts t u ∧ u.Represents (m.recycle id) := by
  obtain ⟨e, he, rfl⟩ := hr.get? hc
  have hlt := Arena.index_lt_of_get? he
  refine ⟨{ t with arena := t.arena.released id }, ?_, ⟨rfl, rfl⟩,
    hr.withArena rfl (fun i j hj => ?_) (fun j => ?_) (hr.threaded.released he)
      (Arena.carved_released.trans hr.carved)⟩
  · simp only [Table.freeUnlinked, onArena_eq, Arena.free_live he hs]
    rfl
  · have hne : j ≠ id := fun hje => hloose (Ledger.mem_linked.mpr ⟨i, hje ▸ hj⟩)
    exact Arena.link_hash_of_get?_eq (by rw [Arena.get?_released hlt, if_neg hne])
  · rw [Ledger.lookup_recycle, ← hr.content? j, Arena.content?_released hlt]

theorem freeEntry (hr : t.Represents m) (hb : t.Balanced) (hc : m.entries.lookup id = some c)
    (hs : c.shared = false) (hloose : id ∉ m.linked) (hcount : 0 < t.count) :
    ∃ u, t.freeEntry id = .ok c.literal u ∧ u.Represents (m.recycle id) ∧ u.Balanced ∧
      u.count = t.count - 1 ∧ u.traffic.added = t.traffic.added := by
  obtain ⟨u, hu, -, hru⟩ := hr.freeUnlinked hc hs hloose
  obtain ⟨e, he, rfl⟩ := hr.get? hc
  have hfree := Arena.free_live he hs
  obtain rfl : { t with arena := t.arena.released id } = u := by
    simpa [Table.freeUnlinked, onArena_eq, hfree, Entry.content] using hu
  obtain ⟨hok, hbal⟩ := hb.freeEntry (Nat.ne_of_gt hcount) hfree
  exact ⟨t.untallied (t.arena.released id), hok, hru.withCounts _ _, hbal, rfl, rfl⟩

theorem resize [Memory] (hr : t.Represents m) (hn : Allocatable n) :
    ∃ u, t.resize n = .ok (.ok ()) u ∧ SameCounts t u ∧ u.Represents (m.resize n) := by
  obtain ⟨u, hu, hrel, hsize, harr, -⟩ := hr.arranged.resize hn
  have hchain : (m.resize n).chain = t.dealt m.chain n := by
    funext j
    rw [Ledger.chain_resize hn.1, dealt, hr.linked, hr.hash]
  rw [← hchain] at harr
  refine ⟨u, hu, hrel.sameCounts, hr.relinked hrel ?_ harr ?_⟩
  · exact hsize.trans Ledger.length_resize.symm
  · intro k j hj
    change j ∈ (m.resize n).chain k at hj
    rw [Ledger.chain_resize hn.1] at hj
    have hlen := Ledger.length_resize (m := m) (n := n)
    simp only [Ledger.resize] at hlen
    rw [hlen]
    simpa using (List.mem_filter.mp (List.mem_reverse.mp hj)).2

theorem resizeTo [Memory] (hr : t.Represents m) (n : Nat) :
    ∃ u, t.resize n = .ok (if Allocatable n then .ok () else .error (refusal n)) u ∧
      SameCounts t u ∧ u.Represents (m.resizeTo n) := by
  by_cases hn : Allocatable n
  · obtain ⟨u, hu, hs, hru⟩ := hr.resize hn
    exact ⟨u, by rw [hu, if_pos hn], hs, by rwa [Ledger.resizeTo, if_pos hn]⟩
  · exact ⟨t, by rw [resize_refused hn, if_neg hn], ⟨rfl, rfl⟩, by rwa [Ledger.resizeTo, if_neg hn]⟩

theorem maybeGrow [Memory] (hr : t.Represents m) (maxSize load : Nat) :
    ∃ u, t.maybeGrow maxSize load = .ok (t.growth maxSize load).attempts u ∧
      SameCounts t u ∧ u.Represents (m.grow (t.growth maxSize load)) := by
  cases hg : t.growth maxSize load with
  | atLimit => exact ⟨t, by simp [Table.maybeGrow, hg, Growth.attempts], ⟨rfl, rfl⟩, hr⟩
  | belowLoad => exact ⟨t, by simp [Table.maybeGrow, hg, Growth.attempts], ⟨rfl, rfl⟩, hr⟩
  | growTo n =>
    obtain ⟨u, hu, hs, hru⟩ := hr.resizeTo n
    exact ⟨u, by simp [Table.maybeGrow, hg, hu, Growth.attempts], hs, hru⟩

end Represents

end Table

end ChainedTable
