import ChainedTable.Proofs.Table.Representation
import ChainedTable.Table.Insert

set_option autoImplicit false

namespace ChainedTable

variable {α : Type}

namespace Table

/-- A table that represents a ledger and counts its linked entries. -/
structure Counted (t : Table α) (m : Ledger α) : Prop where
  represents : t.Represents m
  balanced : t.Balanced
  count : t.count = m.linked.length

variable {t u v : Table α} {m m' : Ledger α} {id : EntryId} {c : Content α} {h : UInt32} {x : α}

namespace Represents

theorem index_lt (hr : t.Represents m) (h : UInt32) : m.index h < m.buckets.length := by
  rw [Ledger.index, ← hr.size]
  exact Nat.mod_lt _ t.size_pos

theorem mem_chain_iff (hr : t.Represents m) {i : Nat} :
    id ∈ m.chain i ↔ id ∈ m.linked ∧ (m.hash id).toNat % t.size = i := by
  rw [hr.size]
  constructor
  · intro hid
    exact ⟨Ledger.mem_linked.mpr ⟨i, hid⟩, hr.placed_hash hid⟩
  · intro ⟨hid, hi⟩
    obtain ⟨k, hk⟩ := Ledger.mem_linked.mp hid
    rwa [← hi, hr.placed_hash hk]

theorem not_linked (hr : t.Represents m) (hid : m.entries.lookup id = none) : id ∉ m.linked := by
  intro hmem
  obtain ⟨c, hc⟩ := hr.live_of_linked hmem
  simp [hid] at hc

theorem addNew (hv : v.Represents (m'.put id c)) (hs : SameCounts t v)
    (hb : t.Balanced) (hm : m.take? = some (id, m')) (hloose : id ∉ m.linked)
    (hroom : t.traffic.added + 1 < wordLimit) :
    ∃ u, v.addEntry (v.hashToIndex c.hash) id = .ok () u ∧
      u.Represents ((m'.put id c).link (m.index c.hash) id) ∧ u.Balanced ∧
      u.count = t.count + 1 ∧ u.traffic.added = t.traffic.added + 1 := by
  obtain ⟨hbuckets, -⟩ := Ledger.take?_same hm
  have hindex : (m'.put id c).index c.hash = m.index c.hash := by
    rw [Ledger.index, Ledger.index, Ledger.put, hbuckets]
  have hi : v.hashToIndex c.hash = m.index c.hash := by
    rw [← hindex, hashToIndex, Ledger.index, hv.size]
  have hput : (m'.put id c).linked = m.linked := Ledger.linked_made hm
  have hc : (m'.put id c).entries.lookup id = some c := by simp [Ledger.lookup_put]
  obtain ⟨u, hu, hru, hbu, hcount, hadded⟩ :=
    hv.addEntry (hb.same hs) hc (by rwa [hput]) (by rwa [hs.2])
  rw [hindex] at hu hru
  exact ⟨u, by rw [hi, hu], hru, hbu, by rw [hcount, hs.1], by rw [hadded, hs.2]⟩

end Represents

namespace Counted

theorem same (hc : t.Counted m) (hu : u.Represents m') (hs : SameCounts t u)
    (hmem : ∀ j, j ∈ m'.linked ↔ j ∈ m.linked) : u.Counted m' := by
  have hperm := (List.perm_ext_iff_of_nodup hu.nodup_linked hc.represents.nodup_linked).mpr hmem
  exact ⟨hu, hc.balanced.same hs, by rw [hs.1, hc.count, hperm.length_eq]⟩

theorem addNew (hc : t.Counted m) (hm : m.take? = some (id, m'))
    (hid : m.entries.lookup id = none) (hv : v.Represents (m'.put id c)) (hs : SameCounts t v)
    (hroom : t.traffic.added + 1 < wordLimit) :
    ∃ u, v.addEntry (v.hashToIndex c.hash) id = .ok () u ∧
      u.Counted ((m'.put id c).link (m.index c.hash) id) ∧
      (∀ j, j ∈ ((m'.put id c).link (m.index c.hash) id).linked ↔ j = id ∨ j ∈ m.linked) ∧
      u.size = t.size ∧ u.count = t.count + 1 ∧ u.traffic.added = t.traffic.added + 1 := by
  have hr := hc.represents
  have hloose := hr.not_linked hid
  obtain ⟨u, hu, hru, hb, hcount, hadded⟩ := hv.addNew hs hc.balanced hm hloose hroom
  obtain ⟨hbuckets, -⟩ := Ledger.take?_same hm
  have hlt : m.index c.hash < (m'.put id c).buckets.length := by
    change _ < m'.buckets.length
    rw [hbuckets]
    exact hr.index_lt c.hash
  have hmem : ∀ j, j ∈ ((m'.put id c).link (m.index c.hash) id).linked ↔
      j = id ∨ j ∈ m.linked := by
    intro j
    rw [Ledger.mem_linked_link hlt, Ledger.linked_made hm]
  have hperm := (List.perm_ext_iff_of_nodup hru.nodup_linked
    (hr.nodup_linked.cons hloose)).mpr fun j => by rw [hmem, List.mem_cons]
  refine ⟨u, hu, ⟨hru, hb, ?_⟩, hmem, ?_, hcount, hadded⟩
  · rw [hcount, hc.count, hperm.length_eq, List.length_cons]
  · rw [hru.size, hr.size]
    simp [Ledger.link, Ledger.put, hbuckets]

theorem insert [SlotSize α] (hz : SlotSize.bytes α * maxBlockEntries < wordLimit)
    (hc : t.Counted m) (hm : m.take? = some (id, m')) (hroom : t.traffic.added + 1 < wordLimit)
    (h : UInt32) (x : α) :
    ∃ u, t.insert h x = .ok id u ∧ u.Counted ((m'.put id ⟨h, x, false⟩).link (m.index h) id) ∧
      (∀ j, j ∈ ((m'.put id ⟨h, x, false⟩).link (m.index h) id).linked ↔ j = id ∨ j ∈ m.linked) ∧
      u.size = t.size ∧ u.count = t.count + 1 ∧ u.traffic.added = t.traffic.added + 1 := by
  obtain ⟨v, hv, hs, hid, -, hrv⟩ := hc.represents.newEntry (h := h) (x := x) hz hm
  obtain ⟨u, hu, hcu⟩ := hc.addNew hm hid hrv hs hroom
  exact ⟨u, by simp [Table.insert, hv, hu], hcu⟩

theorem insertShared [SlotSize α] (hz : SlotSize.bytes α * maxBlockEntries < wordLimit)
    (hc : t.Counted m) (hm : m.take? = some (id, m')) (hroom : t.traffic.added + 1 < wordLimit)
    (h : UInt32) (x : α) :
    ∃ u, t.insertShared h x = .ok id u ∧
      u.Counted ((m'.put id ⟨h, x, true⟩).link (m.index h) id) ∧
      (∀ j, j ∈ ((m'.put id ⟨h, x, true⟩).link (m.index h) id).linked ↔ j = id ∨ j ∈ m.linked) ∧
      u.size = t.size ∧ u.count = t.count + 1 ∧ u.traffic.added = t.traffic.added + 1 := by
  obtain ⟨v, hv, hs, hid, hrv⟩ := hc.represents.newSharedEntry (h := h) (x := x) hz hm
  obtain ⟨u, hu, hcu⟩ := hc.addNew hm hid hrv hs hroom
  exact ⟨u, by simp [Table.insertShared, hv, hu], hcu⟩

theorem remove (hc : t.Counted m) (hid : id ∈ m.linked)
    (hlookup : m.entries.lookup id = some ⟨h, x, false⟩) :
    ∃ u, t.remove id = .ok (some x) u ∧ u.Counted ((m.unlink (m.index h) id).recycle id) ∧
      (∀ j, j ∈ ((m.unlink (m.index h) id).recycle id).linked ↔ j ≠ id ∧ j ∈ m.linked) ∧
      u.size = t.size ∧ u.count = t.count - 1 ∧ u.traffic.added = t.traffic.added := by
  have hr := hc.represents
  obtain ⟨e, he, hec⟩ := hr.get? hlookup
  have hh : e.hash = h := congrArg Content.hash hec
  have hi : t.hashToIndex e.hash = m.index h := by rw [hashToIndex, hr.size, hh, Ledger.index]
  have hchain : id ∈ m.chain (m.index h) := by
    refine hr.mem_chain_iff.mpr ⟨hid, ?_⟩
    rw [hr.size, Ledger.hash, hlookup]
    rfl
  obtain ⟨v, hv, hs, hrv⟩ := hr.unlink_mem hchain
  have hcount : 0 < v.count := by
    rw [hs.1, hc.count]
    exact List.length_pos_of_mem hid
  obtain ⟨u, hu, hru, hb, hcu, hadded⟩ := hrv.freeEntry (hc.balanced.same hs) hlookup rfl
    (by simp [hr.mem_unlink hchain]) hcount
  have hmem : ∀ j, j ∈ ((m.unlink (m.index h) id).recycle id).linked ↔ j ≠ id ∧ j ∈ m.linked := by
    intro j
    rw [Ledger.linked_recycle, hr.mem_unlink hchain]
  have hperm := (List.perm_ext_iff_of_nodup hru.nodup_linked (hr.nodup_linked.erase id)).mpr
    fun j => by rw [hmem, hr.nodup_linked.mem_erase_iff]
  refine ⟨u, ?_, ⟨hru, hb, ?_⟩, hmem, ?_, by rw [hcu, hs.1], by rw [hadded, hs.2]⟩
  · simp only [Table.remove, Table.entry, Arena.entry, he, hi, hv, Outcome.bind_ok, ↓reduceIte, hu,
      Outcome.map_ok]
  · rw [hcu, hs.1, hc.count, hperm.length_eq, List.length_erase_of_mem hid]
  · rw [hru.size, hr.size]
    simp [Ledger.recycle, Ledger.unlink]

end Counted

end Table

end ChainedTable
