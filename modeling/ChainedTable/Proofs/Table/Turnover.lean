import ChainedTable.Proofs.Table.Representation
import ChainedTable.Table.Insert

set_option autoImplicit false

namespace ChainedTable

variable {α : Type}

namespace Table

variable {t u : Table α} {chains : Nat → List EntryId} {id : EntryId} {e : Entry α} {i : Nat}

theorem buckets_eq (hsize : u.size = t.size) (hhead : ∀ i, u.head i = t.head i) :
    u.buckets = t.buckets := by
  rw [← Array.toList_inj, toList_buckets, toList_buckets, hsize, funext hhead]

namespace Arranged

theorem link_eq (ht : t.Arranged chains) (hu : u.Arranged chains) (hid : id ∈ chains i) :
    u.arena.link id = t.arena.link id := by
  obtain ⟨xs, ys, hchain⟩ := List.append_of_mem hid
  have htp := ht.path i
  have hup := hu.path i
  rw [hchain] at htp hup
  rw [htp.link_of_append, hup.link_of_append]

theorem get?_eq (ht : t.Arranged chains) (hu : u.Arranged chains)
    (hcontent : ∀ id, u.arena.content? id = t.arena.content? id)
    (hloose : ∀ id, (∀ i, id ∉ chains i) → u.arena.link id = t.arena.link id) (id : EntryId) :
    u.arena.get? id = t.arena.get? id := by
  apply Arena.get?_eq_of_content?_link (hcontent id)
  by_cases hid : ∃ i, id ∈ chains i
  · obtain ⟨i, hi⟩ := hid
    exact ht.link_eq hu hi
  · exact hloose id fun i hi => hid ⟨i, hi⟩

theorem eq_of_relinked (ht : t.Arranged chains) (hu : u.Arranged chains) (hrel : Relinked t u)
    (hsize : u.size = t.size)
    (hloose : ∀ id, (∀ i, id ∉ chains i) → u.arena.link id = t.arena.link id)
    (hslots : t.arena.Numbered) : u = t := by
  have hbuckets : u.buckets = t.buckets :=
    buckets_eq hsize fun i => (hu.head i).trans (ht.head i).symm
  have harena : u.arena = t.arena :=
    Arena.ext_reading hslots (ht.get?_eq hu hrel.arena.content? hloose) hrel.arena.freeLink
      hrel.arena.carved hrel.arena.freeHead hrel.arena.freeCount hrel.arena.reserved
      hrel.arena.blocks
  have hcount := hrel.count
  have htag := hrel.tag
  have htraffic := hrel.traffic
  cases t
  cases u
  simp_all

end Arranged

theorem Relinked.symm (h : Relinked t u) : Relinked u t :=
  ⟨h.arena.symm, h.count.symm, h.tag.symm, h.traffic.symm⟩

theorem Relinked.tallied (h : Relinked t u) : Relinked t.tallied u.tallied where
  arena := h.arena
  count := congrArg (· + 1) h.count
  tag := h.tag
  traffic := by rw [Table.tallied, Table.tallied, h.traffic]

theorem Relinked.untallied (h : Relinked t u) (he : t.arena.get? id = some e) :
    Relinked (t.untallied (t.arena.released id)) (u.untallied (u.arena.released id)) where
  arena := h.arena.released he
  count := congrArg (· - 1) h.count
  tag := h.tag
  traffic := by rw [Table.untallied, Table.untallied, h.traffic]

theorem Arranged.remove (h : t.Arranged chains) (he : t.arena.get? id = some e)
    (hid : id ∈ chains (t.hashToIndex e.hash)) (hs : e.isShared = false) (hc : t.count ≠ 0)
    (hroom : t.traffic.removed + 1 < wordLimit) :
    ∃ u, t.remove id = .ok (some e.literal) u ∧
      Relinked (t.untallied (t.arena.released id)) u ∧ u.size = t.size ∧
      u.Arranged (fun k => (chains k).filter (· ≠ id)) ∧
      ∀ j, (∀ k, j ∉ chains k) → u.arena.link j = t.arena.link j := by
  obtain ⟨v, xs, ys, next, hv, hchain, hspliced⟩ := unlink_of_mem (h.path _) rfl hid
  have hrel := hspliced.relinked
  obtain ⟨e', he', hcontent⟩ := hrel.arena.get? he
  obtain ⟨-, hlit, hshared⟩ := Content.mk.inj hcontent
  have hfree := Arena.free_live he' (hshared.trans hs)
  have hremove := freeEntry_ok (by rwa [hrel.count]) (by rwa [hrel.traffic]) hfree
  have hlink : ∀ j, j ≠ id → (v.arena.released id).link j = v.arena.link j := by
    intro j hj
    apply (Arena.link_hash_of_get?_eq _).1
    rw [Arena.get?_released (Arena.index_lt_of_get? he'), if_neg hj]
  have harr := h.spliced hchain hspliced
  rw [h.update_erase hid] at harr
  refine ⟨v.untallied (v.arena.released id), ?_, hrel.untallied he, hspliced.size, ?_, ?_⟩
  · have hentry : t.entry id = .ok e := by simp [entry, Arena.entry, he]
    simp [Table.remove, hentry, hv, hremove, hlit]
  · exact harr.congr (fun _ => rfl) fun k j hj =>
      hlink j (by simpa using (List.mem_filter.mp hj).2)
  · intro j hj
    have hne : j ≠ id := fun hje => hj _ (hje ▸ hid)
    have hlast : xs.getLast? ≠ some j := fun hlast =>
      hj _ (hchain ▸ List.mem_append_left _ (List.mem_of_getLast? hlast))
    exact (hlink j hne).trans (by rw [hspliced.link j hne, if_neg hlast])

theorem Arranged.insert [SlotSize α] {b : Arena α} {hash : UInt32} {x : α} (h : t.Arranged chains)
    (hb : t.arena.allocate hash x t.sizing = .ok id b) (hnone : t.arena.get? id = none)
    (hget : ∀ j, b.get? j = if j = id then some (.fresh hash x) else t.arena.get? j)
    (hcount : t.count + 1 < wordLimit) (hroom : t.traffic.added + 1 < wordLimit) :
    ∃ u, t.insert hash x = .ok id u ∧ Relinked ({ t with arena := b } : Table α).tallied u ∧
      u.size = t.size ∧
      u.Arranged (Function.update chains (t.hashToIndex hash)
        (id :: chains (t.hashToIndex hash))) ∧
      ∀ j, j ≠ id → u.arena.link j = t.arena.link j := by
  have hnew : t.newEntry hash x = .ok id { t with arena := b } := by
    simp [newEntry, onArena_eq, hb]
  have hother : ∀ j, j ≠ id → b.link j = t.arena.link j := fun j hj =>
    (Arena.link_hash_of_get?_eq (by rw [hget, if_neg hj])).1
  have hloose : ∀ k, id ∉ chains k := h.not_mem hnone
  have hmade : ({ t with arena := b } : Table α).Arranged chains :=
    h.congr (fun _ => rfl) fun k j hj => hother j fun hje => hloose k (hje ▸ hj)
  have hi : t.hashToIndex hash < ({ t with arena := b } : Table α).size := t.hashToIndex_lt hash
  have he : ({ t with arena := b } : Table α).arena.get? id = some (.fresh hash x) := by
    rw [hget, if_pos rfl]
  have hadd := addEntry_ok hi he hcount hroom
  have harr := hmade.prepend hi he hloose
  refine ⟨_, ?_, (relinked_prepend _ he).tallied, size_prepend _ _ _ _,
    harr.congr (fun _ => rfl) fun _ _ _ => rfl, fun j hj => ?_⟩
  · have hindex : ({ t with arena := b } : Table α).hashToIndex hash = t.hashToIndex hash := rfl
    simp [Table.insert, hnew, hindex, hadd]
  · exact (link_prepend _ he).trans (by rw [if_neg hj, hother j hj])

end Table

end ChainedTable
