import ChainedTable.Proofs.Resizing
import ChainedTable.Proofs.Table.Turnover

set_option autoImplicit false

/-!
Removing and resizing in either order. The two runs take the entry out of different chains, one
before and one after every link was written anew, and leave the same table: either leaves the chains
that are dealt out with the entry left out, and a table is determined by its chains.
-/

namespace ChainedTable

variable {α : Type}

namespace Table

variable {t u v w : Table α} {chains : Nat → List EntryId} {id : EntryId} {e : Entry α} {i n : Nat}

/-- What is left of `t` when `id` is removed and the table resized to `n` buckets. -/
structure Reduced (t w : Table α) (chains : Nat → List EntryId) (id : EntryId) (n : Nat) :
    Prop where
  relinked : Relinked (t.untallied (t.arena.released id)) w
  size : w.size = n
  arranged : w.Arranged fun j => (t.dealt chains n j).filter (· ≠ id)
  loose : ∀ j, (∀ k, j ∉ chains k) → w.arena.link j = t.arena.link j

theorem linked_filter (t : Table α) (chains : Nat → List EntryId) (keep : EntryId → Bool) :
    t.linked (fun k => (chains k).filter keep) = (t.linked chains).filter keep :=
  List.filter_flatMap.symm

theorem dealt_filter {keep : EntryId → Bool} (hsize : u.size = t.size)
    (hhash : ∀ id, keep id = true → u.arena.hash id = t.arena.hash id) :
    u.dealt (fun k => (chains k).filter keep) n = fun j => (t.dealt chains n j).filter keep := by
  funext j
  have hlinked : u.linked (fun k => (chains k).filter keep) = (t.linked chains).filter keep := by
    rw [linked, hsize, ← linked, linked_filter]
  rw [dealt, dealt, hlinked, List.filter_reverse, List.filter_filter, List.filter_filter]
  congr 1
  apply List.filter_congr
  intro id _
  cases hk : keep id with
  | true => simp [hhash id hk]
  | false => simp

theorem Reduced.gone (hw : t.Reduced w chains id n) (hlt : id.index < t.arena.carved) :
    w.arena.get? id = none := by
  have hreleased : (t.untallied (t.arena.released id)).arena.get? id = none := by
    simp [untallied, Arena.get?_released hlt]
  exact hw.relinked.arena.get?_none hreleased

theorem Reduced.unique (h : t.Arranged chains) (hw : t.Reduced w chains id n)
    (hv : t.Reduced v chains id n) (hslots : t.arena.Numbered)
    (hlt : id.index < t.arena.carved) : v = w := by
  have hnumbered : w.arena.Numbered :=
    hslots.of_carved (hw.relinked.arena.carved.trans Arena.carved_released)
  refine hw.arranged.eq_of_relinked hv.arranged (hw.relinked.symm.trans hv.relinked)
    (hv.size.trans hw.size.symm) (fun j hj => ?_) hnumbered
  by_cases hje : j = id
  · subst hje
    rw [Arena.link_eq_none.mpr (hv.gone hlt), Arena.link_eq_none.mpr (hw.gone hlt)]
  · have hoff : ∀ k, j ∉ chains k := by
      intro k hk
      have hdealt : j ∈ t.dealt chains n ((t.arena.hash j).toNat % n) :=
        mem_dealt.mpr ⟨h.mem_linked.mpr ⟨k, hk⟩, rfl⟩
      exact hj _ (List.mem_filter.mpr ⟨hdealt, by simpa using hje⟩)
    rw [hv.loose j hoff, hw.loose j hoff]

theorem Arranged.remove_resize [Memory] (h : t.Arranged chains) (he : t.arena.get? id = some e)
    (hid : id ∈ chains (t.hashToIndex e.hash)) (hs : e.isShared = false) (hc : t.count ≠ 0)
    (hroom : t.traffic.removed + 1 < wordLimit) (hn : Allocatable n) :
    ∃ u w, t.remove id = .ok (some e.literal) u ∧ u.resize n = .ok (.ok ()) w ∧
      t.Reduced w chains id n := by
  obtain ⟨u, hu, hrelu, hsizeu, harru, hlinku⟩ := h.remove he hid hs hc hroom
  obtain ⟨w, hw, hrelw, hsizew, harrw, hlinkw⟩ := harru.resize hn
  have hhash : ∀ j, decide (j ≠ id) = true → u.arena.hash j = t.arena.hash j := by
    intro j hj
    rw [hrelu.arena.hash]
    apply (Arena.link_hash_of_get?_eq _).2
    exact (Arena.get?_released (Arena.index_lt_of_get? he)).trans (if_neg (by simpa using hj))
  rw [dealt_filter hsizeu hhash] at harrw
  refine ⟨u, w, hu, hw, hrelu.trans hrelw, hsizew, harrw, fun j hj => ?_⟩
  rw [hlinkw j fun k hk => hj k (List.mem_of_mem_filter hk), hlinku j hj]

theorem Arranged.resize_remove [Memory] (h : t.Arranged chains) (he : t.arena.get? id = some e)
    (hid : id ∈ chains i) (hs : e.isShared = false) (hc : t.count ≠ 0)
    (hroom : t.traffic.removed + 1 < wordLimit) (hn : Allocatable n) :
    ∃ v w, t.resize n = .ok (.ok ()) v ∧ v.remove id = .ok (some e.literal) w ∧
      t.Reduced w chains id n := by
  obtain ⟨v, hv, hrelv, hsizev, harrv, hlinkv⟩ := h.resize hn
  obtain ⟨e', he', hcontent⟩ := hrelv.arena.get? he
  obtain ⟨hhash, hlit, hshared⟩ := Content.mk.inj hcontent
  have hid' : id ∈ t.dealt chains n (v.hashToIndex e'.hash) := by
    rw [mem_dealt, hashToIndex, hsizev, hhash, Arena.hash_of_get? he]
    exact ⟨h.mem_linked.mpr ⟨i, hid⟩, rfl⟩
  obtain ⟨w, hw, hrelw, hsizew, harrw, hlinkw⟩ := harrv.remove he' hid' (hshared.trans hs)
    (by rwa [hrelv.count]) (by rwa [hrelv.traffic])
  rw [hlit] at hw
  refine ⟨v, w, hv, hw, (hrelv.untallied he).trans hrelw, hsizew.trans hsizev, harrw,
    fun j hj => ?_⟩
  have hoff : ∀ k, j ∉ t.dealt chains n k := by
    intro k hk
    obtain ⟨i, hi⟩ := h.mem_linked.mp (mem_dealt.mp hk).1
    exact hj i hi
  rw [hlinkw j hoff, hlinkv j hj]

/-- Removing a linked entry that is not shared and resizing give the same table and the same
literal in either order. The entry is not live there, and the others are dealt out as without it. -/
theorem remove_resize_comm [Memory] (h : t.WellFormed chains) (hid : id ∈ chains i)
    (he : t.arena.get? id = some e) (hs : e.isShared = false) (hn : Allocatable n)
    (hslots : t.arena.Numbered) (hroom : t.traffic.removed + 1 < wordLimit) :
    ∃ u v w, t.remove id = .ok (some e.literal) u ∧ u.resize n = .ok (.ok ()) w ∧
      t.resize n = .ok (.ok ()) v ∧ v.remove id = .ok (some e.literal) w ∧
      t.Reduced w chains id n ∧ w.arena.get? id = none := by
  have hcount : t.count ≠ 0 := by
    have hlinked : id ∈ t.linked chains := h.mem_linked.mpr ⟨i, hid⟩
    rw [h.counted]
    exact Nat.ne_of_gt (List.length_pos_of_mem hlinked)
  have hplaced : id ∈ chains (t.hashToIndex e.hash) := by rwa [h.placed hid he]
  obtain ⟨u, w, hu, hw, hfirst⟩ := h.toArranged.remove_resize he hplaced hs hcount hroom hn
  obtain ⟨v, w', hv, hw', hsecond⟩ := h.toArranged.resize_remove he hid hs hcount hroom hn
  have hlt := Arena.index_lt_of_get? he
  rw [Reduced.unique h.toArranged hfirst hsecond hslots hlt] at hw'
  exact ⟨u, v, w, hu, hw, hv, hw', hfirst, hfirst.gone hlt⟩

theorem remove_resize_comm_behind_shared :
    ∃ (_ : Memory) (t u v w : Table UInt32) (a b c s : EntryId) (cs : List (Call UInt32)),
      create 2 .symbol = .ok t ∧
      cs = [.newEntry 2 20, .newSharedEntry 4 40, .newEntry 6 60, .newEntry 1 10, .addEntry 0 a,
        .addEntry 0 s, .addEntry 0 b, .addEntry 1 c] ∧
      (t.run cs).remove a = .ok (some 20) u ∧ u.resize 3 = .ok (.ok ()) w ∧
      (t.run cs).resize 3 = .ok (.ok ()) v ∧ v.remove a = .ok (some 20) w ∧
      w.size = 3 ∧ w.arena.get? a = none ∧
      (w.walk 0).ids = [b] ∧ (w.walk 1).ids = [c, s] ∧ (w.walk 2).ids = [] := by
  let mem : Memory := .below 100 (by decide)
  let a : EntryId := .ofIndex 0 (by decide)
  let s : EntryId := .ofIndex 1 (by decide)
  let b : EntryId := .ofIndex 2 (by decide)
  let c : EntryId := .ofIndex 3 (by decide)
  let cs : List (Call UInt32) :=
    [.newEntry 2 20, .newSharedEntry 4 40, .newEntry 6 60, .newEntry 1 10, .addEntry 0 a,
      .addEntry 0 s, .addEntry 0 b, .addEntry 1 c]
  let t : Table UInt32 := ⟨emptyBuckets 2, 0, .empty, .symbol, .zero, by decide⟩
  have hpass : ((t.run cs).verify "symbols" fun _ => true).result.toOption = some ⟨4, 3, 0⟩ := by
    decide +kernel
  have hlive : ((t.run cs).arena.get? a).map (fun e => (e.isShared, e.literal)) =
      some (false, 20) := by
    decide +kernel
  obtain ⟨e, he, hread⟩ := Option.map_eq_some_iff.mp hlive
  obtain ⟨hs, hlit⟩ := Prod.mk.inj hread
  have hw := wellFormed_of_report hpass
  obtain ⟨u, v, w, hu, hw, hv, hw', hreduced, hgone⟩ :=
    remove_resize_comm (i := 0) (n := 3) hw (by decide +kernel) he hs (by decide)
      (numbered_run Arena.numbered_empty cs) (by decide +kernel)
  rw [hlit] at hu hw'
  have hids : ∀ j, (w.walk j).ids = _ := fun j => (hreduced.arranged.walk j).2
  refine ⟨mem, t, u, v, w, a, b, c, s, cs, rfl, rfl, hu, hw, hv, hw', hreduced.size, hgone,
    ?_, ?_, ?_⟩ <;> (rw [hids]; decide +kernel)

end Table

end ChainedTable
