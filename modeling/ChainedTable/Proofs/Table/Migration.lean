import ChainedTable.Proofs.Table.Arrangement
import Mathlib.Data.List.Pairwise

set_option autoImplicit false

namespace ChainedTable

variable {α : Type}

def Arena.hash (a : Arena α) (id : EntryId) : UInt32 := ((a.content? id).map Content.hash).getD 0

theorem Arena.hash_of_get? {a : Arena α} {id : EntryId} {e : Entry α} (h : a.get? id = some e) :
    a.hash id = e.hash := by simp [hash, content?_of_get? h, Entry.content]

theorem Arena.link_hash_of_get?_eq {a b : Arena α} {id : EntryId} (h : b.get? id = a.get? id) :
    b.link id = a.link id ∧ b.hash id = a.hash id := by simp [link, hash, content?, h]

theorem Arena.Relinked.hash {a b : Arena α} (h : Relinked a b) : b.hash = a.hash := by
  funext id
  simp [Arena.hash, h.content? id]

namespace Table

def bucketOf (t : Table α) (id : EntryId) : Nat := t.hashToIndex (t.arena.hash id)

def linked (t : Table α) (chains : Nat → List EntryId) : List EntryId :=
  (List.range t.size).flatMap chains

/-- Where the linked ids lie when they are put, in bucket order, in front of `size` empty chains. -/
def dealt (t : Table α) (chains : Nat → List EntryId) (size j : Nat) : List EntryId :=
  ((t.linked chains).filter fun id => (t.arena.hash id).toNat % size = j).reverse

variable {t u : Table α} {chains : Nat → List EntryId} {id : EntryId} {n : Nat}

theorem bucketOf_of_get? {e : Entry α} (h : t.arena.get? id = some e) :
    t.bucketOf id = t.hashToIndex e.hash := by rw [bucketOf, Arena.hash_of_get? h]

theorem Relinked.bucketOf (h : Relinked t u) (hs : u.size = t.size) : u.bucketOf = t.bucketOf := by
  funext id
  rw [Table.bucketOf, Table.bucketOf, hashToIndex, hashToIndex, h.arena.hash, hs]

theorem LaidOut.mem_linked {stops : Nat → Option EntryId} (h : t.LaidOut chains stops) :
    id ∈ t.linked chains ↔ ∃ i, id ∈ chains i := by
  simp only [linked, List.mem_flatMap, List.mem_range]
  exact ⟨fun ⟨i, _, hid⟩ => ⟨i, hid⟩, fun ⟨i, hid⟩ => ⟨i, h.lt_size hid, hid⟩⟩

theorem LaidOut.nodup_linked {stops : Nat → Option EntryId} (h : t.LaidOut chains stops) :
    (t.linked chains).Nodup := by
  rw [linked, List.nodup_flatMap]
  refine ⟨fun i _ => h.nodup i, ?_⟩
  refine List.nodup_range.imp fun {i j} hij => ?_
  exact List.disjoint_left.mpr fun id hi hj => hij (h.apart hi hj)

theorem laidOut_walks (hends : ∀ i < t.size, (t.walk i).ending ≠ .unfinished)
    (hnd : (t.linked fun i => (t.walk i).ids).Nodup) :
    t.LaidOut (fun i => (t.walk i).ids) fun i => (t.walk i).ending.deadId? := by
  have hall : ∀ i, (t.walk i).ending ≠ .unfinished := by
    intro i
    rcases Nat.lt_or_ge i t.size with hi | hi
    · exact hends i hi
    · simp [walk_of_size_le hi]
  have hlt : ∀ {i : Nat} {id : EntryId}, id ∈ (t.walk i).ids → i < t.size := by
    intro i id hid
    apply Nat.lt_of_not_le
    intro hi
    simp [walk_of_size_le hi, Walk.ids] at hid
  constructor
  case path => exact fun i => Arena.path_of_walk_ends (hall i)
  case dead =>
    intro i id hid
    cases he : (t.walk i).ending with
    | dead j =>
      obtain rfl : j = id := by simpa [he, Ending.deadId?] using hid
      exact Arena.get?_of_walk_dead he
    | _ => simp [he, Ending.deadId?] at hid
  case apart =>
    intro i j id hi hj
    rw [linked, List.nodup_flatMap] at hnd
    by_contra hij
    have : Std.Symm fun k l => List.Disjoint (t.walk k).ids (t.walk l).ids :=
      ⟨fun _ _ => List.disjoint_symm⟩
    exact List.Pairwise.forall hnd.2 (List.mem_range.mpr (hlt hi)) (List.mem_range.mpr (hlt hj)) hij
      hi hj

theorem Arranged.mem_linked (h : t.Arranged chains) :
    id ∈ t.linked chains ↔ ∃ i, id ∈ chains i := h.laidOut.mem_linked

theorem Arranged.nodup_linked (h : t.Arranged chains) : (t.linked chains).Nodup :=
  h.laidOut.nodup_linked

theorem Arranged.length_linked_le (h : t.Arranged chains) :
    (t.linked chains).length ≤ maxEntries :=
  length_le_of_index_lt h.nodup_linked fun id _ => id.index_lt

theorem arranged_clear (t : Table α) (hn : 0 < n) : (t.clear n hn).Arranged fun _ => [] where
  path i := by simp
  apart := by
    intro i j id hid
    simp at hid

theorem Relinked.stop {d : Option EntryId} (h : Relinked t u) (hd : d.bind t.arena.link = none) :
    d.bind u.arena.link = none := by
  cases d with
  | none => rfl
  | some id => exact Arena.link_eq_none.mpr (h.arena.get?_none (Arena.link_eq_none.mp hd))

/-- Migrating the cells of a path puts each in front of the chain of its hash, up to the stop of the
path. -/
theorem migrateChain_path {ids : List EntryId} {c d : Option EntryId}
    (h : t.Arranged chains) (hp : Path t.arena.link c ids d) (hd : d.bind t.arena.link = none)
    (hloose : ∀ id ∈ ids, ∀ k, id ∉ chains k) (hn : ids.length < n) :
    ∃ u, t.migrateChain n c = .ofExcept (Ending.ofStop d).check u ∧
      u.Arranged (fun j => (ids.filter fun id => t.bucketOf id = j).reverse ++ chains j) ∧
      ∀ id, id ∉ ids → u.arena.link id = t.arena.link id := by
  induction ids generalizing t c chains n with
  | nil =>
    obtain rfl := hp
    obtain ⟨n, rfl⟩ : ∃ k, n = k + 1 := ⟨n - 1, by simp at hn; omega⟩
    refine ⟨t, ?_, by simpa using h, fun _ _ => rfl⟩
    cases c with
    | none => rfl
    | some id => simp [migrateChain, Arena.link_eq_none.mp hd, Ending.ofStop, Ending.check]
  | cons id ids ih =>
    have hnot : id ∉ ids := (List.nodup_cons.mp (hp.nodup_of_stop hd)).1
    have hne : ∀ j ∈ ids, j ≠ id := fun j hj hje => hnot (hje ▸ hj)
    obtain ⟨rfl, m, hm, hr⟩ := hp
    obtain ⟨e, he, rfl⟩ := Arena.link_eq_some.mp hm
    obtain ⟨n, rfl⟩ : ∃ k, n = k + 1 := ⟨n - 1, by omega⟩
    have harr := h.prepend (t.hashToIndex_lt e.hash) he (hloose id (by simp))
    have hrel := relinked_prepend (t.hashToIndex e.hash) he
    have hbucket := hrel.bucketOf (t.size_prepend _ id e)
    -- the ids still to come are not `id`, so their links are the old ones
    have hrest : Path (t.prepend (t.hashToIndex e.hash) id e).arena.link e.next ids d :=
      hr.congr fun j hj => by rw [link_prepend _ he, if_neg (hne j hj)]
    have hloose' : ∀ j ∈ ids, ∀ k, j ∉ Function.update chains (t.hashToIndex e.hash)
        (id :: chains (t.hashToIndex e.hash)) k := by
      intro j hj k
      have hjk := hloose j (by simp [hj])
      rw [Function.update_apply]
      split
      · simp [hne j hj, hjk]
      · exact hjk k
    obtain ⟨u, hu, hua, hlink⟩ :=
      ih (n := n) harr hrest (hrel.stop hd) hloose' (by simpa using hn)
    refine ⟨u, by simpa [migrateChain, he] using hu, ?_, fun j hj => ?_⟩
    · convert hua using 1
      funext k
      rw [hbucket]
      by_cases hk : t.hashToIndex e.hash = k
      · subst hk
        simp [bucketOf_of_get? he]
      · rw [Function.update_of_ne (Ne.symm hk)]
        simp [bucketOf_of_get? he, hk]
    · obtain ⟨hji, hjids⟩ : j ≠ id ∧ j ∉ ids := by simpa using hj
      rw [hlink j hjids, link_prepend _ he, if_neg hji]

/-- Migrating chains one after another is migrating, in order, the ids that are met before the first
chain that does not close. -/
theorem migrate_path (is : List Nat) {heads stops : Nat → Option EntryId} {ws : Nat → Walk α}
    (h : t.Arranged chains) (hp : ∀ i ∈ is, Path t.arena.link (heads i) (ws i).ids (stops i))
    (hd : ∀ i ∈ is, (stops i).bind t.arena.link = none)
    (hend : ∀ i ∈ is, (ws i).ending = .ofStop (stops i))
    (hnd : (is.flatMap fun i => (ws i).ids).Nodup)
    (hloose : ∀ id ∈ is.flatMap fun i => (ws i).ids, ∀ k, id ∉ chains k)
    (hn : ∀ i ∈ is, (ws i).ids.length < n) :
    ∃ u, t.migrate n (is.map heads) = .ofExcept (Walk.flatten (is.map ws)).ending.check u ∧
      u.Arranged (fun j =>
        ((Walk.flatten (is.map ws)).ids.filter fun id => t.bucketOf id = j).reverse ++ chains j) ∧
      ∀ id, id ∉ (Walk.flatten (is.map ws)).ids → u.arena.link id = t.arena.link id := by
  induction is generalizing t chains with
  | nil => exact ⟨t, rfl, by simpa [Walk.flatten, Walk.ids] using h, fun _ _ => rfl⟩
  | cons i is ih =>
    rw [List.flatMap_cons] at hnd hloose
    have hdisj := (List.nodup_append.mp hnd).2.2
    obtain ⟨u, hu, hua, hul⟩ := migrateChain_path h (hp i (by simp)) (hd i (by simp))
      (fun id hid => hloose id (List.mem_append_left _ hid)) (hn i (by simp))
    have hclose := hend i (by simp)
    rw [List.map_cons, List.map_cons, Walk.flatten_cons]
    cases hs : stops i with
    | some p =>
      -- the chain is broken, and the rest of the table is not moved
      rw [hs] at hu hclose
      rw [Walk.append_dead hclose]
      refine ⟨u, ?_, hua, hul⟩
      rw [migrate, hu, hclose]
      rfl
    | none =>
      rw [hs] at hu hclose
      have hu : t.migrateChain n (heads i) = .ok () u := hu
      have hrel := t.relinked_migrateChain n (heads i)
      have hsize := t.size_migrateChain n (heads i)
      rw [hu, Outcome.state_ok] at hrel hsize
      have hrest : ∀ j ∈ is, Path u.arena.link (heads j) (ws j).ids (stops j) := by
        intro j hj
        refine (hp j (by simp [hj])).congr fun id hid => hul id fun hidi => ?_
        exact hdisj id hidi id (List.mem_flatMap.mpr ⟨j, hj, hid⟩) rfl
      have hloose' : ∀ id ∈ is.flatMap fun i => (ws i).ids, ∀ k,
          id ∉ ((ws i).ids.filter fun id => t.bucketOf id = k).reverse ++ chains k := by
        intro id hid k hmem
        rcases List.mem_append.mp hmem with hmem | hmem
        · have hidi : id ∈ (ws i).ids := List.mem_of_mem_filter (List.mem_reverse.mp hmem)
          exact hdisj id hidi id hid rfl
        · exact hloose id (List.mem_append_right _ hid) k hmem
      obtain ⟨v, hv, hva, hvl⟩ := ih hua hrest (fun j hj => hrel.stop (hd j (by simp [hj])))
        (fun j hj => hend j (by simp [hj])) (List.nodup_append.mp hnd).2.1 hloose'
        fun j hj => hn j (by simp [hj])
      rw [Walk.append_closed hclose]
      refine ⟨v, by simpa [migrate, hu] using hv, ?_, fun id hid => ?_⟩
      · convert hva using 1
        funext k
        simp [hrel.bucketOf hsize, Walk.ids]
      · rw [Walk.ids, List.map_append, List.mem_append, not_or] at hid
        rw [hvl id hid.2, hul id hid.1]

theorem toList_buckets (t : Table α) : t.buckets.toList = (List.range t.size).map t.head := by
  apply List.ext_getElem
  · simp [size]
  · intro i hi _
    have hlt : i < t.buckets.size := by simpa using hi
    simp [head, hlt]

/-- A resize whose buckets can be had deals out the ids that it meets, and it meets all up to the
first dead one. -/
theorem LaidOut.resize [Memory] {stops : Nat → Option EntryId} (h : t.LaidOut chains stops)
    (hn : Allocatable n) :
    ∃ u, t.resize n = (Outcome.ofExcept t.traversal.ending.check u).map .ok ∧ Relinked t u ∧
      u.size = n ∧
      u.Arranged (fun j => (t.traversal.ids.filter fun id =>
        (t.arena.hash id).toNat % n = j).reverse) ∧
      ∀ id, id ∉ t.traversal.ids → u.arena.link id = t.arena.link id := by
  have hids : (fun i => (t.walk i).ids) = chains := funext fun i => (h.walk i).2
  have hlen : ∀ i ∈ List.range t.size, (t.walk i).ids.length < t.migrationBound := by
    intro i _
    have := h.length_le i
    rw [(h.walk i).2, migrationBound]
    omega
  obtain ⟨u, hu, hua, hul⟩ := migrate_path (List.range t.size) (arranged_clear t hn.1)
    (fun i _ => by rw [(h.walk i).2]; exact h.path i) (fun i _ => h.stop i)
    (fun i _ => (h.walk i).1) (by rw [hids]; exact h.nodup_linked)
    (fun _ _ _ => List.not_mem_nil) hlen
  rw [← traversal_flatten] at hu hua hul
  have hresize : t.resize n = (Outcome.ofExcept t.traversal.ending.check u).map .ok := by
    simp only [Table.resize, hn, ↓reduceDIte, toList_buckets, hu]
  have hrel := t.relinked_resize n
  have hsize := (t.clear n hn.1).size_migrate t.migrationBound ((List.range t.size).map t.head)
  rw [hresize, Outcome.state_map, Outcome.state_ofExcept] at hrel
  rw [hu, Outcome.state_ofExcept, size_clear] at hsize
  refine ⟨u, hresize, hrel, hsize, ?_, hul⟩
  convert hua using 1
  funext j
  simp [bucketOf, hashToIndex]

theorem Arranged.resize [Memory] (h : t.Arranged chains) (hn : Allocatable n) :
    ∃ u, t.resize n = .ok (.ok ()) u ∧ Relinked t u ∧ u.size = n ∧
      u.Arranged (t.dealt chains n) ∧
      ∀ id, (∀ i, id ∉ chains i) → u.arena.link id = t.arena.link id := by
  obtain ⟨u, hu, hrel, hsize, harr, hlink⟩ := h.laidOut.resize hn
  have hids : t.traversal.ids = t.linked chains := h.traversal_ids
  have hclosed : t.traversal.ending = .closed := by rw [h.traversal_eq]
  rw [hids] at harr hlink
  rw [hclosed] at hu
  refine ⟨u, hu, hrel, hsize, harr, fun id hid => hlink id fun hmem => ?_⟩
  obtain ⟨i, hi⟩ := h.mem_linked.mp hmem
  exact hid i hi

end Table

end ChainedTable
