import ChainedTable.Proofs.Arena.Reading
import Mathlib.Data.List.Find
import Mathlib.Data.List.Perm.Subperm

set_option autoImplicit false

namespace ChainedTable

variable {α : Type} {a b : Arena α} {c c' d : Option EntryId} {ids : List EntryId} {n n' : Nat}

theorem length_le_of_index_lt (hnd : ids.Nodup) (h : ∀ id ∈ ids, id.index < n) :
    ids.length ≤ n := by
  have hinj : (ids.map EntryId.index).Nodup :=
    hnd.map fun _ _ he => EntryId.index_inj.mp he
  have hsub : ids.map EntryId.index ⊆ List.range n := by
    intro k hk
    obtain ⟨id, hid, rfl⟩ := List.mem_map.mp hk
    exact List.mem_range.mpr (h id hid)
  simpa using (hinj.subperm hsub).length_le

theorem length_eq_of_mem_iff (hnd : ids.Nodup) (h : ∀ id, id ∈ ids ↔ id.index < n)
    (hn : n ≤ maxEntries) : ids.length = n := by
  apply Nat.le_antisymm (length_le_of_index_lt hnd fun id hid => (h id).mp hid)
  have hsub : List.range n ⊆ ids.map EntryId.index := by
    intro k hk
    have hk : k < n := List.mem_range.mp hk
    have hi := EntryId.index_ofIndex (Nat.lt_of_lt_of_le hk hn)
    exact List.mem_map.mpr ⟨_, (h _).mpr (by rw [hi]; exact hk), hi⟩
  simpa using (List.nodup_range.subperm hsub).length_le

theorem Walk.take_closed {w : Walk α} (h : w.ending = .closed) (limit : Nat) :
    w.take limit = .ok (w.visited.take limit) := by
  rw [take]
  split
  · rfl
  · rename_i hlt
    simp [h, Ending.check, Except.map, List.take_of_length_le (Nat.le_of_not_le hlt)]

theorem Walk.eq_of_visited_ending {w v : Walk α} (hv : w.visited = v.visited)
    (he : w.ending = v.ending) : w = v := by
  cases w
  cases v
  exact congrArg₂ Walk.mk hv he

/-- How a walk ends that stops at a dead id or at none. -/
def Ending.ofStop : Option EntryId → Ending
  | none => .closed
  | some id => .dead id

def Ending.deadId? : Ending → Option EntryId
  | .dead id => some id
  | _ => none

theorem Ending.deadId?_ofStop (d : Option EntryId) : (ofStop d).deadId? = d := by cases d <;> rfl

namespace Arena

theorem length_le_carved (h : Path a.link c ids d) (hd : d.bind a.link = none) :
    ids.length ≤ a.carved := by
  refine length_le_of_index_lt (h.nodup_of_stop hd) fun id hid => ?_
  obtain ⟨n, hn⟩ := Option.isSome_iff_exists.mp (h.isSome hid)
  obtain ⟨e, he, -⟩ := link_eq_some.mp hn
  exact index_lt_of_get? he

theorem length_le_carved_free (h : Path a.freeLink c ids none) : ids.length ≤ a.carved := by
  refine length_le_of_index_lt h.nodup fun id hid => ?_
  obtain ⟨n, hn⟩ := Option.isSome_iff_exists.mp (h.isSome hid)
  exact index_lt_of_freeLink hn

theorem walk_of_path (h : Path a.link c ids d) (hd : d.bind a.link = none) (hn : ids.length < n) :
    (a.walk n c).ending = .ofStop d ∧ (a.walk n c).ids = ids := by
  induction ids generalizing c n with
  | nil =>
    obtain rfl := h
    obtain ⟨k, rfl⟩ : ∃ k, n = k + 1 := ⟨n - 1, by simp at hn; omega⟩
    cases c with
    | none => simp [Walk.ids, Ending.ofStop]
    | some id => simp [walk_dead k (link_eq_none.mp hd), Walk.ids, Ending.ofStop]
  | cons id ids ih =>
    obtain ⟨rfl, m, hm, hr⟩ := h
    obtain ⟨e, he, rfl⟩ := link_eq_some.mp hm
    obtain ⟨k, rfl⟩ : ∃ k, n = k + 1 := ⟨n - 1, by omega⟩
    have hk : ids.length < k := by simpa using hn
    rw [walk_live k he]
    obtain ⟨hend, hids⟩ := ih hr hk
    exact ⟨hend, by simpa [Walk.ids] using hids⟩

theorem path_of_walk_ends (h : (a.walk n c).ending ≠ .unfinished) :
    Path a.link c (a.walk n c).ids (a.walk n c).ending.deadId? := by
  induction n generalizing c with
  | zero => cases c <;> simp_all [Walk.ids, Ending.deadId?]
  | succ n ih =>
    cases c with
    | none => simp [Walk.ids, Ending.deadId?]
    | some id =>
      cases he : a.get? id with
      | none => simp [walk_dead n he, Walk.ids, Ending.deadId?]
      | some e =>
        rw [walk_live n he] at h ⊢
        exact ⟨rfl, e.next, link_of_get? he, ih h⟩

theorem path_of_walk (h : (a.walk n c).ending = .closed) :
    Path a.link c (a.walk n c).ids none := by
  have hends : (a.walk n c).ending ≠ .unfinished := by simp [h]
  simpa [h, Ending.deadId?] using path_of_walk_ends hends

theorem get?_of_walk_dead {id : EntryId} (h : (a.walk n c).ending = .dead id) :
    a.get? id = none := by
  induction n generalizing c with
  | zero => cases c <;> simp at h
  | succ n ih =>
    cases c with
    | none => simp at h
    | some i =>
      cases he : a.get? i with
      | none =>
        obtain rfl : i = id := by simpa [walk_dead n he] using h
        exact he
      | some e =>
        rw [walk_live n he] at h
        exact ih h

theorem eq_filterMap_get? {l : List (EntryId × Entry α)} (h : ∀ x ∈ l, a.get? x.1 = some x.2) :
    l = (l.map Prod.fst).filterMap fun id => (a.get? id).map (Prod.mk id) := by
  have hall : ∀ x ∈ l, (a.get? x.1).map (Prod.mk x.1) = some x := by
    intro x hx
    rw [h x hx]
    rfl
  rw [List.filterMap_map]
  exact ((List.filterMap_congr hall).trans List.filterMap_some).symm

theorem walk_eq_of_mem (hget : ∀ id ∈ (a.walk n c).ids, b.get? id = a.get? id)
    (hids : (b.walk n' c').ids = (a.walk n c).ids)
    (hending : (b.walk n' c').ending = (a.walk n c).ending) : b.walk n' c' = a.walk n c := by
  have ha : ∀ x ∈ (a.walk n c).visited, a.get? x.1 = some x.2 := fun x hx => get?_of_mem_walk hx
  have hb : ∀ x ∈ (b.walk n' c').visited, b.get? x.1 = some x.2 := fun x hx => get?_of_mem_walk hx
  refine Walk.eq_of_visited_ending ?_ hending
  rw [eq_filterMap_get? ha, eq_filterMap_get? hb, ← Walk.ids, hids, ← Walk.ids]
  exact List.filterMap_congr fun id hid => by rw [hget id hid]

theorem walk_eq_of_get?_eq (hget : ∀ id, b.get? id = a.get? id)
    (hids : (b.walk n' c').ids = (a.walk n c).ids)
    (hending : (b.walk n' c').ending = (a.walk n c).ending) : b.walk n' c' = a.walk n c :=
  walk_eq_of_mem (fun id _ => hget id) hids hending

theorem predecessor?_eq (a : Arena α) (n : Nat) (c : Option EntryId) (id : EntryId) :
    (a.walk n c).predecessor? id =
      match (a.walk n c).ids.find? fun q => a.link q = some (some id) with
      | some p => .ok (some p)
      | none => (a.walk n c).ending.check.map fun _ => none := by
  have hcongr : ∀ x ∈ (a.walk n c).visited,
      decide (a.link x.1 = some (some id)) = decide (x.2.next = some id) := by
    intro x hx
    simp [link_of_get? (get?_of_mem_walk hx)]
  rw [Walk.predecessor?, Walk.ids, List.find?_map, Function.comp_def, List.find?_congr hcongr]
  cases (a.walk n c).visited.find? fun x => decide (x.2.next = some id) <;> rfl

/-- The reader of the free list follows a path and goes on where the path leads. -/
theorem freeListFrom_append {d : Option EntryId} (h : Path a.freeLink c ids d) (n : Nat) :
    a.freeListFrom (ids.length + n) c [] = ids ++ a.freeListFrom n d [] := by
  induction ids generalizing c with
  | nil =>
    obtain rfl := h
    simp
  | cons id ids ih =>
    obtain ⟨rfl, m, hm, hr⟩ := h
    have hnext : a.nextFree id = m := by
      rw [freeLink_eq_some] at hm
      simp [nextFree, hm]
    rw [List.length_cons, Nat.add_right_comm, freeListFrom_some, hnext, ih hr, List.cons_append]

theorem freeListFrom_of_path (h : Path a.freeLink c ids none) (hn : ids.length ≤ n) :
    a.freeListFrom n c [] = ids := by
  have happ := freeListFrom_append h (n - ids.length)
  rw [Nat.add_sub_cancel' hn] at happ
  simpa using happ

theorem freeList_of_path (h : Path a.freeLink a.freeHead ids none) : a.freeList = ids :=
  freeListFrom_of_path h (Nat.le_succ_of_le (length_le_carved_free h))

theorem nextFree_eq (a : Arena α) (id : EntryId) : a.nextFree id = (a.freeLink id).join := by
  cases hs : a.slots[id.index]? with
  | none => simp [nextFree, freeLink, hs]
  | some s => cases s <;> simp [nextFree, freeLink, hs]

theorem freeListFrom_congr (h : b.freeLink = a.freeLink) (n : Nat) (c : Option EntryId)
    (seen : List EntryId) : b.freeListFrom n c seen = a.freeListFrom n c seen := by
  induction n generalizing c seen with
  | zero => rfl
  | succ n ih =>
    cases c with
    | none => rfl
    | some id => rw [freeListFrom, freeListFrom, nextFree_eq, nextFree_eq, h, ih]

theorem Relinked.freeList (h : Relinked a b) : b.freeList = a.freeList := by
  rw [Arena.freeList, Arena.freeList, h.carved, h.freeHead, freeListFrom_congr h.freeLink]

end Arena

end ChainedTable
