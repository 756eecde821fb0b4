import ChainedTable.Proofs.Table.Frame
import Mathlib.Logic.Function.Basic

set_option autoImplicit false

namespace ChainedTable

variable {α : Type}

theorem Walk.flatten_closed (ws : List (Walk α)) (h : ∀ w ∈ ws, w.ending = .closed) :
    Walk.flatten ws = ⟨ws.flatMap Walk.visited, .closed⟩ := by
  induction ws with
  | nil => rfl
  | cons w ws ih =>
    have hw : w.ending = .closed := h w (by simp)
    have hws := ih fun v hv => h v (by simp [hv])
    rw [flatten] at hws
    rw [flatten, List.foldr_cons, append_closed hw, hws, List.flatMap_cons]

theorem Walk.flatten_ends (ws : List (Walk α)) (h : ∀ w ∈ ws, w.ending ≠ .unfinished) :
    (Walk.flatten ws).ending ≠ .unfinished := by
  induction ws with
  | nil => simp [flatten]
  | cons w ws ih =>
    have hws := ih fun v hv => h v (by simp [hv])
    rw [flatten_cons]
    cases he : w.ending with
    | closed => rwa [append_closed he]
    | dead id => rw [append_dead he, he]; simp
    | unfinished => exact absurd he (h w (by simp))

namespace Table

variable {t u : Table α} {chains : Nat → List EntryId} {id : EntryId} {e : Entry α} {i : Nat}

/-- Chain `i` is `chains i` and stops at `stops i`, at none or at a dead id; its ids are on no other
chain. -/
structure LaidOut (t : Table α) (chains : Nat → List EntryId) (stops : Nat → Option EntryId) :
    Prop where
  path : ∀ i, Path t.arena.link (t.head i) (chains i) (stops i)
  dead : ∀ {i : Nat} {id : EntryId}, stops i = some id → t.arena.get? id = none
  apart : ∀ {i j : Nat} {id : EntryId}, id ∈ chains i → id ∈ chains j → i = j

/-- Chain `i` is `chains i`: it ends, its ids are live, and they are on no other chain. -/
structure Arranged (t : Table α) (chains : Nat → List EntryId) : Prop where
  path : ∀ i, Path t.arena.link (t.head i) (chains i) none
  apart : ∀ {i j : Nat} {id : EntryId}, id ∈ chains i → id ∈ chains j → i = j

theorem walk_of_path {ids : List EntryId} {d : Option EntryId}
    (hp : Path t.arena.link (t.head i) ids d) (hd : d.bind t.arena.link = none) :
    (t.walk i).ending = .ofStop d ∧ (t.walk i).ids = ids :=
  Arena.walk_of_path hp hd (Nat.lt_succ_of_le (Arena.length_le_carved hp hd))

theorem path_of_closed {ids : List EntryId} (h : (t.walk i).ending = .closed)
    (hids : (t.walk i).ids = ids) : Path t.arena.link (t.head i) ids none := by
  rw [← hids]
  exact Arena.path_of_walk h

theorem live_of_path {ids : List EntryId} {c d : Option EntryId}
    (hp : Path t.arena.link c ids d) (hid : id ∈ ids) : ∃ e, t.arena.get? id = some e := by
  obtain ⟨n, hn⟩ := Option.isSome_iff_exists.mp (hp.isSome hid)
  obtain ⟨e, he, -⟩ := Arena.link_eq_some.mp hn
  exact ⟨e, he⟩

theorem lt_size_of_path {ids : List EntryId} {d : Option EntryId}
    (hp : Path t.arena.link (t.head i) ids d) (hd : d.bind t.arena.link = none) (hids : ids ≠ []) :
    i < t.size := by
  apply Nat.lt_of_not_le
  intro hi
  rw [head_of_size_le hi] at hp
  have hempty : Path t.arena.link none [] none := rfl
  exact hids (hp.unique hempty hd rfl)

namespace LaidOut

variable {stops : Nat → Option EntryId}

theorem stop (h : t.LaidOut chains stops) (i : Nat) : (stops i).bind t.arena.link = none := by
  cases hs : stops i with
  | none => rfl
  | some id => exact Arena.link_eq_none.mpr (h.dead hs)

theorem nodup (h : t.LaidOut chains stops) (i : Nat) : (chains i).Nodup :=
  (h.path i).nodup_of_stop (h.stop i)

theorem live (h : t.LaidOut chains stops) (hid : id ∈ chains i) :
    ∃ e, t.arena.get? id = some e := live_of_path (h.path i) hid

theorem lt_size (h : t.LaidOut chains stops) (hid : id ∈ chains i) : i < t.size :=
  lt_size_of_path (h.path i) (h.stop i) (List.ne_nil_of_mem hid)

theorem length_le (h : t.LaidOut chains stops) (i : Nat) : (chains i).length ≤ t.arena.carved :=
  Arena.length_le_carved (h.path i) (h.stop i)

theorem walk (h : t.LaidOut chains stops) (i : Nat) :
    (t.walk i).ending = .ofStop (stops i) ∧ (t.walk i).ids = chains i :=
  walk_of_path (h.path i) (h.stop i)

theorem traversal_ends (h : t.LaidOut chains stops) : t.traversal.ending ≠ .unfinished := by
  rw [traversal_flatten]
  refine Walk.flatten_ends _ fun w hw => ?_
  obtain ⟨i, -, rfl⟩ := List.mem_map.mp hw
  rw [(h.walk i).1]
  cases stops i <;> simp [Ending.ofStop]

end LaidOut

namespace Arranged

theorem laidOut (h : t.Arranged chains) : t.LaidOut chains fun _ => none :=
  ⟨h.path, fun hs => by simp at hs, h.apart⟩

theorem nodup (h : t.Arranged chains) (i : Nat) : (chains i).Nodup := (h.path i).nodup

theorem live (h : t.Arranged chains) (hid : id ∈ chains i) : ∃ e, t.arena.get? id = some e :=
  h.laidOut.live hid

theorem not_mem (h : t.Arranged chains) (hid : t.arena.get? id = none) (i : Nat) :
    id ∉ chains i := by
  intro hmem
  obtain ⟨e, he⟩ := h.live hmem
  simp [hid] at he

theorem lt_size (h : t.Arranged chains) (hid : id ∈ chains i) : i < t.size := h.laidOut.lt_size hid

theorem head (h : t.Arranged chains) (i : Nat) : t.head i = (chains i).head? := (h.path i).head?

theorem walk (h : t.Arranged chains) (i : Nat) :
    (t.walk i).ending = .closed ∧ (t.walk i).ids = chains i := h.laidOut.walk i

theorem walks (h : t.Arranged chains) : t.Arranged fun i => (t.walk i).ids := by
  have hw : (fun i => (t.walk i).ids) = chains := by
    funext i
    exact (h.walk i).2
  rwa [hw]

theorem traversal_eq (h : t.Arranged chains) :
    t.traversal = ⟨(List.range t.size).flatMap fun i => (t.walk i).visited, .closed⟩ := by
  have hf := Walk.flatten_closed ((List.range t.size).map t.walk) fun w hw => by
    obtain ⟨i, -, rfl⟩ := List.mem_map.mp hw
    exact (h.walk i).1
  rw [List.flatMap_map] at hf
  rw [← hf, traversal_flatten]

theorem traversal_ids (h : t.Arranged chains) :
    t.traversal.ids = (List.range t.size).flatMap chains := by
  have hids : ∀ i, (t.walk i).visited.map Prod.fst = chains i := fun i => (h.walk i).2
  simp [h.traversal_eq, Walk.ids, List.map_flatMap, hids]

theorem get?_of_mem_traversal (h : t.Arranged chains) {x : Linked α}
    (hx : x ∈ t.traversal.visited) : t.arena.get? x.1 = some x.2 := by
  rw [h.traversal_eq] at hx
  obtain ⟨i, -, hx⟩ := List.mem_flatMap.mp hx
  exact Arena.get?_of_mem_walk hx

theorem firstMeeting (h : t.Arranged chains) (id : EntryId) (is : List Nat) :
    t.firstMeeting id is = .ok (is.find? fun i => id ∈ chains i) := by
  induction is with
  | nil => rfl
  | cons i is ih =>
    obtain ⟨hend, hids⟩ := h.walk i
    by_cases hid : id ∈ chains i
    · simp [Table.firstMeeting, Walk.meets, hids, hid]
    · simp [Table.firstMeeting, Walk.meets, hids, hid, hend, Ending.check, Except.map, ih]

/-- Nothing is read of the arena but the links of linked entries. -/
theorem congr (h : t.Arranged chains) (hhead : ∀ i, u.head i = t.head i)
    (hlink : ∀ i, ∀ id ∈ chains i, u.arena.link id = t.arena.link id) : u.Arranged chains where
  path i := by
    rw [hhead i]
    exact (h.path i).congr (hlink i)
  apart := h.apart

theorem prepend (h : t.Arranged chains) (hi : i < t.size) (hid : t.arena.get? id = some e)
    (hloose : ∀ k, id ∉ chains k) :
    (t.prepend i id e).Arranged (Function.update chains i (id :: chains i)) where
  path k := by
    have hold : Path (t.prepend i id e).arena.link (t.head k) (chains k) none := by
      refine (h.path k).congr fun j hj => ?_
      have hne : j ≠ id := fun he => hloose k (he ▸ hj)
      rw [link_prepend i hid, if_neg hne]
    rw [head_prepend hi]
    by_cases hk : k = i
    · subst hk
      rw [Function.update_self, if_pos rfl]
      exact ⟨rfl, t.head k, by simp [link_prepend k hid], hold⟩
    · rw [Function.update_of_ne hk, if_neg hk]
      exact hold
  apart := by
    intro k l j hk hl
    simp only [Function.update_apply] at hk hl
    by_cases hj : j = id
    · subst hj
      have := hloose k
      have := hloose l
      split at hk <;> split at hl <;> simp_all
    · have hk' : j ∈ chains k := by split at hk <;> simp_all
      have hl' : j ∈ chains l := by split at hl <;> simp_all
      exact h.apart hk' hl'

end Arranged

end Table

end ChainedTable
