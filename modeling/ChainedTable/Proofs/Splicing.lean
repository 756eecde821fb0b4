import ChainedTable.Literal
import ChainedTable.Proofs.Table.Unlinking
import ChainedTable.Table.Call

set_option autoImplicit false

namespace ChainedTable

variable {α : Type}

namespace Table

variable {t u : Table α} {i : Nat} {id : EntryId} {e : Entry α} {ids : List EntryId}

/-- What taking `id` out of chain `i` makes of a table, where that chain was `xs`, `id` and `ys`. -/
structure TakenOut (t u : Table α) (i : Nat) (xs : List EntryId) (id : EntryId)
    (ys : List EntryId) : Prop where
  chain : (u.walk i).ending = .closed ∧ (u.walk i).ids = xs ++ ys
  loose : ∃ e, u.arena.get? id = some e ∧ e.next = none
  /-- Only the last entry ahead of `id` may have another link. -/
  entry : ∀ j, j ≠ id → xs.getLast? ≠ some j → u.arena.get? j = t.arena.get? j
  /-- Only the head of chain `i` may be another one, if `id` was the head. -/
  head : ∀ k, ¬ (k = i ∧ xs = []) → u.head k = t.head k
  size : u.size = t.size
  relinked : Relinked t u
  freeList : u.arena.freeList = t.arena.freeList

theorem Spliced.takenOut {xs ys : List EntryId} {next : Option EntryId}
    (h : t.Spliced u i xs id next) (hp : Path t.arena.link (t.head i) (xs ++ id :: ys) none) :
    t.TakenOut u i xs id ys where
  chain := walk_of_path (h.path hp) rfl
  loose := Arena.link_eq_some.mp h.cut
  entry := by
    intro j hj hlast
    apply h.relinked.arena.get?_eq
    rw [h.link j hj, if_neg hlast]
  head := by
    intro k hk
    rw [h.head k, if_neg hk]
  size := h.size
  relinked := h.relinked
  freeList := h.relinked.arena.freeList

/-- Asked of a chain that ends, unlinking a live entry answers whether the chain holds it. If it
does, the entry is taken out of it; if not, nothing changes. -/
theorem unlink_takes_out (hi : i < t.size) (hp : Path t.arena.link (t.head i) ids none)
    (he : t.arena.get? id = some e) :
    ∃ u, t.unlink i id = .ok (decide (id ∈ ids)) u ∧ (id ∉ ids → u = t) ∧
      (id ∈ ids → ∃ xs ys, ids = xs ++ id :: ys ∧ t.TakenOut u i xs id ys) := by
  by_cases hid : id ∈ ids
  · obtain ⟨u, xs, ys, next, hu, rfl, hs⟩ := unlink_of_mem hp rfl hid
    exact ⟨u, by rw [hu, decide_eq_true hid], fun hno => absurd hid hno,
      fun _ => ⟨xs, ys, rfl, hs.takenOut hp⟩⟩
  · have hu : t.unlink i id = .ok false t := unlink_of_not_mem hi hp rfl he hid
    exact ⟨t, by rw [hu, decide_eq_false hid], fun _ => rfl, fun hyes => absurd hyes hid⟩

theorem unlink_takes_out_behind_shared :
    ∃ (_ : Memory) (t : Table UInt32) (a b c s : EntryId) (cs : List (Call UInt32)),
      create 2 .symbol = .ok t ∧
      cs = [.newEntry 2 20, .newEntry 4 40, .newSharedEntry 6 60, .newEntry 1 10, .addEntry 0 a,
        .addEntry 0 b, .addEntry 0 s, .addEntry 1 c, .setNext c (some c)] ∧
      ((t.run cs).walk 0).ids = [s, b, a] ∧ ((t.run cs).walk 1).ending = .unfinished ∧
      (∃ u xs ys, (t.run cs).unlink 0 b = .ok true u ∧ [s, b, a] = xs ++ b :: ys ∧
        (t.run cs).TakenOut u 0 xs b ys) ∧
      (t.run cs).unlink 0 c = .ok false (t.run cs) := by
  let mem : Memory := .below 100 (by decide)
  let a : EntryId := .ofIndex 0 (by decide)
  let b : EntryId := .ofIndex 1 (by decide)
  let s : EntryId := .ofIndex 2 (by decide)
  let c : EntryId := .ofIndex 3 (by decide)
  let cs : List (Call UInt32) :=
    [.newEntry 2 20, .newEntry 4 40, .newSharedEntry 6 60, .newEntry 1 10, .addEntry 0 a,
      .addEntry 0 b, .addEntry 0 s, .addEntry 1 c, .setNext c (some c)]
  let t : Table UInt32 := ⟨emptyBuckets 2, 0, .empty, .symbol, .zero, by decide⟩
  have hids : ((t.run cs).walk 0).ids = [s, b, a] := by decide +kernel
  have hp : Path (t.run cs).arena.link ((t.run cs).head 0) [s, b, a] none :=
    path_of_closed (by decide +kernel) hids
  obtain ⟨eb, heb⟩ : ∃ e, (t.run cs).arena.get? b = some e :=
    Option.isSome_iff_exists.mp (by decide +kernel)
  obtain ⟨ec, hec⟩ : ∃ e, (t.run cs).arena.get? c = some e :=
    Option.isSome_iff_exists.mp (by decide +kernel)
  obtain ⟨u, hu, -, hout⟩ := unlink_takes_out (by decide +kernel) hp heb
  obtain ⟨v, hv, hsame, -⟩ := unlink_takes_out (by decide +kernel) hp hec
  rw [hsame (by decide)] at hv
  obtain ⟨xs, ys, hsplit, htaken⟩ := hout (by decide)
  exact ⟨mem, t, a, b, c, s, cs, rfl, rfl, hids, by decide +kernel,
    ⟨u, xs, ys, hu, hsplit, htaken⟩, hv⟩

end Table

end ChainedTable
