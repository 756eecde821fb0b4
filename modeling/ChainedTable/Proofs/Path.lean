import ChainedTable.Entry.Id
import Mathlib.Data.List.Nodup

set_option autoImplicit false

/-!
Paths along links. Links give every id that is a cell the id that its cell points at, or none at
the last cell; an id that is no cell has no link at all. A path lists the cells that are met from a
cursor on.

A chain of a table and the free list of an arena are paths that end at `none`, or, where an entry
was freed while it was linked, at an id that is no cell. Such a path is determined by its cursor, so
it meets no cell twice.
-/

namespace ChainedTable

abbrev Links := EntryId → Option (Option EntryId)

/-- From `cursor` on, exactly the cells `ids` are met before `stop` is pointed at. -/
def Path (f : Links) : Option EntryId → List EntryId → Option EntryId → Prop
  | cursor, [], stop => cursor = stop
  | cursor, id :: rest, stop =>
    cursor = some id ∧ ∃ next, f id = some next ∧ Path f next rest stop

variable {f g : Links} {c d d' : Option EntryId} {id p q : EntryId} {ids xs ys : List EntryId}

@[simp] theorem Path.nil : Path f c [] d ↔ c = d := Iff.rfl

@[simp] theorem Path.cons :
    Path f c (id :: ids) d ↔ c = some id ∧ ∃ next, f id = some next ∧ Path f next ids d := Iff.rfl

theorem Path.append : Path f c (xs ++ ys) d ↔ ∃ m, Path f c xs m ∧ Path f m ys d := by
  induction xs generalizing c with
  | nil => simp
  | cons x xs ih =>
    simp only [List.cons_append, cons, ih]
    constructor
    · intro ⟨hc, n, hn, m, hx, hy⟩
      exact ⟨m, ⟨hc, n, hn, hx⟩, hy⟩
    · intro ⟨m, ⟨hc, n, hn, hx⟩, hy⟩
      exact ⟨hc, n, hn, m, hx, hy⟩

theorem Path.congr (h : Path f c ids d) (hfg : ∀ id ∈ ids, g id = f id) : Path g c ids d := by
  induction ids generalizing c with
  | nil => exact h
  | cons id ids ih =>
    obtain ⟨hc, n, hn, hr⟩ := h
    have hid : g id = some n := (hfg id (by simp)).trans hn
    exact ⟨hc, n, hid, ih hr fun i hi => hfg i (by simp [hi])⟩

theorem Path.isSome (h : Path f c ids d) (hid : id ∈ ids) : (f id).isSome := by
  induction ids generalizing c with
  | nil => simp at hid
  | cons i ids ih =>
    obtain ⟨-, n, hn, hr⟩ := h
    rcases List.mem_cons.mp hid with rfl | hid
    · simp [hn]
    · exact ih hr hid

theorem Path.head? (h : Path f c ids none) : c = ids.head? := by
  cases ids with
  | nil => exact h
  | cons id ids => exact h.1

theorem Path.unique (hx : Path f c xs d) (hy : Path f c ys d') (hd : d.bind f = none)
    (hd' : d'.bind f = none) : xs = ys := by
  induction xs generalizing c ys with
  | nil =>
    obtain rfl := hx
    cases ys with
    | nil => rfl
    | cons y ys =>
      obtain ⟨rfl, m, hm, -⟩ := hy
      simp [hm] at hd
  | cons x xs ih =>
    obtain ⟨rfl, n, hn, hr⟩ := hx
    cases ys with
    | nil =>
      obtain rfl := hy
      simp [hn] at hd'
    | cons y ys =>
      obtain ⟨hc, m, hm, hs⟩ := hy
      obtain rfl := Option.some.inj hc
      obtain rfl := Option.some.inj (hn.symm.trans hm)
      rw [ih hr hs]

/-- A cell met twice would have two tails of different lengths. -/
theorem Path.nodup_of_stop (h : Path f c ids d) (hd : d.bind f = none) : ids.Nodup := by
  induction ids generalizing c with
  | nil => exact List.nodup_nil
  | cons id ids ih =>
    have hself : Path f (some id) (id :: ids) d := by simpa [h.1] using h
    obtain ⟨-, n, -, hr⟩ := h
    refine List.nodup_cons.mpr ⟨fun hmem => ?_, ih hr⟩
    obtain ⟨xs, ys, rfl⟩ := List.append_of_mem hmem
    -- both `id :: ids` and `id :: ys` are then the path from `id`
    obtain ⟨m, -, hy⟩ := append.mp hr
    have hm : m = some id := hy.1
    have hlen := congrArg List.length (hself.unique (hm ▸ hy) hd hd)
    simp at hlen
    omega

theorem Path.nodup (h : Path f c ids none) : ids.Nodup := h.nodup_of_stop rfl

theorem Path.link_of_append (h : Path f c (xs ++ id :: ys) none) : f id = some ys.head? := by
  obtain ⟨m, -, -, n, hn, hy⟩ := append.mp h
  rw [hn, hy.head?]

theorem Path.mem_of_link (h : Path f c ids d) (hp : p ∈ ids) (hlink : f p = some (some id))
    (hd : d ≠ some id) : id ∈ ids := by
  obtain ⟨xs, ys, rfl⟩ := List.append_of_mem hp
  obtain ⟨m, -, -, n, hn, hy⟩ := append.mp h
  obtain rfl : some id = n := Option.some.inj (hlink.symm.trans hn)
  cases ys with
  | nil => exact absurd hy.symm hd
  | cons y ys =>
    obtain rfl := Option.some.inj hy.1
    simp

theorem Path.predecessor (h : Path f c ids d) (hid : id ∈ ids) (hc : c ≠ some id) :
    ∃ xs p ys, ids = xs ++ p :: id :: ys ∧ ids.find? (fun q => f q = some (some id)) = some p := by
  induction ids generalizing c with
  | nil => simp at hid
  | cons i ids ih =>
    obtain ⟨rfl, n, hn, hr⟩ := h
    have hid : id ∈ ids := by
      rcases List.mem_cons.mp hid with rfl | hid
      · exact absurd rfl hc
      · exact hid
    by_cases hni : n = some id
    · subst hni
      obtain ⟨ys, rfl⟩ : ∃ ys, ids = id :: ys := by
        cases ids with
        | nil => simp at hid
        | cons j ids =>
          obtain rfl := Option.some.inj hr.1
          exact ⟨ids, rfl⟩
      exact ⟨[], i, ys, rfl, by simp [hn]⟩
    · obtain ⟨xs, p, ys, rfl, hf⟩ := ih hr hid hni
      have hi : f i ≠ some (some id) := by simpa [hn] using hni
      exact ⟨i :: xs, p, ys, rfl, by rw [List.find?_cons_of_neg (by simpa using hi), hf]⟩

/-- Where some cells are cells no more, the path breaks off at the first of them. -/
theorem Path.takeWhile (h : Path f c ids none) (keep : EntryId → Bool)
    (hfg : ∀ id ∈ ids, keep id → g id = f id) :
    Path g c (ids.takeWhile keep) (ids.find? fun id => !keep id) := by
  induction ids generalizing c with
  | nil => exact h
  | cons id ids ih =>
    obtain ⟨rfl, n, hn, hr⟩ := h
    cases hk : keep id with
    | true =>
      have hrest := ih hr fun i hi => hfg i (by simp [hi])
      have hid : g id = some n := (hfg id (by simp) hk).trans hn
      rw [List.takeWhile_cons_of_pos hk, List.find?_cons_of_neg (by simp [hk])]
      exact ⟨rfl, n, hid, hrest⟩
    | false =>
      rw [List.takeWhile_cons_of_neg (by simp [hk]), List.find?_cons_of_pos (by simp [hk])]
      exact rfl

theorem Path.no_predecessor (h : Path f c ids d) (hid : id ∉ ids) (hd : d ≠ some id) :
    c ≠ some id ∧ ids.find? (fun q => f q = some (some id)) = none := by
  constructor
  · rintro rfl
    cases ids with
    | nil => exact hd h.symm
    | cons i ids =>
      obtain rfl := Option.some.inj h.1
      simp at hid
  · rw [List.find?_eq_none]
    intro p hp hlink
    exact hid (h.mem_of_link hp (by simpa using hlink) hd)

/-- Pointing the cell ahead of `id` past `id` takes `id` out of the path. -/
theorem Path.skip (h : Path f c (xs ++ p :: id :: ys) none) (hp : g p = f id)
    (hfg : ∀ q, q ≠ p → q ≠ id → g q = f q) : Path g c (xs ++ p :: ys) none := by
  have hnd := h.nodup
  simp only [List.nodup_append, List.nodup_cons, List.mem_cons, not_or] at hnd
  obtain ⟨-, ⟨⟨-, hpy⟩, hiy, -⟩, hdisj⟩ := hnd
  obtain ⟨m, hx, hm, n, -, -, k, hk, hy⟩ := append.mp h
  have hxs : ∀ q ∈ xs, g q = f q := fun q hq =>
    hfg q (hdisj q hq p (.inl rfl)) (hdisj q hq id (.inr (.inl rfl)))
  have hys : ∀ q ∈ ys, g q = f q := fun q hq =>
    hfg q (fun he => hpy (he ▸ hq)) (fun he => hiy (he ▸ hq))
  exact append.mpr ⟨m, hx.congr hxs, hm, k, hp.trans hk, hy.congr hys⟩

theorem Path.turn {n : Option EntryId} (h : Path f c (xs ++ [p]) d) (hp : g p = some n)
    (hfg : ∀ q ∈ xs, g q = f q) : Path g c (xs ++ [p]) n := by
  obtain ⟨m, hx, rfl, -⟩ := append.mp h
  exact append.mpr ⟨some p, hx.congr hfg, rfl, n, hp, rfl⟩

/-- Pointing `id` at the cells behind it, and the cell ahead of it at `id`, puts `id` into the
path. -/
theorem Path.put (h : Path f c (xs ++ ys) none) (hid : id ∉ xs ++ ys)
    (hg : ∀ j, g j = if j = id then some ys.head?
      else if xs.getLast? = some j then some (some id) else f j) :
    Path g (if xs = [] then some id else c) (xs ++ id :: ys) none := by
  have hnd := List.nodup_append.mp h.nodup
  obtain ⟨m, hx, hy⟩ := append.mp h
  obtain rfl := hy.head?
  have hkept : ∀ q ∈ xs ++ ys, xs.getLast? ≠ some q → g q = f q := fun q hq hlast => by
    have hne : q ≠ id := fun he => hid (he ▸ hq)
    rw [hg, if_neg hne, if_neg hlast]
  have hrest : Path g (some id) (id :: ys) none := by
    refine ⟨rfl, ys.head?, by rw [hg, if_pos rfl], hy.congr fun q hq => ?_⟩
    refine hkept q (List.mem_append_right _ hq) fun hlast => ?_
    exact hnd.2.2 q (List.mem_of_getLast? hlast) q hq rfl
  rcases List.eq_nil_or_concat xs with rfl | ⟨zs, p, rfl⟩
  · exact hrest
  · rw [List.concat_eq_append] at hid hg hx hnd hkept ⊢
    rw [if_neg (by simp)]
    have hp : g p = some (some id) := by
      have hne : p ≠ id := fun he => hid (by simp [he])
      rw [hg, if_neg hne, if_pos (by simp)]
    have hzs : ∀ q ∈ zs, g q = f q := fun q hq => by
      have hpq : q ≠ p := (List.nodup_append.mp hnd.1).2.2 q hq p (by simp)
      exact hkept q (by simp [hq]) (by simpa using Ne.symm hpq)
    exact append.mpr ⟨some id, hx.turn hp hzs, hrest⟩

end ChainedTable
