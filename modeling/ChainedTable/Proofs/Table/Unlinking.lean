import ChainedTable.Proofs.Table.Arrangement

set_option autoImplicit false

namespace ChainedTable

variable {α : Type} {t u : Table α} {chains : Nat → List EntryId} {id p : EntryId} {e : Entry α}
  {stops : Nat → Option EntryId} {i : Nat} {ids xs ys : List EntryId} {d next : Option EntryId}

namespace Table

/-- `u` is `t` with `id`, which led on to `next`, taken out of chain `i` behind `xs`: the id ahead of
it, or the head of the chain, leads on to `next` instead. -/
structure Spliced (t u : Table α) (i : Nat) (xs : List EntryId) (id : EntryId)
    (next : Option EntryId) : Prop where
  relinked : Relinked t u
  size : u.size = t.size
  was : t.arena.link id = some next
  cut : u.arena.link id = some none
  head : ∀ k, u.head k = if k = i ∧ xs = [] then next else t.head k
  link : ∀ j, j ≠ id →
    u.arena.link j = if xs.getLast? = some j then some next else t.arena.link j

theorem spliced_head (hi : i < t.size) (he : t.arena.get? id = some e) :
    t.Spliced ((t.setHead i e.next).redirect id none) i [] id e.next := by
  have he' : (t.setHead i e.next).arena.get? id = some e := he
  constructor
  case relinked => exact (relinked_setHead t i e.next).trans (relinked_redirect _ id none)
  case size => simp
  case was => exact Arena.link_of_get? he
  case cut => rw [link_redirect none he', if_pos rfl]
  case head =>
    intro k
    rw [head_redirect]
    by_cases hk : k = i
    · subst hk
      simp [head_setHead_self _ hi]
    · simp [head_setHead_other _ hk, hk]
  case link =>
    intro j hj
    rw [link_redirect none he', if_neg hj]
    simp

theorem spliced_behind {ep : Entry α} (xs : List EntryId) (hp : t.arena.get? p = some ep)
    (he : t.arena.get? id = some e) (hne : p ≠ id) :
    t.Spliced ((t.redirect p e.next).redirect id none) i (xs ++ [p]) id e.next := by
  have he' : (t.redirect p e.next).arena.get? id = some e := by
    rw [redirect_live _ hp, arena_store, Arena.get?_store_other _ (Ne.symm hne), he]
  constructor
  case relinked => exact (relinked_redirect t p e.next).trans (relinked_redirect _ id none)
  case size => simp
  case was => exact Arena.link_of_get? he
  case cut => rw [link_redirect none he', if_pos rfl]
  case head => simp
  case link =>
    intro j hj
    rw [link_redirect none he', if_neg hj, link_redirect e.next hp]
    simp [eq_comm]

theorem Spliced.path (h : t.Spliced u i xs id next)
    (hp : Path t.arena.link (t.head i) (xs ++ id :: ys) none) :
    Path u.arena.link (u.head i) (xs ++ ys) none := by
  have hlink := h.link
  have hnext : next = ys.head? := Option.some.inj (h.was.symm.trans hp.link_of_append)
  rcases List.eq_nil_or_concat xs with rfl | ⟨xs, p, rfl⟩
  · have hnot : id ∉ ys := (List.nodup_cons.mp hp.nodup).1
    obtain ⟨-, n, hn, hrest⟩ := hp
    obtain rfl : ys.head? = n := hrest.head?.symm
    rw [h.head i, if_pos ⟨rfl, rfl⟩, hnext]
    refine hrest.congr fun j hj => ?_
    rw [hlink j fun hje => hnot (hje ▸ hj)]
    simp
  · rw [List.concat_eq_append] at hp hlink ⊢
    rw [List.append_assoc, List.singleton_append] at hp ⊢
    have hhead : u.head i = t.head i := by simp [h.head i]
    have hne : p ≠ id := by
      rintro rfl
      simpa [List.nodup_append] using hp.nodup
    rw [hhead]
    refine hp.skip ?_ fun q hq hqid => ?_
    · rw [hlink p hne, h.was]
      simp
    · rw [hlink q hqid]
      simp [Ne.symm hq]

theorem Spliced.path_other {k : Nat} (h : t.Spliced u i xs id next) (hk : k ≠ i)
    (hp : Path t.arena.link (t.head k) ids none) (hid : id ∉ ids) (hxs : ∀ j ∈ xs, j ∉ ids) :
    Path u.arena.link (u.head k) ids none := by
  rw [h.head k, if_neg fun hki => hk hki.1]
  refine hp.congr fun j hj => ?_
  rw [h.link j fun hje => hid (hje ▸ hj), if_neg]
  intro hlast
  exact hxs j (List.mem_of_getLast? hlast) hj

theorem predecessor?_walk (hp : Path t.arena.link (t.head i) ids d)
    (hd : d.bind t.arena.link = none) (id : EntryId) :
    (t.walk i).predecessor? id =
      match ids.find? fun q => t.arena.link q = some (some id) with
      | some p => .ok (some p)
      | none => (Ending.ofStop d).check.map fun _ => none := by
  obtain ⟨hend, hids⟩ := walk_of_path hp hd
  rw [← hend, ← hids]
  exact Arena.predecessor?_eq t.arena t.walkBound (t.head i) id

/-- Asked of a chain that holds the id, unlinking takes it out, also where the chain breaks off
behind it. -/
theorem unlink_of_mem (hp : Path t.arena.link (t.head i) ids d) (hd : d.bind t.arena.link = none)
    (hid : id ∈ ids) :
    ∃ u xs ys next, t.unlink i id = .ok true u ∧ ids = xs ++ id :: ys ∧
      t.Spliced u i xs id next := by
  have hi : i < t.size := lt_size_of_path hp hd (List.ne_nil_of_mem hid)
  have hindex := checkIndex_of_lt hi
  obtain ⟨e, he⟩ := live_of_path hp hid
  by_cases hhead : t.head i = some id
  · obtain ⟨ys, rfl⟩ : ∃ ys, ids = id :: ys := by
      cases ids with
      | nil => simp at hid
      | cons j ys => exact ⟨ys, by rw [Option.some.inj (hp.1.symm.trans hhead)]⟩
    exact ⟨_, [], ys, e.next, by simp [unlink, he, hindex, hhead], rfl, spliced_head hi he⟩
  · obtain ⟨xs, p, ys, rfl, hfind⟩ := hp.predecessor hid hhead
    have hmem : p ∈ xs ++ p :: id :: ys := by simp
    obtain ⟨ep, hep⟩ := live_of_path hp hmem
    have hne : p ≠ id := by
      rintro rfl
      simpa [List.nodup_append] using hp.nodup_of_stop hd
    exact ⟨_, xs ++ [p], ys, e.next,
      by simp [unlink, he, hindex, hhead, predecessor?_walk hp hd, hfind], by simp,
      spliced_behind xs hep he hne⟩

theorem unlink_of_not_mem (hi : i < t.size) (hp : Path t.arena.link (t.head i) ids d)
    (hd : d.bind t.arena.link = none) (he : t.arena.get? id = some e) (hid : id ∉ ids) :
    t.unlink i id = .ofExcept ((Ending.ofStop d).check.map fun _ => false) t := by
  have hstop : d ≠ some id := by
    rintro rfl
    simp [Arena.link_of_get? he] at hd
  obtain ⟨hhead, hfind⟩ := hp.no_predecessor hid hstop
  simp only [unlink, he, checkIndex_of_lt hi, hhead, ↓reduceIte, predecessor?_walk hp hd, hfind]
  cases (Ending.ofStop d).check <;> rfl

theorem Arranged.update_erase (h : t.Arranged chains) (hid : id ∈ chains i) :
    Function.update chains i ((chains i).erase id) =
      fun k => (chains k).filter fun j => j ≠ id := by
  funext k
  by_cases hk : k = i
  · subst hk
    rw [Function.update_self, (h.nodup k).erase_eq_filter]
    exact List.filter_congr fun j _ => by by_cases hj : j = id <;> simp [hj]
  · rw [Function.update_of_ne hk, List.filter_eq_self.mpr]
    intro j hj
    simpa using fun hje : j = id => hk (h.apart (hje ▸ hj) hid)

theorem Arranged.spliced (h : t.Arranged chains) (hchain : chains i = xs ++ id :: ys)
    (hs : t.Spliced u i xs id next) :
    u.Arranged (Function.update chains i ((chains i).erase id)) where
  path k := by
    have hnd := h.nodup i
    rw [hchain, List.nodup_append] at hnd
    by_cases hk : k = i
    · subst hk
      have hxid : id ∉ xs := fun hx => hnd.2.2 id hx id (by simp) rfl
      have hp := h.path k
      rw [hchain] at hp
      rw [Function.update_self, hchain, List.erase_append_right _ hxid, List.erase_cons_head]
      exact hs.path hp
    · have hoff : ∀ j ∈ chains i, j ∉ chains k := fun j hj hjk => hk (h.apart hjk hj)
      rw [Function.update_of_ne hk]
      exact hs.path_other hk (h.path k) (hoff id (by simp [hchain]))
        fun j hj => hoff j (by simp [hchain, hj])
  apart := by
    intro k l j hk hl
    rw [h.update_erase (by simp [hchain] : id ∈ chains i)] at hk hl
    exact h.apart (List.mem_of_mem_filter hk) (List.mem_of_mem_filter hl)

theorem Arranged.unlink_mem (h : t.Arranged chains) (hid : id ∈ chains i) :
    ∃ u, t.unlink i id = .ok true u ∧ Relinked t u ∧ u.size = t.size ∧
      u.Arranged (Function.update chains i ((chains i).erase id)) := by
  obtain ⟨u, xs, ys, next, hu, hchain, hs⟩ := unlink_of_mem (h.path i) rfl hid
  exact ⟨u, hu, hs.relinked, hs.size, h.spliced hchain hs⟩

theorem Arranged.unlink_not_mem (h : t.Arranged chains) (hi : i < t.size)
    (he : t.arena.get? id = some e) (hid : id ∉ chains i) : t.unlink i id = .ok false t :=
  unlink_of_not_mem hi (h.path i) rfl he hid

theorem LaidOut.unlink_mem (h : t.LaidOut chains stops) (hid : id ∈ chains i) :
    ∃ u, t.unlink i id = .ok true u := by
  obtain ⟨u, xs, ys, next, hu, -⟩ := unlink_of_mem (h.path i) (h.stop i) hid
  exact ⟨u, hu⟩

theorem LaidOut.unlink_not_mem (h : t.LaidOut chains stops) (hi : i < t.size)
    (he : t.arena.get? id = some e) (hid : id ∉ chains i) :
    t.unlink i id = .ofExcept ((t.walk i).ending.check.map fun _ => false) t := by
  rw [(h.walk i).1]
  exact unlink_of_not_mem hi (h.path i) (h.stop i) he hid

end Table

end ChainedTable
