import ChainedTable.Proofs.Table.Turnover
import ChainedTable.Proofs.Verification

set_option autoImplicit false

namespace ChainedTable

variable {α : Type}

namespace Table

/-- Puts `id` into chain `index`, between `ahead`, or the head of the chain, and `behind`. -/
def linkBetween (t : Table α) (index : Nat) (ahead : Option EntryId) (id : EntryId)
    (behind : Option EntryId) : Outcome (Table α) Unit :=
  (t.setNext id behind).bind fun _ t =>
    (match ahead with
      | none => t.setBucket index (some id)
      | some p => t.setNext p (some id)).bind fun _ t => t.increment

/-- `u` is `t` with `id` between `ahead` and `behind`, as its links say. -/
structure Joined (t u : Table α) (i : Nat) (ahead : Option EntryId) (id : EntryId)
    (behind : Option EntryId) : Prop where
  relinked : Relinked t u
  size : u.size = t.size
  head : ∀ k, u.head k = if k = i ∧ ahead = none then some id else t.head k
  link : ∀ j, u.arena.link j = if j = id then some behind
    else if ahead = some j then some (some id) else t.arena.link j

structure LinkedIn (t u : Table α) (i : Nat) (xs : List EntryId) (id : EntryId)
    (ys : List EntryId) : Prop where
  chain : (u.walk i).ending = .closed ∧ (u.walk i).ids = xs ++ [id] ++ ys
  others : ∀ k, k ≠ i → u.walk k = t.walk k ∧ u.head k = t.head k
  /-- Only the last entry ahead of `id` may have another link. -/
  entry : ∀ j, j ≠ id → xs.getLast? ≠ some j → u.arena.get? j = t.arena.get? j
  content : ∀ j, (u.arena.get? j).map Entry.content = (t.arena.get? j).map Entry.content
  size : u.size = t.size
  relinked : Relinked t.tallied u
  freeList : u.arena.freeList = t.arena.freeList
  count : u.count = t.count + 1
  traffic : u.traffic = ⟨t.traffic.added + 1, t.traffic.removed⟩

variable {t u v : Table α} {chains : Nat → List EntryId} {id j p : EntryId} {e ep : Entry α}
  {i k : Nat} {xs ys zs : List EntryId} {ahead behind : Option EntryId}

theorem setNext_live (n : Option EntryId) (he : t.arena.get? id = some e) :
    t.setNext id n = .ok () (t.redirect id n) := by
  simp [setNext, onArena_eq, Arena.update_live he, redirect_live n he, store]

theorem setBucket_ok (h : Option EntryId) (hi : i < t.size) :
    t.setBucket i h = .ok () (t.setHead i h) := by
  simp [setBucket, checkIndex_of_lt hi]

theorem linkBetween_front (hi : i < t.size) (he : t.arena.get? id = some e) :
    t.linkBetween i none id (t.head i) = t.addEntry i id := by
  have hstore : i < (t.store id (e.redirect (t.head i))).size := hi
  simp only [linkBetween, setNext_live _ he, redirect_live _ he, Outcome.bind_ok,
    setBucket_ok _ hstore, addEntry, checkIndex_of_lt hi, he, prepend]

theorem joined_head (behind : Option EntryId) (hi : i < t.size) (he : t.arena.get? id = some e) :
    t.Joined ((t.redirect id behind).setHead i (some id)) i none id behind where
  relinked := (relinked_redirect t id behind).trans (relinked_setHead _ i (some id))
  size := by simp
  head := by
    intro k
    have hlt : i < (t.redirect id behind).size := by simpa using hi
    by_cases hk : k = i
    · subst hk
      simp [head_setHead_self _ hlt]
    · simp [head_setHead_other _ hk, hk]
  link := by
    intro j
    rw [arena_setHead, link_redirect behind he]
    simp

theorem joined_behind (i : Nat) (behind : Option EntryId) (hp : t.arena.get? p = some ep)
    (he : t.arena.get? id = some e) (hne : p ≠ id) :
    t.Joined ((t.redirect id behind).redirect p (some id)) i (some p) id behind where
  relinked := (relinked_redirect t id behind).trans (relinked_redirect _ p (some id))
  size := by simp
  head := by simp
  link := by
    intro j
    have hp' : (t.redirect id behind).arena.get? p = some ep := by
      rw [redirect_live _ he, arena_store, Arena.get?_store_other _ hne, hp]
    rw [link_redirect (some id) hp', link_redirect behind he]
    by_cases hj : j = id
    · simp [hj, Ne.symm hne]
    · simp [hj, eq_comm]

/-- A caller that names live entries is not refused, in whatever shape the chains are. -/
theorem linkBetween_ok (behind : Option EntryId) (hi : i < t.size) (he : t.arena.get? id = some e)
    (hahead : ∀ p, ahead = some p → p ≠ id ∧ ∃ ep, t.arena.get? p = some ep)
    (hcount : t.count + 1 < wordLimit) (hroom : t.traffic.added + 1 < wordLimit) :
    ∃ u, t.linkBetween i ahead id behind = .ok () u.tallied ∧ t.Joined u i ahead id behind := by
  cases ahead with
  | none =>
    have hjoined := joined_head behind hi he
    have hlt : i < (t.redirect id behind).size := by simpa using hi
    refine ⟨_, ?_, hjoined⟩
    simp only [linkBetween, setNext_live _ he, Outcome.bind_ok, setBucket_ok _ hlt]
    exact increment_ok (by rwa [hjoined.relinked.count]) (by rwa [hjoined.relinked.traffic])
  | some p =>
    obtain ⟨hne, ep, hp⟩ := hahead p rfl
    have hjoined := joined_behind i behind hp he hne
    have hp' : (t.redirect id behind).arena.get? p = some ep := by
      rw [redirect_live _ he, arena_store, Arena.get?_store_other _ hne, hp]
    refine ⟨_, ?_, hjoined⟩
    simp only [linkBetween, setNext_live _ he, Outcome.bind_ok, setNext_live _ hp']
    exact increment_ok (by rwa [hjoined.relinked.count]) (by rwa [hjoined.relinked.traffic])

theorem Joined.path (h : t.Joined u i xs.getLast? id ys.head?)
    (hp : Path t.arena.link (t.head i) (xs ++ ys) none) (hid : id ∉ xs ++ ys) :
    Path u.arena.link (u.head i) (xs ++ id :: ys) none := by
  have hput := hp.put hid h.link
  rw [h.head i]
  simpa using hput

theorem Joined.path_other (h : t.Joined u i ahead id behind) (hk : k ≠ i)
    (hp : Path t.arena.link (t.head k) zs none) (hid : id ∉ zs)
    (hahead : ∀ p, ahead = some p → p ∉ zs) : Path u.arena.link (u.head k) zs none := by
  rw [h.head k, if_neg fun hki => hk hki.1]
  refine hp.congr fun j hj => ?_
  have hne : j ≠ id := fun he => hid (he ▸ hj)
  rw [h.link j, if_neg hne, if_neg fun he => hahead j he hj]

theorem mem_of_ahead (hchain : chains i = xs ++ ys) (hlast : xs.getLast? = some p) :
    p ∈ chains i := by
  rw [hchain]
  exact List.mem_append_left _ (List.mem_of_getLast? hlast)

theorem mem_update_put (hchain : chains i = xs ++ ys) :
    j ∈ Function.update chains i (xs ++ id :: ys) k ↔ j ∈ chains k ∨ (k = i ∧ j = id) := by
  rw [Function.update_apply]
  split
  · rename_i hk
    subst hk
    simp only [hchain, List.mem_append, List.mem_cons]
    tauto
  · rename_i hk
    simp [hk]

theorem Arranged.joined (h : t.Arranged chains) (hchain : chains i = xs ++ ys)
    (hloose : ∀ k, id ∉ chains k) (hu : t.Joined u i xs.getLast? id ys.head?) :
    u.Arranged (Function.update chains i (xs ++ id :: ys)) where
  path k := by
    by_cases hk : k = i
    · subst hk
      rw [Function.update_self]
      exact hu.path (hchain ▸ h.path k) (hchain ▸ hloose k)
    · rw [Function.update_of_ne hk]
      refine hu.path_other hk (h.path k) (hloose k) fun p hlast hpk => hk ?_
      exact h.apart hpk (mem_of_ahead hchain hlast)
  apart := by
    intro k l j hk hl
    rw [mem_update_put hchain] at hk hl
    rcases hk with hk | ⟨rfl, hj⟩ <;> rcases hl with hl | ⟨rfl, hj'⟩
    · exact h.apart hk hl
    · exact absurd (hj' ▸ hk) (hloose k)
    · exact absurd (hj ▸ hl) (hloose l)
    · rfl

theorem Joined.linkedIn (hu : t.Joined u i xs.getLast? id ys.head?) (h : t.Arranged chains)
    (hchain : chains i = xs ++ ys) (hloose : ∀ k, id ∉ chains k) :
    t.LinkedIn u.tallied i xs id ys := by
  have harr := h.joined hchain hloose hu
  have hrel := hu.relinked
  have hentry : ∀ j, j ≠ id → xs.getLast? ≠ some j → u.arena.get? j = t.arena.get? j :=
    fun j hj hlast => hrel.arena.get?_eq (by rw [hu.link j, if_neg hj, if_neg hlast])
  constructor
  case chain =>
    obtain ⟨hend, hids⟩ := harr.walk i
    rw [Function.update_self] at hids
    exact ⟨hend, by rw [List.append_assoc]; exact hids⟩
  case others =>
    intro k hk
    obtain ⟨hend, hids⟩ := h.walk k
    obtain ⟨hend', hids'⟩ := harr.walk k
    rw [Function.update_of_ne hk] at hids'
    refine ⟨Arena.walk_eq_of_mem (fun j hj => ?_) (hids'.trans hids.symm) (hend'.trans hend.symm),
      (hu.head k).trans (if_neg fun hki => hk hki.1)⟩
    have hjk : j ∈ chains k := hids ▸ hj
    refine hentry j (fun he => hloose k (he ▸ hjk)) fun hlast => hk ?_
    exact h.apart hjk (mem_of_ahead hchain hlast)
  case entry => exact hentry
  case content => exact hrel.arena.content?
  case size => exact hu.size
  case relinked => exact hrel.tallied
  case freeList => exact hrel.arena.freeList
  case count => exact congrArg (· + 1) hrel.count
  case traffic => exact hrel.tallied.traffic

theorem Arranged.length_linked_put (h : t.Arranged chains) (hchain : chains i = xs ++ ys)
    (hloose : ∀ k, id ∉ chains k)
    (hu : u.Arranged (Function.update chains i (xs ++ id :: ys))) :
    (u.linked (Function.update chains i (xs ++ id :: ys))).length =
      (t.linked chains).length + 1 := by
  have hnew : id ∉ t.linked chains := fun hid => by
    obtain ⟨k, hk⟩ := h.mem_linked.mp hid
    exact hloose k hk
  have hperm := (List.perm_ext_iff_of_nodup hu.nodup_linked (h.nodup_linked.cons hnew)).mpr
    fun j => by
      rw [hu.mem_linked, List.mem_cons, h.mem_linked]
      simp only [mem_update_put hchain]
      constructor
      · rintro ⟨k, hk | ⟨-, rfl⟩⟩
        · exact .inr ⟨k, hk⟩
        · exact .inl rfl
      · rintro (rfl | ⟨k, hk⟩)
        · exact ⟨i, .inr ⟨rfl, rfl⟩⟩
        · exact ⟨k, .inl hk⟩
  rw [hperm.length_eq, List.length_cons]

theorem WellFormed.joined (h : t.WellFormed chains) (hchain : chains i = xs ++ ys)
    (hloose : ∀ k, id ∉ chains k) (he : t.arena.get? id = some e) (hi : t.hashToIndex e.hash = i)
    (hu : t.Joined u i xs.getLast? id ys.head?) :
    u.tallied.WellFormed (Function.update chains i (xs ++ id :: ys)) := by
  have harr := h.toArranged.joined hchain hloose hu
  have hbucket := hu.relinked.bucketOf hu.size
  have hplaced : ∀ {k : Nat} {j : EntryId},
      j ∈ Function.update chains i (xs ++ id :: ys) k → u.bucketOf j = k := by
    intro k j hj
    rw [hbucket]
    rcases (mem_update_put hchain).mp hj with hj | ⟨rfl, rfl⟩
    · exact h.byHash hj
    · rw [bucketOf_of_get? he, hi]
  constructor
  case toArranged => exact harr.congr (fun _ => rfl) fun _ _ _ => rfl
  case once => exact harr.nodup
  case placed =>
    intro k j ej hj hej
    have hlive : u.arena.get? j = some ej := hej
    exact (bucketOf_of_get? hlive).symm.trans (hplaced hj)
  case counted =>
    have hcount : u.tallied.count = t.count + 1 := congrArg (· + 1) hu.relinked.count
    rw [hcount, h.counted, ← h.toArranged.length_linked_put hchain hloose harr]
    rfl

theorem Joined.unlink (hu : t.Joined u i xs.getLast? id ys.head?) (h : t.Arranged chains)
    (hchain : chains i = xs ++ ys) (hloose : ∀ k, id ∉ chains k) :
    ∃ v, u.tallied.unlink i id = .ok true v ∧ v.buckets = t.buckets ∧
      ∀ k, v.walk k = t.walk k := by
  have hput : u.tallied.Arranged (Function.update chains i (xs ++ id :: ys)) :=
    (h.joined hchain hloose hu).congr (fun _ => rfl) fun _ _ _ => rfl
  have hid : id ∈ Function.update chains i (xs ++ id :: ys) i :=
    (mem_update_put hchain).mpr (.inr ⟨rfl, rfl⟩)
  obtain ⟨v, hv, hrel, hsize, harr⟩ := hput.unlink_mem hid
  have hback : (xs ++ id :: ys).erase id = chains i := by
    have hxs : id ∉ xs := fun hmem => hloose i (by simp [hchain, hmem])
    rw [List.erase_append_right _ hxs, List.erase_cons_head, hchain]
  rw [Function.update_self, hback, Function.update_idem, Function.update_eq_self] at harr
  have hcontent : ∀ j, v.arena.content? j = t.arena.content? j := fun j =>
    (hrel.arena.content? j).trans (hu.relinked.arena.content? j)
  refine ⟨v, hv, buckets_eq (hsize.trans hu.size) fun k => (harr.head k).trans (h.head k).symm,
    fun k => ?_⟩
  obtain ⟨hend, hids⟩ := h.walk k
  obtain ⟨hend', hids'⟩ := harr.walk k
  refine Arena.walk_eq_of_mem (fun j hj => ?_) (hids'.trans hids.symm) (hend'.trans hend.symm)
  exact Arena.get?_eq_of_content?_link (hcontent j) (h.link_eq harr (hids ▸ hj))

/-- Linked by hand between `xs` and `ys`, an entry that was on no chain is there and counted, and
nothing else differs. On the chain of its hash the table is well formed again, in front of the chain
it is as if the entry had been added, and unlinking the entry restores all chains. -/
theorem linkBetween_links_in (h : t.WellFormed chains) (hi : i < t.size)
    (hchain : chains i = xs ++ ys) (he : t.arena.get? id = some e) (hloose : ∀ k, id ∉ chains k)
    (hroom : t.traffic.added + 1 < wordLimit) :
    ∃ u, t.linkBetween i xs.getLast? id ys.head? = .ok () u ∧ t.LinkedIn u i xs id ys ∧
      (t.hashToIndex e.hash = i →
        u.WellFormed (Function.update chains i (xs ++ id :: ys))) ∧
      (xs = [] → t.addEntry i id = .ok () u) ∧
      ∃ v, u.unlink i id = .ok true v ∧ v.buckets = t.buckets ∧ ∀ k, v.walk k = t.walk k := by
  have hcount : t.count + 1 < wordLimit := by
    have hle := h.length_linked_le
    rw [← h.counted] at hle
    exact Nat.lt_of_le_of_lt (Nat.succ_le_succ hle) (by decide)
  have hahead : ∀ p, xs.getLast? = some p → p ≠ id ∧ ∃ ep, t.arena.get? p = some ep := by
    intro p hlast
    have hp := mem_of_ahead hchain hlast
    exact ⟨fun hpid => hloose i (hpid ▸ hp), h.live hp⟩
  obtain ⟨u, hu, hjoined⟩ := linkBetween_ok ys.head? hi he hahead hcount hroom
  refine ⟨u.tallied, hu, hjoined.linkedIn h.toArranged hchain hloose,
    fun hhash => h.joined hchain hloose he hhash hjoined, ?_,
    hjoined.unlink h.toArranged hchain hloose⟩
  rintro rfl
  have hfront : t.head i = ys.head? := by rw [h.head i, hchain, List.nil_append]
  rw [← linkBetween_front hi he, hfront]
  exact hu

theorem linkBetween_links_in_behind_shared :
    ∃ (_ : Memory) (t u v w : Table UInt32) (a b s : EntryId) (cs : List (Call UInt32)),
      create 2 .symbol = .ok t ∧
      cs = [.newEntry 2 20, .newSharedEntry 4 40, .newEntry 6 60, .addEntry 0 a, .addEntry 0 s] ∧
      (t.run cs).linkBetween 0 (some s) b (some a) = .ok () u ∧
      (u.walk 0).ids = [s, b, a] ∧ (∃ chains, u.WellFormed chains) ∧
      u.unlink 0 b = .ok true v ∧ v.buckets = (t.run cs).buckets ∧
      (t.run cs).linkBetween 0 none b (some s) = .ok () w ∧
      (t.run cs).addEntry 0 b = .ok () w := by
  let mem : Memory := .below 100 (by decide)
  let a : EntryId := .ofIndex 0 (by decide)
  let s : EntryId := .ofIndex 1 (by decide)
  let b : EntryId := .ofIndex 2 (by decide)
  let cs : List (Call UInt32) :=
    [.newEntry 2 20, .newSharedEntry 4 40, .newEntry 6 60, .addEntry 0 a, .addEntry 0 s]
  let t : Table UInt32 := ⟨emptyBuckets 2, 0, .empty, .symbol, .zero, by decide⟩
  have hpass : ((t.run cs).verify "symbols" fun _ => true).result.toOption = some ⟨2, 2, 0⟩ := by
    decide +kernel
  have hw := wellFormed_of_report hpass
  have hi : 0 < (t.run cs).size := (t.run cs).size_pos
  have hlive : ((t.run cs).arena.get? b).map (fun e => (t.run cs).hashToIndex e.hash) = some 0 := by
    decide +kernel
  obtain ⟨e, he, hhash⟩ := Option.map_eq_some_iff.mp hlive
  have hnot : b ∉ (t.run cs).linked fun i => ((t.run cs).walk i).ids := by decide +kernel
  have hloose : ∀ k, b ∉ ((t.run cs).walk k).ids := fun k hk =>
    hnot (hw.mem_linked.mpr ⟨k, hk⟩)
  have hroom : (t.run cs).traffic.added + 1 < wordLimit := by decide +kernel
  have hbehind : ((t.run cs).walk 0).ids = [s] ++ [a] := by decide +kernel
  have hahead : ((t.run cs).walk 0).ids = [] ++ [s, a] := by decide +kernel
  obtain ⟨u, hu, hput, hform, -, v, hv, hback, -⟩ :=
    linkBetween_links_in hw hi hbehind he hloose hroom
  obtain ⟨w, hfront, -, -, hadd, -⟩ := linkBetween_links_in hw hi hahead he hloose hroom
  exact ⟨mem, t, u, v, w, a, b, s, cs, rfl, rfl, hu, hput.chain.2, ⟨_, hform hhash⟩, hv, hback,
    hfront, hadd rfl⟩

end Table

end ChainedTable
