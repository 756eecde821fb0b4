import ChainedTable.Proofs.Arena.Blocks

set_option autoImplicit false

/-!
What freeing a slot twice does to the free list. The link of the slot is overwritten with the head
before the fault is raised, so the list runs in a ring from its head to that slot, and the slots
behind it are lost.

Two invariants tell the rest. As long as nothing is freed, allocations unwind the ring, until its
first slot comes up again and is found occupied. Whatever is called, no link leads from the head to
a lost slot or to an end of the list.
-/

namespace ChainedTable

namespace Arena

variable {α : Type} {a : Arena α} {c : Call α} {cs ds : List (Call α)} {id f first : EntryId}
  {next : Option EntryId} {ring lost rest : List EntryId} {h : UInt32} {x : α} {z : Sizing}

/-- From the head the slots `rest` come up and then `first`, which is no free slot any more once
it has come up. -/
structure Unwinds (a : Arena α) (first : EntryId) (rest : List EntryId) : Prop where
  path : Path a.freeLink a.freeHead rest (some first)
  nodup : rest.Nodup
  room : rest.length ≤ a.freeCount
  taken : first ∉ rest → ∃ e, a.get? first = some e

/-- The head of the free list is not among the slots `lost`, and no free slot but those is the last
of the list or leads to one of them. -/
structure Detached (a : Arena α) (lost : List EntryId) : Prop where
  head : ∃ i, a.freeHead = some i ∧ i ∉ lost
  link : ∀ {id : EntryId} {n : Option EntryId}, a.freeLink id = some n → id ∉ lost →
    ∃ i, n = some i ∧ i ∉ lost
  kept : ∀ id ∈ lost, ∃ n, a.freeLink id = some n

namespace Unwinds

theorem update (hw : a.Unwinds first rest) (id : EntryId) (g : Entry α → Entry α) :
    (a.update id g).state.Unwinds first rest := by
  cases he : a.get? id with
  | none => rwa [update_dead he, Outcome.state_fail]
  | some e =>
    rw [update_live he, Outcome.state_ok]
    refine ⟨by rw [freeLink_store_live _ he]; exact hw.path, hw.nodup, hw.room, fun hnot => ?_⟩
    rw [get?_store _ (index_lt_of_get? he)]
    split
    · exact ⟨g e, rfl⟩
    · exact hw.taken hnot

section
variable [SlotSize α]

theorem allocate_cons (hw : a.Unwinds first (id :: rest)) (h : UInt32) (x : α) (z : Sizing) :
    ∃ b, a.allocate h x z = .ok id b ∧ b.Unwinds first rest := by
  obtain ⟨hh, n, hn, hr⟩ := hw.path
  obtain ⟨hnot, hnd⟩ := List.nodup_cons.mp hw.nodup
  have hroom := hw.room
  rw [List.length_cons] at hroom
  have hlt := index_lt_of_freeLink hn
  refine ⟨_, allocate_reuse hh hn (by omega), ?_, hnd, ?_, fun hfirst => ?_⟩
  · refine hr.congr fun i hi => ?_
    have hne : i ≠ id := fun he => hnot (he ▸ hi)
    rw [freeLink_taken _ hlt, if_neg hne]
  · have hcount : (a.taken id n (.fresh h x)).freeCount = a.freeCount - 1 := rfl
    omega
  · rw [get?_taken _ hlt]
    split
    · exact ⟨_, rfl⟩
    · rename_i hne
      exact hw.taken (by simp [hne, hfirst])

theorem allocate_nil (hw : a.Unwinds first []) (h : UInt32) (x : α) (z : Sizing) :
    a.allocate h x z = .fail (.freeListOccupied first) a := by
  obtain ⟨e, he⟩ := hw.taken (List.not_mem_nil)
  have hh : a.freeHead = some first := hw.path
  rw [get?_eq_some] at he
  simp [allocate, hh, reuse, he]

theorem perform (hw : a.Unwinds first rest) (hc : c.frees = false) :
    (a.perform c).state.Unwinds first (rest.drop (if c.allocates then 1 else 0)) := by
  rcases a.state_perform c with ⟨h, x, z, rfl⟩ | ⟨id, rfl⟩ | ⟨hall, -, id, g, hs⟩
  · rw [Arena.perform, Outcome.state_map]
    cases rest with
    | nil =>
      rw [hw.allocate_nil h x z]
      exact hw
    | cons i rest =>
      obtain ⟨b, hb, hwb⟩ := hw.allocate_cons h x z
      rw [hb]
      exact hwb
  · simp [Call.frees] at hc
  · rw [hs, hall]
    exact hw.update id g

theorem run (hw : a.Unwinds first rest) (hds : ∀ c ∈ ds, c.frees = false) :
    (a.run ds).Unwinds first (rest.drop (ds.countP Call.allocates)) := by
  induction ds generalizing a rest with
  | nil => exact hw
  | cons c ds ih =>
    obtain ⟨hc, hds⟩ := List.forall_mem_cons.mp hds
    have hrest := ih (hw.perform hc) hds
    rwa [List.drop_drop, Nat.add_comm, ← List.countP_cons] at hrest

end

end Unwinds

namespace Detached

theorem update (hd : a.Detached lost) (id : EntryId) (g : Entry α → Entry α) :
    (a.update id g).state.Detached lost := by
  cases he : a.get? id with
  | none => rwa [update_dead he, Outcome.state_fail]
  | some e =>
    rw [update_live he, Outcome.state_ok]
    have hlink := freeLink_store_live (g e) he
    exact ⟨hd.head, fun hi => hd.link (hlink ▸ hi), fun i hi => by rw [hlink]; exact hd.kept i hi⟩

theorem taken (hd : a.Detached lost) (hh : a.freeHead = some id) (hl : a.freeLink id = some next)
    (e : Entry α) : (a.taken id next e).Detached lost := by
  obtain ⟨i, hi, hnot⟩ := hd.head
  obtain rfl := Option.some.inj (hi.symm.trans hh)
  have hlt := index_lt_of_freeLink hl
  refine ⟨hd.link hl hnot, fun {j n} hj => ?_, fun j hj => ?_⟩
  · rw [freeLink_taken e hlt] at hj
    split at hj
    · simp at hj
    · exact hd.link hj
  · have hne : j ≠ i := fun he => hnot (he ▸ hj)
    rw [freeLink_taken e hlt, if_neg hne]
    exact hd.kept j hj

theorem withFree (hd : a.Detached lost) (hlt : id.index < a.carved) :
    (a.withFree id a.freeHead).Detached lost := by
  refine ⟨hd.head, fun {j n} hj => ?_, fun j hj => ?_⟩
  · rw [freeLink_withFree hlt] at hj
    split at hj
    · obtain rfl := Option.some.inj hj
      exact fun _ => hd.head
    · exact hd.link hj
  · rw [freeLink_withFree hlt]
    split
    · exact ⟨_, rfl⟩
    · exact hd.kept j hj

theorem free (hd : a.Detached lost) (id : EntryId) : (a.free id).state.Detached lost := by
  rcases a.free_cases id with ⟨f, hf⟩ | ⟨e, he, -, hok⟩ | ⟨next, hl, hf⟩
  · rwa [hf, Outcome.state_fail]
  · have hbent := hd.withFree (index_lt_of_get? he)
    have hnot : id ∉ lost := by
      intro hid
      obtain ⟨n, hn⟩ := hd.kept id hid
      simp [get?_of_freeLink hn] at he
    rw [hok, Outcome.state_ok]
    exact ⟨⟨id, rfl, hnot⟩, hbent.link, hbent.kept⟩
  · rw [hf, Outcome.state_fail]
    exact hd.withFree (index_lt_of_freeLink hl)

section
variable [SlotSize α]

theorem allocate (hd : a.Detached lost) (h : UInt32) (x : α) (z : Sizing) :
    (a.allocate h x z).state.Detached lost := by
  obtain ⟨i, hi, -⟩ := hd.head
  rcases a.allocate_cases h x z with ⟨id, next, hh, hl, hok | ⟨-, hf⟩⟩ | ⟨id, r, bs, hh, -⟩ |
    ⟨f, r, bs, hf⟩
  · rw [hok, Outcome.state_ok]
    exact hd.taken hh hl _
  · rw [hf, Outcome.state_fail]
    exact hd.taken hh hl _
  · simp [hi] at hh
  · rw [hf, Outcome.state_fail]
    exact ⟨hd.head, hd.link, hd.kept⟩

theorem perform (hd : a.Detached lost) (c : Call α) : (a.perform c).state.Detached lost := by
  rcases a.state_perform c with ⟨h, x, z, rfl⟩ | ⟨id, rfl⟩ | ⟨-, -, id, g, hs⟩
  · simpa [Arena.perform] using hd.allocate h x z
  · simpa [Arena.perform] using hd.free id
  · rw [hs]
    exact hd.update id g

theorem storage (hd : a.Detached lost) (c : Call α) :
    (a.perform c).state.blocks = a.blocks ∧ (a.perform c).state.reserved = a.reserved ∧
      (a.perform c).state.carved = a.carved := by
  obtain ⟨i, hi, -⟩ := hd.head
  rcases a.state_perform c with ⟨h, x, z, rfl⟩ | ⟨id, rfl⟩ | ⟨-, -, id, g, hs⟩
  · rw [Arena.perform, Outcome.state_map]
    rcases a.allocate_blocks h x z with ⟨hbs, hr, hcarved | ⟨-, hh, -⟩⟩ | ⟨hh, -⟩
    · exact ⟨hbs, hr, hcarved⟩
    · simp [hi] at hh
    · simp [hi] at hh
  · simpa [Arena.perform] using a.storage_free id
  · rw [hs]
    exact a.storage_update id g

theorem run (hd : a.Detached lost) (ds : List (Call α)) :
    (a.run ds).Detached lost ∧ (a.run ds).blocks = a.blocks ∧ (a.run ds).reserved = a.reserved ∧
      (a.run ds).carved = a.carved := by
  induction ds generalizing a with
  | nil => exact ⟨hd, rfl, rfl, rfl⟩
  | cons c ds ih =>
    obtain ⟨hbs, hr, hcarved⟩ := hd.storage c
    rw [run_cons, ← hbs, ← hr, ← hcarved]
    exact ih (hd.perform c)

theorem not_made (hd : a.Detached lost) (hid : id ∈ lost) :
    (a.allocate h x z).result ≠ .ok id := by
  obtain ⟨i, hi, hnot⟩ := hd.head
  rcases a.allocate_cases h x z with ⟨j, next, hh, -, hok | ⟨-, hf⟩⟩ | ⟨j, r, bs, hh, -⟩ |
    ⟨f, r, bs, hf⟩
  · obtain rfl := Option.some.inj (hi.symm.trans hh)
    have hne : i ≠ id := fun he => hnot (he ▸ hid)
    simpa [hok] using hne
  · simp [hf]
  · simp [hi] at hh
  · simp [hf]

end

end Detached

/-- What is left of `a` in `b` when the last slot of `ring`, which is the front of its free list,
was freed again, with the slots `lost` behind it. -/
structure Looped [SlotSize α] (a b : Arena α) (ring lost : List EntryId) : Prop where
  get? : ∀ id, b.get? id = a.get? id
  liveCount : b.liveCount = a.liveCount
  carved : b.carved = a.carved
  freeCount : b.freeCount = a.freeCount
  blocks : b.blocks = a.blocks
  head : b.freeHead = ring.head?
  cycle : Path b.freeLink b.freeHead ring b.freeHead
  listed : ∀ k, b.freeListFrom (k * ring.length) b.freeHead [] = (List.replicate k ring).flatten
  /-- While nothing is freed the slots of the ring are handed out in turn. -/
  turn : ∀ ds, (∀ c ∈ ds, c.frees = false) → ∀ h x z id,
    ring[ds.countP Call.allocates]? = some id → ((b.run ds).allocate h x z).result = .ok id
  stuck : ∀ ds, (∀ c ∈ ds, c.frees = false) → ring.length ≤ ds.countP Call.allocates → ∀ h x z,
    ∃ first, ring.head? = some first ∧
      (b.run ds).allocate h x z = .fail (.freeListOccupied first) (b.run ds)
  /-- Whatever is called, the slots behind the ring stay lost, and no slot is carved. -/
  not_made : ∀ ds h x z id, id ∈ lost → ((b.run ds).allocate h x z).result ≠ .ok id
  head_kept : ∀ ds, (b.run ds).freeHead ≠ none
  not_carved : ∀ ds, (b.run ds).carved = a.carved ∧ (b.run ds).blocks = a.blocks ∧
    (b.run ds).reserved = a.reserved

theorem listed_of_cycle (h : Path a.freeLink next ring next) (k : Nat) :
    a.freeListFrom (k * ring.length) next [] = (List.replicate k ring).flatten := by
  induction k with
  | zero => simp [freeListFrom]
  | succ k ih =>
    rw [Nat.succ_mul, Nat.add_comm, freeListFrom_append h, ih, List.replicate_succ,
      List.flatten_cons]

theorem Threaded.head (ht : a.Threaded (ring ++ f :: lost)) :
    a.freeHead = (ring ++ [f]).head? := by
  rw [ht.path.head?, List.append_cons, List.head?_append_of_ne_nil _ (by simp)]

/-- The link of `f` becomes the head: the slots ahead of `f` keep theirs. -/
theorem Threaded.cycle (ht : a.Threaded (ring ++ f :: lost)) (hlt : f.index < a.carved) :
    Path (a.withFree f a.freeHead).freeLink a.freeHead (ring ++ [f]) a.freeHead := by
  obtain ⟨m, hring, hf, -⟩ := Path.append.mp ht.path
  have hnot : f ∉ ring := by
    have hnd := ht.path.nodup
    rw [List.nodup_append] at hnd
    exact fun hmem => hnd.2.2 f hmem f (by simp) rfl
  refine Path.append.mpr ⟨m, hring.congr fun i hi => ?_, hf, a.freeHead, ?_, rfl⟩
  · have hne : i ≠ f := fun he => hnot (he ▸ hi)
    rw [freeLink_withFree hlt, if_neg hne]
  · rw [freeLink_withFree hlt, if_pos rfl]

theorem Threaded.detached (ht : a.Threaded (ring ++ f :: lost)) (hlt : f.index < a.carved) :
    (a.withFree f a.freeHead).Detached lost := by
  have hnd := ht.path.nodup
  have hcells : ∀ xs ys, ring ++ [f] = xs ++ ys → ys ≠ [] →
      ∃ i, (ys ++ lost).head? = some i ∧ i ∉ lost := by
    intro xs ys heq hne
    obtain ⟨i, ys, rfl⟩ := List.exists_cons_of_ne_nil hne
    rw [List.append_cons, heq, List.nodup_append] at hnd
    exact ⟨i, rfl, fun hi => hnd.2.2 i (by simp) i hi rfl⟩
  have hhead : ∃ i, a.freeHead = some i ∧ i ∉ lost := by
    rw [ht.path.head?, List.append_cons]
    exact hcells [] (ring ++ [f]) rfl (by simp)
  refine ⟨hhead, fun {id n} hl hnot => ?_, fun id hid => ?_⟩
  · rw [freeLink_withFree hlt] at hl
    split at hl
    · obtain rfl := Option.some.inj hl
      exact hhead
    · rename_i hne
      have hmem : id ∈ ring := by
        have hall := ht.all id (by simp [hl])
        simpa [hne, hnot] using hall
      obtain ⟨xs, ys, rfl⟩ := List.append_of_mem hmem
      have hpath := ht.path
      rw [List.append_assoc, List.cons_append] at hpath
      obtain rfl := Option.some.inj (hl.symm.trans hpath.link_of_append)
      rw [List.append_cons]
      exact hcells (xs ++ [id]) (ys ++ [f]) (by simp) (by simp)
  · rw [freeLink_withFree hlt]
    split
    · exact ⟨_, rfl⟩
    · exact Option.isSome_iff_exists.mp (ht.path.isSome (by simp [hid]))

theorem Threaded.unwinds (ht : a.Threaded (ring ++ f :: lost)) (hlt : f.index < a.carved)
    (hfirst : a.freeHead = some first) :
    (a.withFree f a.freeHead).Unwinds first (ring ++ [f]) where
  path := hfirst ▸ ht.cycle hlt
  nodup := by
    have hnd := ht.path.nodup
    rw [List.append_cons, List.nodup_append] at hnd
    exact hnd.1
  room := by
    have hcount : (a.withFree f a.freeHead).freeCount = a.freeCount := rfl
    rw [hcount, ht.count]
    simp
  taken hnot := absurd (List.mem_of_mem_head? (ht.head.symm.trans hfirst)) hnot

section
variable [SlotSize α]

theorem Threaded.looped (ht : a.Threaded (ring ++ f :: lost)) :
    ∃ b, a.free f = .fail (.freedTwice f) b ∧ Looped a b (ring ++ [f]) lost := by
  obtain ⟨next, hl⟩ := Option.isSome_iff_exists.mp (ht.mem_iff.mp (by simp : f ∈ ring ++ f :: lost))
  have hlt := index_lt_of_freeLink hl
  have hd := ht.detached hlt
  obtain ⟨first, hfirst, -⟩ := hd.head
  have hw := ht.unwinds hlt hfirst
  refine ⟨a.withFree f a.freeHead, free_freed hl, ?_⟩
  constructor
  case get? =>
    intro id
    rw [get?_withFree hlt]
    split
    · rename_i he
      rw [he, get?_of_freeLink hl]
    · rfl
  case liveCount => simp [liveCount, withFree]
  case carved => exact carved_withFree
  case freeCount => rfl
  case blocks => rfl
  case head => exact ht.head
  case cycle => exact ht.cycle hlt
  case listed => exact listed_of_cycle (ht.cycle hlt)
  case turn =>
    intro ds hds h x z id hid
    obtain ⟨hk, hget⟩ := List.getElem?_eq_some_iff.mp hid
    have hrest := hw.run hds
    rw [List.drop_eq_getElem_cons hk, hget] at hrest
    obtain ⟨b, hb, -⟩ := hrest.allocate_cons h x z
    rw [hb]
    rfl
  case stuck =>
    intro ds hds hle h x z
    have hrest := hw.run hds
    rw [List.drop_eq_nil_of_le hle] at hrest
    exact ⟨first, ht.head.symm.trans hfirst, hrest.allocate_nil h x z⟩
  case not_made => exact fun ds h x z id hid => (hd.run ds).1.not_made hid
  case head_kept =>
    intro ds
    obtain ⟨i, hi, -⟩ := (hd.run ds).1.head
    simp [hi]
  case not_carved =>
    intro ds
    obtain ⟨-, hbs, hr, hcarved⟩ := hd.run ds
    exact ⟨hcarved.trans carved_withFree, hbs, hr⟩

/-- In an arena in which no slot was freed twice, freeing any slot of the free list again closes the
list up to that slot into a ring. -/
theorem looped_of_freed_twice (hcs : (empty : Arena α).Careful cs)
    (hsplit : ((empty : Arena α).run cs).freeList = ring ++ f :: lost) :
    ∃ b, ((empty : Arena α).run cs).free f = .fail (.freedTwice f) b ∧
      Looped ((empty : Arena α).run cs) b (ring ++ [f]) lost := by
  obtain ⟨free, ht⟩ := threaded_empty.run hcs
  rw [freeList_of_path ht.path] at hsplit
  exact Threaded.looped (hsplit ▸ ht)

end

theorem looped_of_freed_twice_middle :
    ∃ (a b c : EntryId) (cs : List (Call UInt32)) (s : Arena UInt32),
      cs = [.allocate 1 10 ⟨4, 0⟩, .allocate 2 20 ⟨4, 0⟩, .allocate 3 30 ⟨4, 0⟩, .free a, .free b,
        .free c] ∧
      (empty : Arena UInt32).Careful cs ∧
      ((empty : Arena UInt32).run cs).freeList = [c, b, a] ∧
      ((empty : Arena UInt32).run cs).free b = .fail (.freedTwice b) s ∧
      Looped ((empty : Arena UInt32).run cs) s [c, b] [a] := by
  let a : EntryId := .ofIndex 0 (by decide)
  let b : EntryId := .ofIndex 1 (by decide)
  let c : EntryId := .ofIndex 2 (by decide)
  let cs : List (Call UInt32) := [.allocate 1 10 ⟨4, 0⟩, .allocate 2 20 ⟨4, 0⟩,
    .allocate 3 30 ⟨4, 0⟩, .free a, .free b, .free c]
  have hcs : (empty : Arena UInt32).Careful cs := by decide +kernel
  have hlist : ((empty : Arena UInt32).run cs).freeList = [c] ++ b :: [a] := by decide +kernel
  obtain ⟨s, hs, hlooped⟩ := looped_of_freed_twice hcs hlist
  exact ⟨a, b, c, cs, s, rfl, hcs, hlist, hs, hlooped⟩

end Arena

end ChainedTable
