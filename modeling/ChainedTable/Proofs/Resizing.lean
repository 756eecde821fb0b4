import ChainedTable.Proofs.Verification

set_option autoImplicit false

namespace ChainedTable

variable {α : Type}

namespace Table

variable {t u : Table α} {chains : Nat → List EntryId} {id : EntryId} {n : Nat}
  {accept : α → Bool}

structure Rehoused (t u : Table α) (chains : Nat → List EntryId) (n : Nat) : Prop where
  size : u.size = n
  chain : ∀ j < n, (u.walk j).ending = .closed ∧ (u.walk j).ids =
    (((List.range t.size).flatMap chains).filter fun id => (t.arena.hash id).toNat % n = j).reverse
  content : ∀ id, (u.arena.get? id).map Entry.content = (t.arena.get? id).map Entry.content
  /-- An entry on no chain keeps its link too. -/
  loose : ∀ id, (∀ i, id ∉ chains i) → u.arena.get? id = t.arena.get? id
  freeList : u.arena.freeList = t.arena.freeList
  freeCount : u.arena.freeCount = t.arena.freeCount
  carved : u.arena.carved = t.arena.carved
  blocks : u.arena.blocks = t.arena.blocks
  reserved : u.arena.reserved = t.arena.reserved
  count : u.count = t.count
  traffic : u.traffic = t.traffic
  tag : u.tag = t.tag
  linked : u.traversal.ids.Perm t.traversal.ids

theorem mem_dealt {j : Nat} :
    id ∈ t.dealt chains n j ↔ id ∈ t.linked chains ∧ (t.arena.hash id).toNat % n = j := by
  simp [dealt]

theorem Arranged.linked_dealt (ht : t.Arranged chains) (hu : u.Arranged (t.dealt chains n)) :
    (u.linked (t.dealt chains n)).Perm (t.linked chains) := by
  refine (List.perm_ext_iff_of_nodup hu.nodup_linked ht.nodup_linked).mpr fun id => ?_
  rw [hu.mem_linked]
  simp [mem_dealt]

theorem Arranged.rehoused [Memory] (h : t.Arranged chains) (hn : Allocatable n) :
    ∃ u, t.resize n = .ok (.ok ()) u ∧ u.Arranged (t.dealt chains n) ∧ t.Rehoused u chains n := by
  obtain ⟨u, hu, hrel, hsize, harr, hlink⟩ := h.resize hn
  refine ⟨u, hu, harr, ?_⟩
  constructor
  case size => exact hsize
  case chain => exact fun j _ => harr.walk j
  case content => exact hrel.arena.content?
  case loose => exact fun id hid => hrel.arena.get?_eq (hlink id hid)
  case freeList => exact hrel.arena.freeList
  case freeCount => exact hrel.arena.freeCount
  case carved => exact hrel.arena.carved
  case blocks => exact hrel.arena.blocks
  case reserved => exact hrel.arena.reserved
  case count => exact hrel.count
  case traffic => exact hrel.traffic
  case tag => exact hrel.tag
  case linked =>
    rw [h.traversal_ids, harr.traversal_ids]
    exact h.linked_dealt harr

theorem Rehoused.wellFormed (hr : t.Rehoused u chains n) (h : t.Arranged chains)
    (harr : u.Arranged (t.dealt chains n)) (hcount : t.count = (t.linked chains).length) :
    u.WellFormed (t.dealt chains n) where
  toArranged := harr
  once := harr.nodup
  placed := by
    intro j id e hid he
    have hhash : u.arena.hash id = t.arena.hash id := by
      have hc := hr.content id
      simp only [Arena.hash, Arena.content?, hc]
    rw [hashToIndex, hr.size, ← Arena.hash_of_get? he, hhash]
    exact (mem_dealt.mp hid).2
  counted := by rw [hr.count, hcount, (h.linked_dealt harr).length_eq]

theorem Rehoused.accepted (hr : t.Rehoused u chains n) (h : t.Arranged chains)
    (ha : t.Accepted accept chains) : u.Accepted accept (t.dealt chains n) := by
  intro j id e hid he
  obtain ⟨i, hi⟩ := h.mem_linked.mp (mem_dealt.mp hid).1
  obtain ⟨e₀, he₀⟩ := h.live hi
  have hc := hr.content id
  rw [he, he₀, Option.map_some, Option.map_some, Option.some.injEq] at hc
  have hlit : e.literal = e₀.literal := congrArg Content.literal hc
  rw [hlit]
  exact ha hi he₀

theorem arranged_walks (hends : ∀ i < t.size, (t.walk i).ending = .closed)
    (hnd : (t.linked fun i => (t.walk i).ids).Nodup) : t.Arranged fun i => (t.walk i).ids := by
  have hl := laidOut_walks (fun i hi => by simp [hends i hi]) hnd
  have hclosed : ∀ i, (t.walk i).ending = .closed := by
    intro i
    rcases Nat.lt_or_ge i t.size with hi | hi
    · exact hends i hi
    · rw [walk_of_size_le hi]
  exact ⟨fun i => by simpa [hclosed i, Ending.deadId?] using hl.path i, hl.apart⟩

/-- In every state that a run of calls leaves, if the chains end and share no id, every resize whose
buckets can be had succeeds and rehouses the entries. If the count was right, the table then passes
every verification that accepts its literals. -/
theorem resize_rehouses [SlotSize α] [Memory] {tag : MemoryTag} {m : Nat}
    (ht : create m tag = .ok t)
    (calls : List (Call α)) (h : (t.run calls).Arranged chains) (hn : Allocatable n) :
    ∃ u, (t.run calls).resize n = .ok (.ok ()) u ∧ (t.run calls).Rehoused u chains n ∧
      ((t.run calls).count = (t.run calls).traversal.ids.length →
        ∀ name accept, (t.run calls).Accepted accept chains →
          ∃ report shown, u.verify name accept = .ok report shown) := by
  obtain ⟨u, hu, harr, hr⟩ := h.rehoused hn
  refine ⟨u, hu, hr, fun hcount name accept ha => ?_⟩
  rw [h.traversal_ids] at hcount
  have hacc : u.arena.Accounted := by
    have hold := accounted_run (accounted_create ht) calls
    have hrel := (t.run calls).relinked_resize n
    rw [hu, Outcome.state_ok] at hrel
    exact hold.relinked hrel.arena
  exact verify_complete hacc (hr.wellFormed h harr hcount) (hr.accepted h ha)

theorem resize_rehouses_misplaced :
    ∃ (_ : Memory) (t u : Table UInt32) (a b : EntryId) (calls : List (Call UInt32)),
      create 2 .symbol = .ok t ∧
      calls = [.newEntry 5 7, .newEntry 4 9, .addEntry 0 a, .addEntry 0 b] ∧
      ((t.run calls).verify "symbols" fun _ => true).result =
        .error (.verification "symbols" (.misplaced a 5 0 1)) ∧
      (t.run calls).resize 3 = .ok (.ok ()) u ∧
      (t.run calls).Rehoused u (fun i => ((t.run calls).walk i).ids) 3 ∧
      ∃ report shown, u.verify "symbols" (fun _ => true) = .ok report shown := by
  let mem : Memory := .below 100 (by decide)
  let a : EntryId := .ofIndex 0 (by decide)
  let b : EntryId := .ofIndex 1 (by decide)
  let calls : List (Call UInt32) :=
    [.newEntry 5 7, .newEntry 4 9, .addEntry 0 a, .addEntry 0 b]
  let t : Table UInt32 := ⟨emptyBuckets 2, 0, .empty, .symbol, .zero, by decide⟩
  have ht : create 2 .symbol = .ok t := rfl
  have harr : (t.run calls).Arranged fun i => ((t.run calls).walk i).ids :=
    arranged_walks (by decide +kernel) (by decide +kernel)
  obtain ⟨u, hu, hr, hverify⟩ := resize_rehouses ht calls harr (n := 3) (by decide)
  refine ⟨mem, t, u, a, b, calls, ht, rfl, by decide +kernel, hu, hr, ?_⟩
  exact hverify (by decide +kernel) "symbols" (fun _ => true) fun _ _ => rfl

end Table

end ChainedTable
