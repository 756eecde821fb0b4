import ChainedTable.Proofs.Arena.Walks

set_option autoImplicit false

namespace ChainedTable

variable {α : Type}

theorem blockEntries_ok {s : Nat} (hs : s * maxBlockEntries < wordLimit) (z : Sizing) :
    ∃ n, blockEntries s z = .ok n := by
  have hw := z.wanted_le
  have hm : max 1 s * z.wanted < wordLimit := by
    rcases Nat.le_total 1 s with h | h
    · rw [Nat.max_eq_right h]
      exact Nat.lt_of_le_of_lt (Nat.mul_le_mul_left s hw) hs
    · rw [Nat.max_eq_left h, Nat.one_mul]
      exact Nat.lt_of_le_of_lt hw (by decide)
  exact ⟨_, blockEntries_eq_ok.mpr ⟨rfl, hm⟩⟩

def takeId : List EntryId → Nat → Option (EntryId × List EntryId × Nat)
  | id :: free, carved => some (id, free, carved)
  | [], carved => (EntryId.ofIndex? carved).map fun id => (id, [], carved + 1)

theorem isSome_takeId {free : List EntryId} {carved : Nat} :
    (takeId free carved).isSome ↔ free ≠ [] ∨ carved < maxEntries := by
  cases free with
  | cons id free => simp [takeId]
  | nil => by_cases hn : carved < maxEntries <;> simp [takeId, EntryId.ofIndex?, hn]

theorem takeId_tail {free rest : List EntryId} {carved n : Nat} {id : EntryId}
    (h : takeId free carved = some (id, rest, n)) : rest = free.tail := by
  cases free with
  | nil =>
    obtain ⟨j, -, heq⟩ := Option.map_eq_some_iff.mp h
    obtain ⟨-, rfl, -⟩ : j = id ∧ [] = rest ∧ carved + 1 = n := by simpa using heq
    rfl
  | cons i free =>
    obtain ⟨-, rfl, -⟩ : i = id ∧ free = rest ∧ carved = n := by simpa [takeId] using h
    rfl

theorem takeId_left {free rest : List EntryId} {carved n : Nat} {id : EntryId}
    (h : takeId free carved = some (id, rest, n)) :
    rest.length + (maxEntries - n) + 1 = free.length + (maxEntries - carved) := by
  cases free with
  | nil =>
    obtain ⟨j, hj, heq⟩ := Option.map_eq_some_iff.mp h
    obtain ⟨rfl, rfl, rfl⟩ : j = id ∧ [] = rest ∧ carved + 1 = n := by simpa using heq
    have hindex := EntryId.ofIndex?_eq_some.mp hj
    have hlt := j.index_lt
    rw [List.length_nil]
    omega
  | cons i free =>
    obtain ⟨rfl, rfl, rfl⟩ : i = id ∧ free = rest ∧ carved = n := by simpa [takeId] using h
    rw [List.length_cons]
    omega

namespace Arena

def withBlocks (a : Arena α) (reserved : Nat) (blocks : Array Nat) : Arena α :=
  { a with reserved := reserved, blocks := blocks }

def taken (a : Arena α) (id : EntryId) (next : Option EntryId) (e : Entry α) : Arena α :=
  { a.store id e with freeHead := next, freeCount := a.freeCount - 1 }

def released (a : Arena α) (id : EntryId) : Arena α :=
  { a.withFree id a.freeHead with freeHead := some id, freeCount := a.freeCount + 1 }

variable {a b : Arena α} {id i : EntryId} {e : Entry α} {next : Option EntryId}
  {free rest : List EntryId} {h : UInt32} {x : α} {z : Sizing} {n r : Nat} {bs : Array Nat}

@[simp] theorem get?_withBlocks : (a.withBlocks r bs).get? i = a.get? i := rfl
@[simp] theorem freeLink_withBlocks : (a.withBlocks r bs).freeLink = a.freeLink := rfl
@[simp] theorem carved_withBlocks : (a.withBlocks r bs).carved = a.carved := rfl
@[simp] theorem freeHead_withBlocks : (a.withBlocks r bs).freeHead = a.freeHead := rfl
@[simp] theorem freeCount_withBlocks : (a.withBlocks r bs).freeCount = a.freeCount := rfl
@[simp] theorem slots_withBlocks : (a.withBlocks r bs).slots = a.slots := rfl
@[simp] theorem carved_taken : (a.taken id next e).carved = a.carved := carved_store a id e
@[simp] theorem carved_released : (a.released id).carved = a.carved := carved_withFree

theorem get?_taken (e : Entry α) (hid : id.index < a.carved) :
    (a.taken id next e).get? i = if i = id then some e else a.get? i := get?_store e hid

theorem freeLink_taken (e : Entry α) (hid : id.index < a.carved) :
    (a.taken id next e).freeLink i = if i = id then none else a.freeLink i := freeLink_store e hid

theorem get?_released (hid : id.index < a.carved) :
    (a.released id).get? i = if i = id then none else a.get? i := get?_withFree hid

theorem freeLink_released (hid : id.index < a.carved) :
    (a.released id).freeLink i = if i = id then some a.freeHead else a.freeLink i :=
  freeLink_withFree hid

theorem content?_released (hid : id.index < a.carved) :
    (a.released id).content? i = if i = id then none else a.content? i := by
  rw [content?, get?_released hid]
  split <;> rfl

theorem Relinked.released (h : Relinked a b) (hid : a.get? id = some e) :
    Relinked (a.released id) (b.released id) := by
  have ha : id.index < a.carved := index_lt_of_get? hid
  have hb : id.index < b.carved := by rwa [h.carved]
  constructor
  case content? =>
    intro i
    rw [content?_released ha, content?_released hb, h.content? i]
  case freeLink =>
    funext i
    rw [freeLink_released ha, freeLink_released hb, h.freeLink, h.freeHead]
  case isFree => simp [Arena.released, withFree, Array.map_setIfInBounds, h.isFree, Slot.isFree]
  case freeHead => rfl
  case freeCount => exact congrArg (· + 1) h.freeCount
  case reserved => exact h.reserved
  case blocks => exact h.blocks

theorem update_live {f : Entry α → Entry α} (hid : a.get? id = some e) :
    a.update id f = .ok () (a.store id (f e)) := by simp [update, hid]

theorem update_dead {f : Entry α → Entry α} (hid : a.get? id = none) :
    a.update id f = .fail (.notAllocated id) a := by simp [update, hid]

theorem update_state_get? (a : Arena α) (id i : EntryId) (f : Entry α → Entry α) :
    (a.update id f).state.get? i = if i = id then (a.get? id).map f else a.get? i := by
  cases he : a.get? id with
  | none =>
    rw [update_dead he, Outcome.state_fail]
    split
    · rename_i hi
      rw [hi, he, Option.map_none]
    · rfl
  | some e => rw [update_live he, Outcome.state_ok, get?_store _ (index_lt_of_get? he)]; rfl

section
variable [SlotSize α]

theorem reserveBlock_cases (a : Arena α) (z : Sizing) :
    (∃ n, 1 ≤ n ∧ n ≤ maxBlockEntries ∧
      a.reserveBlock z = .ok () (a.withBlocks (a.reserved + n) (a.blocks.push n))) ∨
    ∃ f, f ≠ .subtractionOverflow ∧ a.reserveBlock z = .fail f a := by
  simp only [reserveBlock]
  cases hn : blockEntries (SlotSize.bytes α) z with
  | error f =>
    obtain ⟨rfl, -⟩ := blockEntries_eq_error.mp hn
    exact .inr ⟨.multiplicationOverflow, by simp, rfl⟩
  | ok n =>
    obtain ⟨hpos, hle⟩ := blockEntries_bounds hn
    cases hr : addWord a.reserved n with
    | error f =>
      obtain ⟨rfl, -⟩ := addWord_eq_error.mp hr
      exact .inr ⟨.additionOverflow, by simp, by simp [hr]⟩
    | ok r =>
      obtain ⟨rfl, -⟩ := addWord_eq_ok.mp hr
      exact .inl ⟨n, hpos, Nat.le_trans hle z.wanted_le, by simp [hr, withBlocks]⟩

theorem carve_cases (a : Arena α) (e : Entry α) (z : Sizing) :
    (∃ id r bs, id.index = a.carved ∧ a.carve e z = .ok id ((a.extend e).withBlocks r bs)) ∨
      ∃ f r bs, a.carve e z = .fail f (a.withBlocks r bs) := by
  have hblock : (∃ r bs, (if a.slots.size < a.reserved then .ok () a else a.reserveBlock z) =
      .ok () (a.withBlocks r bs)) ∨
      ∃ f, (if a.slots.size < a.reserved then .ok () a else a.reserveBlock z) = .fail f a := by
    split
    · exact .inl ⟨a.reserved, a.blocks, rfl⟩
    · exact (a.reserveBlock_cases z).imp (fun ⟨n, _, _, hb⟩ => ⟨_, _, hb⟩) fun ⟨f, _, hb⟩ => ⟨f, hb⟩
  rcases hblock with ⟨r, bs, hb⟩ | ⟨f, hb⟩
  · cases hid : EntryId.ofIndex? a.slots.size with
    | none => exact .inr ⟨.slotLimit a.slots.size, r, bs, by simp [carve, hb, hid]⟩
    | some id =>
      have hindex : id.index = a.carved := (EntryId.ofIndex?_eq_some.mp hid).symm
      exact .inl ⟨id, r, bs, hindex, by simp [carve, hb, hid, extend, withBlocks]⟩
  · exact .inr ⟨f, a.reserved, a.blocks, by simp [carve, hb, withBlocks]⟩

/-- What an allocation can do: it takes the head of the free list, with or without a fault at the
counter, or it carves a slot, or it writes no slot. -/
theorem allocate_cases (a : Arena α) (h : UInt32) (x : α) (z : Sizing) :
    (∃ id next, a.freeHead = some id ∧ a.freeLink id = some next ∧
      (a.allocate h x z = .ok id (a.taken id next (.fresh h x)) ∨
        a.freeCount = 0 ∧
          a.allocate h x z = .fail .subtractionOverflow (a.taken id next (.fresh h x)))) ∨
    (∃ id r bs, a.freeHead = none ∧ id.index = a.carved ∧
      a.allocate h x z = .ok id ((a.extend (.fresh h x)).withBlocks r bs)) ∨
    ∃ f r bs, a.allocate h x z = .fail f (a.withBlocks r bs) := by
  cases hh : a.freeHead with
  | none =>
    have ha : a.allocate h x z = a.carve (.fresh h x) z := by simp [allocate, hh]
    rcases a.carve_cases (.fresh h x) z with ⟨id, r, bs, hid, hc⟩ | ⟨f, r, bs, hc⟩
    · exact .inr (.inl ⟨id, r, bs, rfl, hid, ha.trans hc⟩)
    · exact .inr (.inr ⟨f, r, bs, ha.trans hc⟩)
  | some id =>
    have ha : a.allocate h x z = a.reuse id (.fresh h x) := by simp [allocate, hh]
    cases hs : a.slots[id.index]? with
    | none =>
      refine .inr (.inr ⟨.slotOutOfBounds id.index a.slots.size, a.reserved, a.blocks, ha.trans ?_⟩)
      simp [reuse, hs, withBlocks]
    | some s =>
      cases s with
      | occupied e =>
        refine .inr (.inr ⟨.freeListOccupied id, a.reserved, a.blocks, ha.trans ?_⟩)
        simp [reuse, hs, withBlocks]
      | free next =>
        refine .inl ⟨id, next, rfl, freeLink_eq_some.mpr hs, ?_⟩
        by_cases hc : a.freeCount = 0
        · exact .inr ⟨hc, ha.trans (by simp [reuse, hs, hc, taken])⟩
        · exact .inl (ha.trans (by simp [reuse, hs, hc, taken]))

theorem allocate_reuse (hh : a.freeHead = some id) (hl : a.freeLink id = some next)
    (hc : 0 < a.freeCount) :
    a.allocate h x z = .ok id (a.taken id next (.fresh h x)) := by
  rw [freeLink_eq_some] at hl
  have hne : a.freeCount ≠ 0 := Nat.ne_of_gt hc
  simp [allocate, hh, reuse, hl, hne, taken]

theorem reserve_ok (hz : SlotSize.bytes α * maxBlockEntries < wordLimit)
    (hle : a.carved ≤ maxEntries) (z : Sizing) :
    ∃ r bs, (if a.slots.size < a.reserved then .ok () a else a.reserveBlock z) =
      .ok () (a.withBlocks r bs) := by
  split
  · exact ⟨a.reserved, a.blocks, rfl⟩
  · rename_i hr
    obtain ⟨n, hn⟩ := blockEntries_ok hz z
    obtain ⟨-, hnle⟩ := blockEntries_bounds hn
    have hw := z.wanted_le
    have hadd : addWord a.reserved n = .ok (a.reserved + n) := addWord_eq_ok.mpr
      ⟨rfl, by simp only [carved, maxEntries, maxBlockEntries, wordLimit] at *; omega⟩
    exact ⟨a.reserved + n, a.blocks.push n, by simp [reserveBlock, hn, hadd, withBlocks]⟩

theorem allocate_carve (hz : SlotSize.bytes α * maxBlockEntries < wordLimit)
    (hh : a.freeHead = none) (hid : EntryId.ofIndex? a.carved = some id) :
    ∃ r bs, a.allocate h x z = .ok id ((a.extend (.fresh h x)).withBlocks r bs) := by
  have hlt := id.index_lt
  have hindex := EntryId.ofIndex?_eq_some.mp hid
  obtain ⟨r, bs, hb⟩ := a.reserve_ok hz (by omega) z
  simp only [carved] at hid
  exact ⟨r, bs, by simp [allocate, hh, carve, hb, hid, extend, withBlocks]⟩

theorem allocate_full (hz : SlotSize.bytes α * maxBlockEntries < wordLimit)
    (hh : a.freeHead = none) (hfull : a.carved = maxEntries) :
    ∃ r bs, a.allocate h x z = .fail (.slotLimit a.carved) (a.withBlocks r bs) := by
  obtain ⟨r, bs, hb⟩ := a.reserve_ok hz (Nat.le_of_eq hfull) z
  have hid : EntryId.ofIndex? a.slots.size = none :=
    EntryId.ofIndex?_eq_none.mpr (Nat.le_of_eq hfull.symm)
  exact ⟨r, bs, by simp [allocate, hh, carve, hb, hid, withBlocks, carved]⟩

end

/-- What freeing can do: it refuses, or it releases a live entry that is not shared, or it bends
the link of a slot that is free already. -/
theorem free_cases (a : Arena α) (id : EntryId) :
    (∃ f, a.free id = .fail f a) ∨
    (∃ e, a.get? id = some e ∧ e.isShared = false ∧
      a.free id = .ok e.literal (a.released id)) ∨
    ∃ next, a.freeLink id = some next ∧
      a.free id = .fail (.freedTwice id) (a.withFree id a.freeHead) := by
  cases hs : a.slots[id.index]? with
  | none => exact .inl ⟨.neverAllocated id, by simp [free, hs]⟩
  | some s =>
    cases s with
    | free next => exact .inr (.inr ⟨next, freeLink_eq_some.mpr hs, by simp [free, hs, withFree]⟩)
    | occupied e =>
      by_cases he : e.isShared = true
      · exact .inl ⟨.sharedFreed id, by simp [free, hs, he]⟩
      · refine .inr (.inl ⟨e, get?_eq_some.mpr hs, by simpa using he, ?_⟩)
        simp [free, hs, he, released, withFree]

theorem free_live (hid : a.get? id = some e) (hs : e.isShared = false) :
    a.free id = .ok e.literal (a.released id) := by
  rw [get?_eq_some] at hid
  simp [free, hid, hs, released, withFree]

theorem free_freed (hid : a.freeLink id = some next) :
    a.free id = .fail (.freedTwice id) (a.withFree id a.freeHead) := by
  rw [freeLink_eq_some] at hid
  simp [free, hid, withFree]

/-- The free list is `free`, and it holds every free slot. -/
structure Threaded (a : Arena α) (free : List EntryId) : Prop where
  path : Path a.freeLink a.freeHead free none
  all : ∀ id, (a.freeLink id).isSome → id ∈ free
  count : a.freeCount = free.length
  carved_le : a.carved ≤ maxEntries

theorem threaded_empty : (empty : Arena α).Threaded [] where
  path := rfl
  all id hid := by simp [freeLink, empty] at hid
  count := rfl
  carved_le := Nat.zero_le _

theorem Threaded.mem_iff (ht : a.Threaded free) : id ∈ free ↔ (a.freeLink id).isSome :=
  ⟨fun hid => ht.path.isSome hid, ht.all id⟩

theorem Threaded.get?_none (ht : a.Threaded free) (hid : id ∈ free) : a.get? id = none := by
  obtain ⟨n, hn⟩ := Option.isSome_iff_exists.mp (ht.mem_iff.mp hid)
  exact get?_of_freeLink hn

theorem Threaded.carved_iff (ht : a.Threaded free) :
    id.index < a.carved ↔ (a.get? id).isSome ∨ id ∈ free := by
  constructor
  · intro hid
    rcases live_or_free hid with ⟨e, he⟩ | ⟨n, hn⟩
    · exact .inl (by simp [he])
    · exact .inr (ht.mem_iff.mpr (by simp [hn]))
  · intro h
    rcases h with hid | hid
    · obtain ⟨e, he⟩ := Option.isSome_iff_exists.mp hid
      exact index_lt_of_get? he
    · obtain ⟨n, hn⟩ := Option.isSome_iff_exists.mp (ht.mem_iff.mp hid)
      exact index_lt_of_freeLink hn

theorem Threaded.free_eq (ha : a.Threaded free) (hb : b.Threaded free) :
    b.freeLink = a.freeLink ∧ b.freeHead = a.freeHead ∧ b.freeCount = a.freeCount := by
  refine ⟨funext fun id => ?_, hb.path.head?.trans ha.path.head?.symm, hb.count.trans ha.count.symm⟩
  by_cases hid : id ∈ free
  · obtain ⟨xs, ys, rfl⟩ := List.append_of_mem hid
    rw [ha.path.link_of_append, hb.path.link_of_append]
  · have hnone : ∀ {c : Arena α}, c.Threaded free → c.freeLink id = none := fun hc =>
      Option.not_isSome_iff_eq_none.mp fun hsome => hid (hc.all id hsome)
    rw [hnone ha, hnone hb]

theorem Threaded.relinked (ht : a.Threaded free) (hab : Relinked a b) : b.Threaded free where
  path := by simpa [hab.freeLink, hab.freeHead] using ht.path
  all id hid := ht.all id (by simpa [hab.freeLink] using hid)
  count := hab.freeCount.trans ht.count
  carved_le := by rw [hab.carved]; exact ht.carved_le

theorem Threaded.store (ht : a.Threaded free) (e' : Entry α) (hid : a.get? id = some e) :
    (a.store id e').Threaded free where
  path := by simpa [freeLink_store_live e' hid] using ht.path
  all i hi := ht.all i (by simpa [freeLink_store_live e' hid] using hi)
  count := ht.count
  carved_le := by simpa using ht.carved_le

theorem Threaded.taken (ht : a.Threaded (id :: free)) (hl : a.freeLink id = some next)
    (e : Entry α) : (a.taken id next e).Threaded free where
  path := by
    obtain ⟨-, m, hm, hr⟩ := ht.path
    obtain rfl := Option.some.inj (hm.symm.trans hl)
    have hnd := List.nodup_cons.mp ht.path.nodup
    refine hr.congr fun i hi => ?_
    have hne : i ≠ id := fun he => hnd.1 (he ▸ hi)
    rw [freeLink_taken e (index_lt_of_freeLink hl), if_neg hne]
  all i hi := by
    rw [freeLink_taken e (index_lt_of_freeLink hl)] at hi
    split at hi
    · simp at hi
    · rename_i hne
      exact (List.mem_cons.mp (ht.all i hi)).resolve_left hne
  count := by simp [Arena.taken, ht.count]
  carved_le := by simpa using ht.carved_le

theorem Threaded.released (ht : a.Threaded free) (hid : a.get? id = some e) :
    (a.released id).Threaded (id :: free) where
  path := by
    refine ⟨rfl, a.freeHead, by simp [freeLink_released (index_lt_of_get? hid)], ?_⟩
    refine ht.path.congr fun i hi => ?_
    have hne : i ≠ id := by
      intro heq
      subst heq
      simp [ht.get?_none hi] at hid
    rw [freeLink_released (index_lt_of_get? hid), if_neg hne]
  all i hi := by
    rw [freeLink_released (index_lt_of_get? hid)] at hi
    split at hi
    · rename_i he
      simp [he]
    · exact List.mem_cons_of_mem _ (ht.all i hi)
  count := by simp [Arena.released, ht.count]
  carved_le := by simpa using ht.carved_le

theorem Threaded.withBlocks (ht : a.Threaded free) : (a.withBlocks r bs).Threaded free :=
  ⟨ht.path, ht.all, ht.count, ht.carved_le⟩

theorem Threaded.extend (ht : a.Threaded free) (hlt : a.carved < maxEntries) :
    (a.extend e).Threaded free where
  path := by
    rw [freeLink_extend]
    exact ht.path
  all i hi := ht.all i (by simpa using hi)
  count := ht.count
  carved_le := by
    rw [carved_extend]
    omega

theorem Threaded.update (ht : a.Threaded free) (id : EntryId) (f : Entry α → Entry α) :
    (a.update id f).state.Threaded free := by
  cases he : a.get? id with
  | none => simpa [update_dead he] using ht
  | some e => simpa [update_live he] using ht.store (f e) he

theorem Threaded.allocate [SlotSize α] (hz : SlotSize.bytes α * maxBlockEntries < wordLimit)
    (ht : a.Threaded free) (hid : takeId free a.carved = some (id, rest, n)) :
    ∃ b, a.allocate h x z = .ok id b ∧ b.Threaded rest ∧ b.carved = n ∧ a.get? id = none ∧
      ∀ i, b.get? i = if i = id then some (.fresh h x) else a.get? i := by
  cases free with
  | nil =>
    obtain ⟨j, hj, heq⟩ := Option.map_eq_some_iff.mp hid
    obtain ⟨rfl, rfl, rfl⟩ : j = id ∧ [] = rest ∧ a.carved + 1 = n := by simpa using heq
    have hindex := (EntryId.ofIndex?_eq_some.mp hj).symm
    have hlt := j.index_lt
    obtain ⟨r, bs, ha⟩ := allocate_carve (h := h) (x := x) (z := z) hz ht.path hj
    refine ⟨_, ha, (ht.extend (by omega)).withBlocks, ?_, get?_of_carved_le (by omega), fun i => ?_⟩
    · simp
    · simp [get?_extend _ hindex]
  | cons i free =>
    obtain ⟨rfl, rfl, rfl⟩ : i = id ∧ free = rest ∧ a.carved = n := by simpa [takeId] using hid
    obtain ⟨hh, m, hm, -⟩ := ht.path
    have hcount : 0 < a.freeCount := by simp [ht.count]
    refine ⟨_, allocate_reuse hh hm hcount, ht.taken hm _, carved_taken, get?_of_freeLink hm, ?_⟩
    exact fun i => get?_taken _ (index_lt_of_freeLink hm)

end Arena

end ChainedTable
