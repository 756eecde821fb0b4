import ChainedTable.Arena.Walk
import ChainedTable.Proofs.Path

set_option autoImplicit false

namespace ChainedTable

/-- What an entry holds besides its link. -/
structure Content (α : Type) where
  hash : UInt32
  literal : α
  shared : Bool
  deriving DecidableEq

variable {α : Type}

def Entry.content (e : Entry α) : Content α := ⟨e.hash, e.literal, e.isShared⟩

@[simp] theorem Entry.content_redirect (e : Entry α) (n : Option EntryId) :
    (e.redirect n).content = e.content := by simp [content]

@[simp] theorem Entry.content_fresh (h : UInt32) (x : α) :
    (fresh h x).content = ⟨h, x, false⟩ := by simp [content]

@[simp] theorem Entry.content_setShared (e : Entry α) :
    e.setShared.content = ⟨e.hash, e.literal, true⟩ := by simp [content]

@[simp] theorem Entry.content_setLiteral (e : Entry α) (x : α) :
    (e.setLiteral x).content = ⟨e.hash, x, e.isShared⟩ := by simp [content]

namespace Arena

def content? (a : Arena α) (id : EntryId) : Option (Content α) := (a.get? id).map Entry.content

def link (a : Arena α) : Links := fun id => (a.get? id).map Entry.next

def freeLink (a : Arena α) : Links := fun id =>
  match a.slots[id.index]? with
  | some (.free next) => some next
  | _ => none

def withFree (a : Arena α) (id : EntryId) (next : Option EntryId) : Arena α :=
  { a with slots := a.slots.setIfInBounds id.index (.free next) }

def Numbered (a : Arena α) : Prop := a.carved ≤ maxEntries

def extend (a : Arena α) (e : Entry α) : Arena α := { a with slots := a.slots.push (.occupied e) }

variable {a b c : Arena α} {id i : EntryId} {e : Entry α} {next : Option EntryId}

theorem freeLink_eq_some :
    a.freeLink id = some next ↔ a.slots[id.index]? = some (.free next) := by
  simp only [freeLink]
  split <;> simp_all

theorem content?_eq_some {x : Content α} :
    a.content? id = some x ↔ ∃ e, a.get? id = some e ∧ e.content = x := by simp [content?]

theorem link_eq_some : a.link id = some next ↔ ∃ e, a.get? id = some e ∧ e.next = next := by
  simp [link]

theorem link_eq_none : a.link id = none ↔ a.get? id = none := by simp [link]

theorem get?_eq_of_content?_link (hc : b.content? id = a.content? id) (hl : b.link id = a.link id) :
    b.get? id = a.get? id := by
  cases ha : a.get? id with
  | none => simpa [content?, ha] using hc
  | some e =>
    rw [content?, content?, ha, Option.map_some] at hc
    obtain ⟨e', hb, hee⟩ := Option.map_eq_some_iff.mp hc
    obtain ⟨hhash, hlit, hshared⟩ := Content.mk.inj hee
    rw [link, link, ha, hb, Option.map_some, Option.map_some, Option.some.injEq] at hl
    rw [hb, Entry.ext_reading hhash hl hshared hlit]

theorem link_of_get? (h : a.get? id = some e) : a.link id = some e.next := by simp [link, h]

theorem content?_of_get? (h : a.get? id = some e) : a.content? id = some e.content := by
  simp [content?, h]

theorem isSome_content? : (a.content? id).isSome = (a.get? id).isSome := by simp [content?]

theorem content?_eq_none : a.content? id = none ↔ a.get? id = none := by simp [content?]

theorem content?_fresh {h : UInt32} {x : α}
    (hget : ∀ i, b.get? i = if i = id then some (.fresh h x) else a.get? i) :
    b.content? i = if i = id then some ⟨h, x, false⟩ else a.content? i := by
  rw [content?, hget]
  split
  · simp
  · rfl

theorem freeLink_of_get? (h : a.get? id = some e) : a.freeLink id = none := by
  rw [get?_eq_some] at h
  simp [freeLink, h]

theorem get?_of_freeLink (h : a.freeLink id = some next) : a.get? id = none := by
  rw [freeLink_eq_some] at h
  simp [get?, h, Slot.entry?]

theorem index_lt_of_freeLink (h : a.freeLink id = some next) : id.index < a.carved := by
  rw [freeLink_eq_some, Array.getElem?_eq_some_iff] at h
  exact h.1

theorem get?_of_carved_le (h : a.carved ≤ id.index) : a.get? id = none := by
  simp only [carved] at h
  simp [get?, Array.getElem?_eq_none h]

theorem live_or_free (h : id.index < a.carved) :
    (∃ e, a.get? id = some e) ∨ ∃ next, a.freeLink id = some next := by
  have hs : a.slots[id.index]? = some a.slots[id.index] := Array.getElem?_eq_getElem h
  cases hk : a.slots[id.index] with
  | occupied e => exact .inl ⟨e, get?_eq_some.mpr (hs.trans (by rw [hk]))⟩
  | free next => exact .inr ⟨next, freeLink_eq_some.mpr (hs.trans (by rw [hk]))⟩

theorem slot_eq (hget : b.get? id = a.get? id) (hfree : b.freeLink id = a.freeLink id)
    (hcarved : b.carved = a.carved) : b.slots[id.index]? = a.slots[id.index]? := by
  rcases Nat.lt_or_ge id.index a.carved with hlt | hge
  · rcases live_or_free hlt with ⟨e, he⟩ | ⟨next, hl⟩
    · rw [get?_eq_some.mp he, get?_eq_some.mp (hget.trans he)]
    · rw [freeLink_eq_some.mp hl, freeLink_eq_some.mp (hfree.trans hl)]
  · have hge' : b.carved ≤ id.index := hcarved ▸ hge
    rw [Array.getElem?_eq_none hge, Array.getElem?_eq_none hge']

/-- An arena in which every slot has an id is its entries, its free links and its counters. -/
theorem ext_reading (ha : a.Numbered) (hget : ∀ id, b.get? id = a.get? id)
    (hfree : b.freeLink = a.freeLink) (hcarved : b.carved = a.carved)
    (hhead : b.freeHead = a.freeHead) (hcount : b.freeCount = a.freeCount)
    (hreserved : b.reserved = a.reserved) (hblocks : b.blocks = a.blocks) : b = a := by
  have hslots : b.slots = a.slots := by
    apply Array.ext_getElem?
    intro k
    rcases Nat.lt_or_ge k a.carved with hlt | hge
    · have hk := EntryId.index_ofIndex (Nat.lt_of_lt_of_le hlt ha)
      rw [← hk]
      exact slot_eq (hget _) (congrFun hfree _) hcarved
    · have hge' : b.carved ≤ k := hcarved ▸ hge
      rw [Array.getElem?_eq_none hge, Array.getElem?_eq_none hge']
  cases a
  cases b
  simp_all

theorem link_store (e : Entry α) (h : id.index < a.carved) :
    (a.store id e).link i = if i = id then some e.next else a.link i := by
  rw [link, get?_store e h]
  split <;> rfl

theorem content?_store (e : Entry α) (h : id.index < a.carved) :
    (a.store id e).content? i = if i = id then some e.content else a.content? i := by
  rw [content?, get?_store e h]
  split <;> rfl

theorem freeLink_store (e : Entry α) (h : id.index < a.carved) :
    (a.store id e).freeLink i = if i = id then none else a.freeLink i := by
  simp only [carved] at h
  by_cases hi : i = id
  · subst hi
    simp [freeLink, store, h]
  · have hne : id.index ≠ i.index := fun he => hi (EntryId.index_inj.mp he).symm
    simp [freeLink, store, Array.getElem?_setIfInBounds_ne hne, hi]

theorem freeLink_store_live (e' : Entry α) (h : a.get? id = some e) :
    (a.store id e').freeLink = a.freeLink := by
  funext i
  rw [freeLink_store e' (index_lt_of_get? h)]
  split
  · rename_i hi
    rw [hi, freeLink_of_get? h]
  · rfl

theorem get?_withFree (h : id.index < a.carved) :
    (a.withFree id next).get? i = if i = id then none else a.get? i := by
  simp only [carved] at h
  by_cases hi : i = id
  · subst hi
    simp [get?, withFree, h, Slot.entry?]
  · have hne : id.index ≠ i.index := fun he => hi (EntryId.index_inj.mp he).symm
    simp [get?, withFree, Array.getElem?_setIfInBounds_ne hne, hi]

theorem freeLink_withFree (h : id.index < a.carved) :
    (a.withFree id next).freeLink i = if i = id then some next else a.freeLink i := by
  simp only [carved] at h
  by_cases hi : i = id
  · subst hi
    simp [freeLink, withFree, h]
  · have hne : id.index ≠ i.index := fun he => hi (EntryId.index_inj.mp he).symm
    simp [freeLink, withFree, Array.getElem?_setIfInBounds_ne hne, hi]

@[simp] theorem carved_withFree : (a.withFree id next).carved = a.carved := by
  simp [withFree, carved]

@[simp] theorem carved_extend : (a.extend e).carved = a.carved + 1 := by simp [extend, carved]

theorem get?_extend (e : Entry α) (h : id.index = a.carved) :
    (a.extend e).get? i = if i = id then some e else a.get? i := by
  simp only [carved] at h
  by_cases hi : i = id
  · subst hi
    simp [get?, extend, h, Slot.entry?]
  · have hne : i.index ≠ a.slots.size := fun he => hi (EntryId.index_inj.mp (he.trans h.symm))
    simp [get?, extend, Array.getElem?_push, hne, hi]

@[simp] theorem freeLink_extend : (a.extend e).freeLink = a.freeLink := by
  funext i
  by_cases hi : i.index = a.slots.size
  · simp [freeLink, extend, hi]
  · simp [freeLink, extend, Array.getElem?_push, hi]

/-- Nothing but links of live entries differs. -/
structure Relinked (a b : Arena α) : Prop where
  content? : ∀ id, b.content? id = a.content? id
  freeLink : b.freeLink = a.freeLink
  isFree : b.slots.map Slot.isFree = a.slots.map Slot.isFree
  freeHead : b.freeHead = a.freeHead
  freeCount : b.freeCount = a.freeCount
  reserved : b.reserved = a.reserved
  blocks : b.blocks = a.blocks

theorem Relinked.refl (a : Arena α) : Relinked a a := ⟨fun _ => rfl, rfl, rfl, rfl, rfl, rfl, rfl⟩

theorem Relinked.symm (h : Relinked a b) : Relinked b a :=
  ⟨fun id => (h.content? id).symm, h.freeLink.symm, h.isFree.symm, h.freeHead.symm,
    h.freeCount.symm, h.reserved.symm, h.blocks.symm⟩

theorem Relinked.trans (h : Relinked a b) (k : Relinked b c) : Relinked a c where
  content? id := (k.content? id).trans (h.content? id)
  freeLink := k.freeLink.trans h.freeLink
  isFree := k.isFree.trans h.isFree
  freeHead := k.freeHead.trans h.freeHead
  freeCount := k.freeCount.trans h.freeCount
  reserved := k.reserved.trans h.reserved
  blocks := k.blocks.trans h.blocks

theorem Relinked.carved (h : Relinked a b) : b.carved = a.carved := by
  have := congrArg Array.size h.isFree
  simpa [Arena.carved] using this

theorem Relinked.get? (h : Relinked a b) (hid : a.get? id = some e) :
    ∃ e', b.get? id = some e' ∧ e'.content = e.content :=
  content?_eq_some.mp ((h.content? id).trans (content?_of_get? hid))

theorem Relinked.get?_none (h : Relinked a b) (hid : a.get? id = none) : b.get? id = none := by
  have := h.content? id
  simpa [Arena.content?, hid] using this

theorem Relinked.get?_eq (h : Relinked a b) (hl : b.link id = a.link id) : b.get? id = a.get? id :=
  get?_eq_of_content?_link (h.content? id) hl

theorem isFree_store_live (e' : Entry α) (h : a.get? id = some e) :
    (a.store id e').slots.map Slot.isFree = a.slots.map Slot.isFree := by
  rw [get?_eq_some] at h
  apply Array.ext_getElem?
  intro k
  by_cases hk : id.index = k
  · subst hk
    obtain ⟨hlt, hs⟩ := Array.getElem?_eq_some_iff.mp h
    simp [store, hlt, hs, Slot.isFree]
  · simp [store, Array.getElem?_setIfInBounds_ne hk]

theorem relinked_store (n : Option EntryId) (h : a.get? id = some e) :
    Relinked a (a.store id (e.redirect n)) where
  content? i := by
    rw [content?_store _ (index_lt_of_get? h)]
    split
    · rename_i hi
      rw [hi, content?_of_get? h, Entry.content_redirect]
    · rfl
  freeLink := freeLink_store_live _ h
  isFree := isFree_store_live _ h
  freeHead := rfl
  freeCount := rfl
  reserved := rfl
  blocks := rfl

end Arena

end ChainedTable
