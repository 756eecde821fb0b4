import ChainedTable.Proofs.Table.Counted
import ChainedTable.Registry

set_option autoImplicit false

namespace ChainedTable

variable {α : Type}

namespace Arena

variable {a : Arena α} {id : EntryId}

def contentsOf (a : Arena α) (ids : List EntryId) : Finmap fun _ : EntryId => Content α :=
  ids.foldr (fun id s => match a.content? id with
    | some c => s.insert id c
    | none => s) ∅

theorem lookup_contentsOf (a : Arena α) (ids : List EntryId) (id : EntryId) :
    (a.contentsOf ids).lookup id = if id ∈ ids then a.content? id else none := by
  induction ids with
  | nil => simp [contentsOf]
  | cons i ids ih =>
    rw [contentsOf, List.foldr_cons, ← contentsOf]
    by_cases hi : id = i
    · subst hi
      cases hc : a.content? id with
      | some c => simp
      | none => simp [ih, hc]
    · cases hc : a.content? i with
      | some c => simp [hi, ih]
      | none => simp [hi, ih]

def contents (a : Arena α) : Finmap fun _ : EntryId => Content α :=
  a.contentsOf ((List.range a.carved).filterMap EntryId.ofIndex?)

theorem lookup_contents (a : Arena α) (id : EntryId) : a.contents.lookup id = a.content? id := by
  have hmem : id ∈ (List.range a.carved).filterMap EntryId.ofIndex? ↔ id.index < a.carved := by
    simp [List.mem_filterMap, EntryId.ofIndex?_eq_some]
  rw [contents, lookup_contentsOf]
  split
  · rfl
  · rename_i hid
    rw [hmem, Nat.not_lt] at hid
    rw [content?, get?_of_carved_le hid]
    rfl

def idsLeft (a : Arena α) : Nat := a.freeCount + (maxEntries - a.carved)

end Arena

namespace Ledger

variable {m m' m₁ : Ledger α} {id : EntryId} {c : Content α} {g : Growth}

def idsLeft (m : Ledger α) : Nat := m.freed.length + (maxEntries - m.next)

theorem exists_take? (h : 0 < m.idsLeft) : ∃ id m', m.take? = some (id, m') := by
  have hsome : m.take?.isSome := by
    rw [isSome_take?, ← List.length_pos_iff]
    simp only [idsLeft] at h
    omega
  obtain ⟨⟨id, m'⟩, hm⟩ := Option.isSome_iff_exists.mp hsome
  exact ⟨id, m', hm⟩

theorem idsLeft_take? (h : m.take? = some (id, m')) : m'.idsLeft + 1 = m.idsLeft := by
  obtain ⟨freed, next, htake, rfl⟩ := take?_eq_some.mp h
  exact takeId_left htake

theorem freed_grow [Memory] (m : Ledger α) (g : Growth) : (m.grow g).freed = m.freed := by
  cases g with
  | growTo n =>
    rw [grow, resizeTo]
    split <;> rfl
  | atLimit => rfl
  | belowLoad => rfl

theorem next_grow [Memory] (m : Ledger α) (g : Growth) : (m.grow g).next = m.next := by
  cases g with
  | growTo n =>
    rw [grow, resizeTo]
    split <;> rfl
  | atLimit => rfl
  | belowLoad => rfl

structure SameStock (m m' : Ledger α) : Prop where
  entries : m'.entries = m.entries
  freed : m'.freed = m.freed
  next : m'.next = m.next
  linked : ∀ id, id ∈ m'.linked ↔ id ∈ m.linked

namespace SameStock

theorem refl (m : Ledger α) : m.SameStock m := ⟨rfl, rfl, rfl, fun _ => .rfl⟩

theorem symm (h : m.SameStock m') : m'.SameStock m :=
  ⟨h.entries.symm, h.freed.symm, h.next.symm, fun id => (h.linked id).symm⟩

theorem trans (h : m.SameStock m') (k : m'.SameStock m₁) : m.SameStock m₁ :=
  ⟨k.entries.trans h.entries, k.freed.trans h.freed, k.next.trans h.next,
    fun id => (k.linked id).trans (h.linked id)⟩

theorem grow [Memory] (m : Ledger α) (g : Growth) : m.SameStock (m.grow g) :=
  ⟨entries_grow g, m.freed_grow g, m.next_grow g, fun _ => mem_linked_grow g⟩

theorem hash (h : m.SameStock m') : m'.hash = m.hash := by
  funext id
  rw [Ledger.hash, Ledger.hash, h.entries]

theorem idsLeft (h : m.SameStock m') : m'.idsLeft = m.idsLeft := by
  rw [Ledger.idsLeft, Ledger.idsLeft, h.freed, h.next]

theorem take? (h : m.SameStock m') (hm : m.take? = some (id, m₁)) :
    ∃ m₁', m'.take? = some (id, m₁') ∧ m₁.SameStock m₁' := by
  obtain ⟨freed, next, htake, rfl⟩ := take?_eq_some.mp hm
  rw [← h.freed, ← h.next] at htake
  exact ⟨_, take?_eq_some.mpr ⟨freed, next, htake, rfl⟩, h.entries, rfl, rfl, h.linked⟩

theorem insert (h : m.SameStock m') {i j : Nat} (hi : i < m.buckets.length)
    (hj : j < m'.buckets.length) :
    ((m.put id c).link i id).SameStock ((m'.put id c).link j id) where
  entries := congrArg (·.insert id c) h.entries
  freed := h.freed
  next := h.next
  linked k := by
    rw [mem_linked_link (m := m.put id c) hi, mem_linked_link (m := m'.put id c) hj, linked_put,
      linked_put, h.linked]

end SameStock

end Ledger

namespace Table

variable {t u : Table α} {m m' m₁ : Ledger α} {id : EntryId} {c : Content α} {h : UInt32} {x : α}
  {chains : Nat → List EntryId} {free : List EntryId}

theorem Arranged.represents (h : t.Arranged chains) (hthr : t.arena.Threaded free)
    (hplaced : ∀ {i : Nat} {id : EntryId}, id ∈ chains i → t.bucketOf id = i) :
    ∃ m, t.Represents m ∧ m.linked = t.linked chains := by
  let m : Ledger α := ⟨(List.range t.size).map chains, t.arena.contents, free, t.arena.carved⟩
  have hchain : m.chain = chains := by
    funext i
    rcases Nat.lt_or_ge i t.size with hi | hi
    · simp [m, Ledger.chain, hi]
    · have hnil : chains i = [] := by
        apply List.eq_nil_iff_forall_not_mem.mpr
        intro id hid
        exact Nat.not_lt.mpr hi (h.lt_size hid)
      simp [m, Ledger.chain, hi, hnil]
  refine ⟨m, ⟨by simp [m], by rwa [hchain], fun id => (t.arena.lookup_contents id).symm, hthr, rfl,
    ?_⟩, ?_⟩
  · intro i id hid
    rw [hchain] at hid
    exact hplaced hid
  · rw [Ledger.linked, Table.linked, List.flatMap_def]

namespace Represents

theorem idsLeft (hr : t.Represents m) : t.arena.idsLeft = m.idsLeft := by
  rw [Arena.idsLeft, Ledger.idsLeft, hr.threaded.count, hr.carved]

/-- Tables of one size with the same stock have the same ids on each chain. -/
theorem chains_perm (hr : t.Represents m) (hu : u.Represents m') (hs : m.SameStock m')
    (hsize : u.size = t.size) (i : Nat) : (m'.chain i).Perm (m.chain i) := by
  refine (List.perm_ext_iff_of_nodup (hu.arranged.nodup i) (hr.arranged.nodup i)).mpr fun id => ?_
  rw [hu.mem_chain_iff, hr.mem_chain_iff, hs.linked, hs.hash, hsize]

end Represents

def enroll [SlotSize α] [Memory] (p : GrowthPolicy) (t : Table α) (hash : UInt32) (literal : α) :
    Outcome (Table α) EntryId :=
  (t.newEntry hash literal).bind fun id t => t.register p hash id

theorem enroll_eq [SlotSize α] [Memory] (p : GrowthPolicy) (t : Table α) (h : UInt32) (x : α) :
    t.enroll p h x =
      (t.insert h x).bind fun id t => (t.maybeGrow p.maxSize p.load).map fun _ => id := by
  simp only [enroll, insert, register]
  cases t.newEntry h x with
  | fail f u => rfl
  | ok id v =>
    simp only [Outcome.bind_ok]
    cases v.addEntry (v.hashToIndex h) id <;> rfl

end Table

end ChainedTable
