import ChainedTable.Proofs.Arena.Inventory
import ChainedTable.Table.Resize

set_option autoImplicit false

/-!
Ledgers: a table as plain data, with a list of ids for every bucket, a finite map from ids to the
contents of their entries, a stack of freed ids and the id that is carved next. There are no links,
so every operation is one on lists and on the map.
-/

namespace ChainedTable

structure Ledger (α : Type) where
  buckets : List (List EntryId)
  entries : Finmap fun _ : EntryId => Content α
  freed : List EntryId
  next : Nat

variable {α : Type}

namespace Ledger

def start (size : Nat) : Ledger α := ⟨List.replicate size [], ∅, [], 0⟩

def chain (m : Ledger α) (i : Nat) : List EntryId := m.buckets.getD i []

def linked (m : Ledger α) : List EntryId := m.buckets.flatten

def hash (m : Ledger α) (id : EntryId) : UInt32 := ((m.entries.lookup id).map Content.hash).getD 0

def index (m : Ledger α) (hash : UInt32) : Nat := hash.toNat % m.buckets.length

def take? (m : Ledger α) : Option (EntryId × Ledger α) :=
  (takeId m.freed m.next).map fun (id, freed, next) => (id, { m with freed := freed, next := next })

def put (m : Ledger α) (id : EntryId) (c : Content α) : Ledger α :=
  { m with entries := m.entries.insert id c }

def link (m : Ledger α) (i : Nat) (id : EntryId) : Ledger α :=
  { m with buckets := m.buckets.modify i (id :: ·) }

def unlink (m : Ledger α) (i : Nat) (id : EntryId) : Ledger α :=
  { m with buckets := m.buckets.modify i (·.erase id) }

def recycle (m : Ledger α) (id : EntryId) : Ledger α :=
  { m with entries := m.entries.erase id, freed := id :: m.freed }

/-- Puts every id, in bucket order, in front of the list of its hash among `size` empty lists. -/
def resize (m : Ledger α) (size : Nat) : Ledger α :=
  { m with
    buckets := m.linked.foldl (fun bs id => bs.modify ((m.hash id).toNat % size) (id :: ·))
      (List.replicate size []) }

def resizeTo [Memory] (m : Ledger α) (size : Nat) : Ledger α :=
  if Allocatable size then m.resize size else m

def grow [Memory] (m : Ledger α) : Growth → Ledger α
  | .growTo size => m.resizeTo size
  | _ => m

variable {m m' : Ledger α} {id j : EntryId} {c : Content α} {i n : Nat}

theorem take?_eq_some :
    m.take? = some (id, m') ↔
      ∃ freed next, takeId m.freed m.next = some (id, freed, next) ∧
        m' = { m with freed := freed, next := next } := by
  simp only [take?, Option.map_eq_some_iff, Prod.exists, Prod.mk.injEq]
  constructor
  · intro ⟨j, freed, next, h, hj, hm⟩
    subst hj
    exact ⟨freed, next, h, hm.symm⟩
  · intro ⟨freed, next, h, hm⟩
    exact ⟨id, freed, next, h, rfl, hm.symm⟩

theorem isSome_take? : m.take?.isSome ↔ m.freed ≠ [] ∨ m.next < maxEntries := by
  rw [take?, Option.isSome_map, isSome_takeId]

theorem take?_same (h : m.take? = some (id, m')) :
    m'.buckets = m.buckets ∧ m'.entries = m.entries := by
  obtain ⟨freed, next, -, rfl⟩ := take?_eq_some.mp h
  exact ⟨rfl, rfl⟩

theorem lookup_put :
    (m.put id c).entries.lookup j = if j = id then some c else m.entries.lookup j :=
  lookup_insert_ite

theorem exists_lookup_put (h : ∃ d, m.entries.lookup j = some d) :
    ∃ d, (m.put id c).entries.lookup j = some d := by
  rw [lookup_put]
  split
  · exact ⟨c, rfl⟩
  · exact h

theorem lookup_recycle :
    (m.recycle id).entries.lookup j = if j = id then none else m.entries.lookup j :=
  lookup_erase_ite

theorem chain_of_le (h : m.buckets.length ≤ i) : m.chain i = [] := by
  simp [chain, List.getElem?_eq_none h]

theorem lt_of_mem_chain (h : id ∈ m.chain i) : i < m.buckets.length := by
  apply Nat.lt_of_not_le
  intro hi
  simp [chain_of_le hi] at h

theorem chain_modify (f : List EntryId → List EntryId) (hi : i < m.buckets.length) :
    chain { m with buckets := m.buckets.modify i f } =
      Function.update m.chain i (f (m.chain i)) := by
  funext k
  by_cases hk : k = i
  · subst hk
    simp [chain, hi]
  · simp [chain, hk, Ne.symm hk]

theorem chain_link (hi : i < m.buckets.length) :
    (m.link i id).chain = Function.update m.chain i (id :: m.chain i) := chain_modify _ hi

theorem chain_unlink (hi : i < m.buckets.length) :
    (m.unlink i id).chain = Function.update m.chain i ((m.chain i).erase id) := chain_modify _ hi

theorem linked_eq (m : Ledger α) : m.linked = (List.range m.buckets.length).flatMap m.chain := by
  have hb : (List.range m.buckets.length).map m.chain = m.buckets := by
    apply List.ext_getElem
    · simp
    · intro k hk _
      have hk : k < m.buckets.length := by simpa using hk
      simp [chain, hk]
  rw [List.flatMap_def, hb, linked]

theorem mem_linked : id ∈ m.linked ↔ ∃ i, id ∈ m.chain i := by
  simp only [linked_eq, List.mem_flatMap, List.mem_range]
  exact ⟨fun ⟨i, _, h⟩ => ⟨i, h⟩, fun ⟨i, h⟩ => ⟨i, lt_of_mem_chain h, h⟩⟩

theorem getD_foldl_modify (f : EntryId → Nat) (ids : List EntryId) {bs : List (List EntryId)}
    (h : ∀ id ∈ ids, f id < bs.length) (k : Nat) :
    (ids.foldl (fun bs id => bs.modify (f id) (id :: ·)) bs).getD k [] =
      (ids.filter fun id => f id = k).reverse ++ bs.getD k [] := by
  induction ids generalizing bs with
  | nil => rfl
  | cons id ids ih =>
    have hid : f id < bs.length := h id (by simp)
    rw [List.foldl_cons, ih fun j hj => by simpa using h j (by simp [hj])]
    by_cases hk : f id = k
    · subst hk
      simp [hid]
    · simp [hk]

theorem length_foldl_modify (f : EntryId → Nat) (ids : List EntryId) (bs : List (List EntryId)) :
    (ids.foldl (fun bs id => bs.modify (f id) (id :: ·)) bs).length = bs.length := by
  induction ids generalizing bs with
  | nil => rfl
  | cons id ids ih => simp [ih]

@[simp] theorem length_resize : (m.resize n).buckets.length = n := by
  simp [resize, length_foldl_modify]

theorem chain_resize (hn : 0 < n) (i : Nat) :
    (m.resize n).chain i = (m.linked.filter fun id => (m.hash id).toNat % n = i).reverse := by
  have hlt : ∀ id ∈ m.linked,
      (m.hash id).toNat % n < (List.replicate n ([] : List EntryId)).length := by
    intro id _
    simpa using Nat.mod_lt _ hn
  have hd := getD_foldl_modify (fun id => (m.hash id).toNat % n) m.linked hlt i
  have hempty : (List.replicate n ([] : List EntryId)).getD i [] = [] := by
    by_cases hi : i < n <;> simp [hi]
  rw [hempty, List.append_nil] at hd
  exact hd

@[simp] theorem linked_put : (m.put id c).linked = m.linked := rfl

theorem linked_made (h : m.take? = some (id, m')) : (m'.put j c).linked = m.linked := by
  rw [linked_put, linked, (take?_same h).1, linked]

@[simp] theorem linked_recycle : (m.recycle id).linked = m.linked := rfl

theorem mem_linked_link (hi : i < m.buckets.length) :
    j ∈ (m.link i id).linked ↔ j = id ∨ j ∈ m.linked := by
  rw [mem_linked, mem_linked, chain_link hi]
  constructor
  · intro ⟨k, hk⟩
    rw [Function.update_apply] at hk
    split at hk
    · exact (List.mem_cons.mp hk).imp_right fun hj => ⟨i, hj⟩
    · exact .inr ⟨k, hk⟩
  · intro h
    rcases h with rfl | ⟨k, hk⟩
    · exact ⟨i, by simp⟩
    · refine ⟨k, ?_⟩
      rw [Function.update_apply]
      split
      · rename_i hki
        exact List.mem_cons_of_mem _ (hki ▸ hk)
      · exact hk

theorem mem_linked_resize (hn : 0 < n) : j ∈ (m.resize n).linked ↔ j ∈ m.linked := by
  rw [mem_linked]
  simp [chain_resize hn]

theorem mem_linked_resizeTo [Memory] : j ∈ (m.resizeTo n).linked ↔ j ∈ m.linked := by
  rw [resizeTo]
  split
  · rename_i hn
    exact mem_linked_resize hn.1
  · rfl

theorem entries_resizeTo [Memory] : (m.resizeTo n).entries = m.entries := by
  rw [resizeTo]
  split <;> rfl

theorem mem_linked_grow [Memory] (g : Growth) : j ∈ (m.grow g).linked ↔ j ∈ m.linked := by
  cases g with
  | growTo n => exact mem_linked_resizeTo
  | atLimit => rfl
  | belowLoad => rfl

theorem entries_grow [Memory] (g : Growth) : (m.grow g).entries = m.entries := by
  cases g with
  | growTo n => exact entries_resizeTo
  | atLimit => rfl
  | belowLoad => rfl

@[simp] theorem linked_start (n : Nat) : (start n : Ledger α).linked = [] := by
  simp [start, linked]

@[simp] theorem chain_start (n i : Nat) : (start n : Ledger α).chain i = [] := by
  by_cases hi : i < n <;> simp [start, chain, hi]

end Ledger

end ChainedTable
