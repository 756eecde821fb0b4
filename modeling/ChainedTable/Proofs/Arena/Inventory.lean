import ChainedTable.Literal
import ChainedTable.Proofs.Arena.Runs
import Mathlib.Data.Finmap

set_option autoImplicit false

/-!
Inventories: an arena as plain data, with a finite map of the live entries, a stack of freed ids and
the index that is carved next. An arena refines its inventory: in a careful run from an empty arena
every call gives the answer of the inventory, and at every point all readers of the arena tell what
the inventory holds.
-/

namespace ChainedTable

variable {α : Type}

section
variable {κ β : Type} [DecidableEq κ] {s : Finmap fun _ : κ => β} {k i : κ} {b : β}

theorem lookup_insert_ite : (s.insert k b).lookup i = if i = k then some b else s.lookup i := by
  split
  · rename_i hi
    rw [hi]
    exact Finmap.lookup_insert _
  · rename_i hi
    exact Finmap.lookup_insert_of_ne _ hi

theorem lookup_erase_ite : (s.erase k).lookup i = if i = k then none else s.lookup i := by
  split
  · rename_i hi
    rw [hi]
    exact Finmap.lookup_erase _ _
  · rename_i hi
    exact Finmap.lookup_erase_ne hi

end

/-- A borrower leaves the shared flag as it is. Nothing but the table that makes an entry shared
does otherwise. -/
def Arena.Call.KeepsFlag : Arena.Call α → Prop
  | .getMut _ f => ∀ e, (f e).isShared = e.isShared
  | .indexMut _ f => ∀ e, (f e).isShared = e.isShared
  | _ => True

structure Inventory (α : Type) where
  live : Finmap fun _ : EntryId => Entry α
  freed : List EntryId
  next : Nat

namespace Inventory

def empty : Inventory α := ⟨∅, [], 0⟩

def allocate (m : Inventory α) (hash : UInt32) (literal : α) : Outcome (Inventory α) EntryId :=
  match takeId m.freed m.next with
  | some (id, freed, next) => .ok id ⟨m.live.insert id (.fresh hash literal), freed, next⟩
  | none => .fail (.slotLimit m.next) m

/-- Pushes a live id on the stack. An id that is not live is taken for one that never was. -/
def free (m : Inventory α) (id : EntryId) : Outcome (Inventory α) α :=
  match m.live.lookup id with
  | none => .fail (.neverAllocated id) m
  | some e =>
    if e.isShared then .fail (.sharedFreed id) m
    else .ok e.literal ⟨m.live.erase id, id :: m.freed, m.next⟩

def edit (m : Inventory α) (id : EntryId) (f : Entry α → Entry α) : Inventory α :=
  match m.live.lookup id with
  | some e => { m with live := m.live.insert id (f e) }
  | none => m

def lend (m : Inventory α) (id : EntryId) (f : Entry α → Entry α) :
    Outcome (Inventory α) (Arena.Reply α) :=
  match m.live.lookup id with
  | some e => .ok (.found (some e)) (m.edit id f)
  | none => .fail (.notAllocated id) m

def perform (m : Inventory α) : Arena.Call α → Outcome (Inventory α) (Arena.Reply α)
  | .allocate hash literal _ => (m.allocate hash literal).map .made
  | .free id => (m.free id).map .recycled
  | .get id => .ok (.found (m.live.lookup id)) m
  | .getMut id f => .ok (.found (m.live.lookup id)) (m.edit id f)
  | .index id => m.lend id fun e => e
  | .indexMut id f => m.lend id f

def run (m : Inventory α) (cs : List (Arena.Call α)) : Inventory α := Outcome.run perform m cs

def results (m : Inventory α) (cs : List (Arena.Call α)) : List (Except Fault (Arena.Reply α)) :=
  Outcome.results perform m cs

def Unshared (m : Inventory α) : Prop :=
  ∀ id e, m.live.lookup id = some e → e.isShared = false

variable {m : Inventory α} {id i : EntryId} {e : Entry α} {f : Entry α → Entry α}
  {c : Arena.Call α} {cs : List (Arena.Call α)}

theorem edit_live (h : m.live.lookup id = some e) :
    m.edit id f = { m with live := m.live.insert id (f e) } := by simp [edit, h]

theorem edit_dead (h : m.live.lookup id = none) : m.edit id f = m := by simp [edit, h]

namespace Unshared

theorem edit (hu : m.Unshared) (hf : ∀ e, (f e).isShared = e.isShared) (id : EntryId) :
    (m.edit id f).Unshared := by
  cases he : m.live.lookup id with
  | none => rwa [edit_dead he]
  | some e =>
    intro i e' hi
    rw [edit_live he, lookup_insert_ite] at hi
    split at hi
    · obtain rfl := Option.some.inj hi
      rw [hf, hu id e he]
    · exact hu i e' hi

theorem lend (hu : m.Unshared) (hf : ∀ e, (f e).isShared = e.isShared) (id : EntryId) :
    (m.lend id f).state.Unshared := by
  cases he : m.live.lookup id with
  | none => simpa [Inventory.lend, he] using hu
  | some e => simpa [Inventory.lend, he] using hu.edit hf id

theorem allocate (hu : m.Unshared) (h : UInt32) (x : α) : (m.allocate h x).state.Unshared := by
  cases ht : takeId m.freed m.next with
  | none => simpa [Inventory.allocate, ht] using hu
  | some t =>
    intro i e hi
    simp only [Inventory.allocate, ht, Outcome.state_ok, lookup_insert_ite] at hi
    split at hi
    · obtain rfl := Option.some.inj hi
      exact Entry.isShared_fresh h x
    · exact hu i e hi

theorem free (hu : m.Unshared) (id : EntryId) : (m.free id).state.Unshared := by
  cases he : m.live.lookup id with
  | none => simpa [Inventory.free, he] using hu
  | some e =>
    intro i e' hi
    simp only [Inventory.free, he, hu id e he, Bool.false_eq_true, ↓reduceIte, Outcome.state_ok,
      lookup_erase_ite] at hi
    split at hi
    · simp at hi
    · exact hu i e' hi

theorem perform (hu : m.Unshared) (hc : c.KeepsFlag) : (m.perform c).state.Unshared := by
  cases c with
  | allocate h x z => simpa [Inventory.perform] using hu.allocate h x
  | free id => simpa [Inventory.perform] using hu.free id
  | get id => exact hu
  | getMut id f => exact hu.edit hc id
  | index id => exact hu.lend (fun _ => rfl) id
  | indexMut id f => exact hu.lend hc id

theorem run (hu : m.Unshared) (hcs : ∀ c ∈ cs, c.KeepsFlag) : (m.run cs).Unshared := by
  induction cs generalizing m with
  | nil => exact hu
  | cons c cs ih =>
    obtain ⟨hc, hcs⟩ := List.forall_mem_cons.mp hcs
    exact ih (hu.perform hc) hcs

end Unshared

end Inventory

namespace Arena

structure Refines (a : Arena α) (m : Inventory α) : Prop where
  get? : ∀ id, a.get? id = m.live.lookup id
  threaded : a.Threaded m.freed
  carved : a.carved = m.next

structure Agrees (a : Arena α) (m : Inventory α) : Prop where
  get? : ∀ id, a.get? id = m.live.lookup id
  carved : a.carved = m.next
  free_ends : Path a.freeLink a.freeHead m.freed none
  freeList : a.freeList = m.freed
  free_nodup : a.freeList.Nodup
  free_count : a.freeList.length = a.freeCount
  dead_iff : ∀ id, a.get? id = none ↔ a.carved ≤ id.index ∨ id ∈ a.freeList
  liveCount : a.liveCount = m.live.keys.card
  /-- An id that was never allocated is refused, and nothing changes. -/
  free_never : ∀ id, a.carved ≤ id.index → a.free id = .fail (.neverAllocated id) a

variable {a : Arena α} {m : Inventory α} {id : EntryId} {c : Call α} {cs : List (Call α)}

theorem refines_empty : (empty : Arena α).Refines .empty where
  get? id := by simp [Inventory.empty]
  threaded := threaded_empty
  carved := rfl

theorem free_of_carved_le (h : a.carved ≤ id.index) :
    a.free id = .fail (.neverAllocated id) a := by
  simp only [carved] at h
  simp [free, Array.getElem?_eq_none h]

namespace Refines

theorem lookup (h : a.Refines m) {e : Entry α} (he : a.get? id = some e) :
    m.live.lookup id = some e := by rw [← h.get? id, he]

theorem edit (h : a.Refines m) (id : EntryId) (f : Entry α → Entry α) :
    (a.update id f).state.Refines (m.edit id f) := by
  have hfreed : (m.edit id f).freed = m.freed := by
    simp only [Inventory.edit]
    split <;> rfl
  have hnext : (m.edit id f).next = m.next := by
    simp only [Inventory.edit]
    split <;> rfl
  refine ⟨fun i => ?_, by rw [hfreed]; exact h.threaded.update id f, ?_⟩
  · rw [update_state_get?, h.get?, h.get?]
    cases he : m.live.lookup id with
    | none =>
      rw [Inventory.edit_dead he]
      split
      · rename_i hi
        rw [hi, he, Option.map_none]
      · rfl
    | some e => rw [Inventory.edit_live he, lookup_insert_ite]; rfl
  · rw [hnext, ← h.carved]
    cases he : a.get? id with
    | none => rw [update_dead he, Outcome.state_fail]
    | some e => rw [update_live he, Outcome.state_ok, carved_store]

theorem allocate [SlotSize α] (hz : SlotSize.bytes α * maxBlockEntries < wordLimit)
    (h : a.Refines m) (hash : UInt32) (x : α) (z : Sizing) :
    (a.allocate hash x z).result = (m.allocate hash x).result ∧
      (a.allocate hash x z).state.Refines (m.allocate hash x).state := by
  cases htake : takeId m.freed m.next with
  | some t =>
    obtain ⟨id, freed, next⟩ := t
    rw [← h.carved] at htake
    obtain ⟨b, hb, hthr, hcarved, -, hget⟩ :=
      h.threaded.allocate (h := hash) (x := x) (z := z) hz htake
    rw [h.carved] at htake
    simp only [hb, Inventory.allocate, htake, Outcome.result_ok, Outcome.state_ok, true_and]
    refine ⟨fun i => ?_, hthr, hcarved⟩
    rw [hget, lookup_insert_ite, h.get? i]
  | none =>
    -- the stack is empty and there is no index left
    cases hfreed : m.freed with
    | cons id freed => simp [takeId, hfreed] at htake
    | nil =>
      have hnone : EntryId.ofIndex? m.next = none := by simpa [takeId, hfreed] using htake
      have hle := EntryId.ofIndex?_eq_none.mp hnone
      have hcarved := h.carved
      have hlimit := h.threaded.carved_le
      have hhead : a.freeHead = none := by
        have hp := h.threaded.path
        rwa [hfreed] at hp
      obtain ⟨r, bs, ha⟩ := allocate_full (h := hash) (x := x) (z := z) hz hhead (by omega)
      simp only [ha, Inventory.allocate, htake, Outcome.result_fail, Outcome.state_fail, h.carved,
        true_and]
      exact ⟨h.get?, h.threaded.withBlocks, h.carved⟩

theorem free (h : a.Refines m) (hid : a.Spares (.free id)) :
    (a.free id).result = (m.free id).result ∧ (a.free id).state.Refines (m.free id).state := by
  have hlink := h.threaded.not_mem hid
  cases he : a.get? id with
  | some e =>
    have hm := h.lookup he
    cases hs : e.isShared with
    | true =>
      have ha : a.free id = .fail (.sharedFreed id) a := by
        rw [get?_eq_some] at he
        simp [Arena.free, he, hs]
      simp only [ha, Inventory.free, hm, hs, ↓reduceIte, Outcome.result_fail, Outcome.state_fail,
        true_and]
      exact h
    | false =>
      have hlt := index_lt_of_get? he
      simp only [free_live he hs, Inventory.free, hm, hs, Bool.false_eq_true, ↓reduceIte,
        Outcome.result_ok, Outcome.state_ok, true_and]
      refine ⟨fun i => ?_, h.threaded.released he, carved_released.trans h.carved⟩
      rw [get?_released hlt, lookup_erase_ite, h.get? i]
  | none =>
    have hm : m.live.lookup id = none := by rw [← h.get? id, he]
    have hle : a.carved ≤ id.index := by
      apply Nat.le_of_not_lt
      intro hlt
      rcases live_or_free hlt with ⟨e, he'⟩ | ⟨next, hl⟩
      · simp [he] at he'
      · simp [hlink] at hl
    simp only [free_of_carved_le hle, Inventory.free, hm, Outcome.result_fail, Outcome.state_fail,
      true_and]
    exact h

theorem lend [SlotSize α] (h : a.Refines m) (id : EntryId) (f : Entry α → Entry α) :
    (a.perform (.indexMut id f)).result = (m.lend id f).result ∧
      (a.perform (.indexMut id f)).state.Refines (m.lend id f).state := by
  have hedit := h.edit id f
  cases he : m.live.lookup id with
  | none =>
    have ha : a.get? id = none := by rw [h.get? id, he]
    rw [Inventory.edit_dead he] at hedit
    simpa [Arena.perform, Inventory.lend, he, update_dead ha] using hedit
  | some e =>
    have ha : a.get? id = some e := by rw [h.get? id, he]
    simpa [Arena.perform, Inventory.lend, he, ha, update_live ha] using hedit

/-- A call on the arena is the call on the inventory. -/
theorem perform [SlotSize α] (hz : SlotSize.bytes α * maxBlockEntries < wordLimit)
    (h : a.Refines m) (hc : a.Spares c) :
    (a.perform c).result = (m.perform c).result ∧
      (a.perform c).state.Refines (m.perform c).state := by
  cases c with
  | allocate hash x z =>
    obtain ⟨hr, hs⟩ := h.allocate hz hash x z
    simpa [Arena.perform, Inventory.perform, Outcome.result_map, hr] using hs
  | free id =>
    obtain ⟨hr, hs⟩ := h.free hc
    simpa [Arena.perform, Inventory.perform, Outcome.result_map, hr] using hs
  | get id => simpa [Arena.perform, Inventory.perform, h.get?] using h
  | getMut id f => simpa [Arena.perform, Inventory.perform, h.get?] using h.edit id f
  | index id =>
    rw [perform_index]
    exact h.lend id fun e => e
  | indexMut id f => exact h.lend id f

theorem run [SlotSize α] (hz : SlotSize.bytes α * maxBlockEntries < wordLimit)
    (h : a.Refines m) (hcs : a.Careful cs) :
    a.results cs = m.results cs ∧ (a.run cs).Refines (m.run cs) := by
  induction cs generalizing a m with
  | nil => exact ⟨rfl, h⟩
  | cons c cs ih =>
    obtain ⟨hc, hcs⟩ := hcs
    obtain ⟨hr, hs⟩ := h.perform hz hc
    obtain ⟨hrs, hrun⟩ := ih hs hcs
    exact ⟨by rw [results_cons, hr, hrs]; rfl, hrun⟩

theorem liveCount (h : a.Refines m) : a.liveCount = m.live.keys.card := by
  have hlive : ∀ id, id ∈ m.live.keys.toList ↔ (a.get? id).isSome := by
    intro id
    rw [Finset.mem_toList, Finmap.mem_keys, ← Finmap.lookup_isSome, h.get? id]
  have hdead : ∀ id ∈ m.freed, id ∉ m.live.keys.toList := by
    intro id hid hmem
    rw [hlive, h.threaded.get?_none hid] at hmem
    simp at hmem
  have hnd : (m.live.keys.toList ++ m.freed).Nodup := by
    refine List.nodup_append.mpr ⟨Finset.nodup_toList _, h.threaded.path.nodup, ?_⟩
    intro i hi j hj hij
    exact hdead j hj (hij ▸ hi)
  have hall : ∀ id, id ∈ m.live.keys.toList ++ m.freed ↔ id.index < a.carved := by
    intro id
    rw [h.threaded.carved_iff, List.mem_append, hlive]
  have hlen := length_eq_of_mem_iff hnd hall h.threaded.carved_le
  rw [List.length_append, Finset.length_toList, ← h.threaded.count] at hlen
  simp only [Arena.liveCount, Arena.carved] at hlen ⊢
  omega

theorem agrees (h : a.Refines m) : a.Agrees m := by
  have hfree := freeList_of_path h.threaded.path
  constructor
  case get? => exact h.get?
  case carved => exact h.carved
  case free_ends => exact h.threaded.path
  case freeList => exact hfree
  case free_nodup =>
    rw [hfree]
    exact h.threaded.path.nodup
  case free_count => rw [hfree, h.threaded.count]
  case dead_iff =>
    intro id
    have hiff : id.index < a.carved ↔ (a.get? id).isSome ∨ id ∈ m.freed := h.threaded.carved_iff
    rw [hfree]
    cases he : a.get? id with
    | some e =>
      have hlt := index_lt_of_get? he
      have hnot : id ∉ m.freed := fun hid => by simp [h.threaded.get?_none hid] at he
      simp [hnot, hlt]
    | none =>
      simp only [he, Option.isSome_none, Bool.false_eq_true, false_or] at hiff
      rw [← hiff]
      exact ⟨fun _ => by omega, fun _ => rfl⟩
  case liveCount => exact h.liveCount
  case free_never => exact fun id hid => free_of_carved_le hid

end Refines

/-- Whatever calls a new arena is run with, as long as no id of the free list is freed, each gives
the answer that the inventory gives, and then every reader of the arena agrees with the inventory.
Where no borrower touches a shared flag no entry is shared, so that every live id can be freed. -/
theorem run_agrees [SlotSize α] (hz : SlotSize.bytes α * maxBlockEntries < wordLimit)
    (hcs : (empty : Arena α).Careful cs) :
    (empty : Arena α).results cs = Inventory.empty.results cs ∧
      ((empty : Arena α).run cs).Agrees (Inventory.empty.run cs) ∧
      ((∀ c ∈ cs, c.KeepsFlag) → (Inventory.empty.run cs).Unshared) := by
  obtain ⟨hresults, hrefines⟩ := refines_empty.run hz hcs
  refine ⟨hresults, hrefines.agrees, fun hkeep => ?_⟩
  have hempty : (Inventory.empty : Inventory α).Unshared := by
    intro id e he
    simp [Inventory.empty] at he
  exact hempty.run hkeep

theorem run_agrees_reused :
    ∃ (a b : EntryId) (cs : List (Call UInt32)),
      cs = [.allocate 1 10 ⟨4, 0⟩, .allocate 2 20 ⟨4, 0⟩, .free a, .free b,
        .indexMut a Entry.setShared, .allocate 3 30 ⟨4, 1⟩, .getMut b (·.setLiteral 31), .free b] ∧
      (empty : Arena UInt32).Careful cs ∧
      (empty : Arena UInt32).results cs = Inventory.empty.results cs ∧
      ((empty : Arena UInt32).run cs).Agrees (Inventory.empty.run cs) := by
  let a : EntryId := .ofIndex 0 (by decide)
  let b : EntryId := .ofIndex 1 (by decide)
  let cs : List (Call UInt32) := [.allocate 1 10 ⟨4, 0⟩, .allocate 2 20 ⟨4, 0⟩, .free a, .free b,
    .indexMut a Entry.setShared, .allocate 3 30 ⟨4, 1⟩, .getMut b (·.setLiteral 31), .free b]
  have hcs : (empty : Arena UInt32).Careful cs := by decide +kernel
  obtain ⟨hresults, hagrees, -⟩ := run_agrees (by decide) hcs
  exact ⟨a, b, cs, rfl, hcs, hresults, hagrees⟩

end Arena

end ChainedTable
