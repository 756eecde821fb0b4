import ChainedTable.Proofs.Arena.Recycling
import ChainedTable.Table.Resize

set_option autoImplicit false

namespace ChainedTable

variable {α : Type}

namespace Table

/-- Nothing but buckets and links of live entries differs. -/
structure Relinked (t u : Table α) : Prop where
  arena : t.arena.Relinked u.arena
  count : u.count = t.count
  tag : u.tag = t.tag
  traffic : u.traffic = t.traffic

def SameCounts (t u : Table α) : Prop := u.count = t.count ∧ u.traffic = t.traffic

variable {t u v : Table α} {id j : EntryId} {e : Entry α} {i : Nat}

theorem create_eq_ok [Memory] {n : Nat} {tag : MemoryTag} (ht : create n tag = .ok t) :
    t.buckets = emptyBuckets n ∧ t.arena = .empty ∧ t.count = 0 ∧ t.traffic = .zero := by
  simp only [create] at ht
  split at ht
  · split at ht
    · obtain rfl := Except.ok.inj ht
      exact ⟨rfl, rfl, rfl, rfl⟩
    · split at ht <;> simp at ht
  · simp at ht

theorem Relinked.refl (t : Table α) : Relinked t t := ⟨.refl _, rfl, rfl, rfl⟩

theorem Relinked.trans (h : Relinked t u) (k : Relinked u v) : Relinked t v where
  arena := h.arena.trans k.arena
  count := k.count.trans h.count
  tag := k.tag.trans h.tag
  traffic := k.traffic.trans h.traffic

theorem Relinked.sameCounts (h : Relinked t u) : SameCounts t u := ⟨h.count, h.traffic⟩

theorem relinked_setHead (t : Table α) (i : Nat) (h : Option EntryId) :
    Relinked t (t.setHead i h) := ⟨.refl _, rfl, rfl, rfl⟩

theorem relinked_store (n : Option EntryId) (h : t.arena.get? id = some e) :
    Relinked t (t.store id (e.redirect n)) := ⟨Arena.relinked_store n h, rfl, rfl, rfl⟩

theorem relinked_redirect (t : Table α) (id : EntryId) (n : Option EntryId) :
    Relinked t (t.redirect id n) := by
  cases h : t.arena.get? id with
  | none =>
    rw [redirect_dead n h]
    exact .refl t
  | some e =>
    rw [redirect_live n h]
    exact relinked_store n h

theorem relinked_prepend (i : Nat) (h : t.arena.get? id = some e) :
    Relinked t (t.prepend i id e) :=
  (relinked_store (t.head i) h).trans (relinked_setHead _ i (some id))

theorem link_redirect (n : Option EntryId) (h : t.arena.get? id = some e) :
    (t.redirect id n).arena.link j = if j = id then some n else t.arena.link j := by
  rw [redirect_live n h, arena_store, Arena.link_store _ (Arena.index_lt_of_get? h),
    Entry.next_redirect]

theorem link_prepend (i : Nat) (h : t.arena.get? id = some e) :
    (t.prepend i id e).arena.link j = if j = id then some (t.head i) else t.arena.link j := by
  rw [prepend, arena_setHead, arena_store, Arena.link_store _ (Arena.index_lt_of_get? h),
    Entry.next_redirect]

theorem head_prepend {k : Nat} (hi : i < t.size) :
    (t.prepend i id e).head k = if k = i then some id else t.head k := by
  split
  · rename_i hk
    rw [hk]
    exact head_setHead_self (some id) hi
  · rename_i hk
    exact head_setHead_other (some id) hk

theorem relinked_unlink (t : Table α) (i : Nat) (id : EntryId) :
    Relinked t (t.unlink i id).state := by
  cases he : t.arena.get? id with
  | none => simpa [unlink, he] using Relinked.refl t
  | some e =>
    cases hi : t.checkIndex i with
    | error f => simpa [unlink, he, hi] using Relinked.refl t
    | ok _ =>
      by_cases hhead : t.head i = some id
      · simpa [unlink, he, hi, hhead] using
          (relinked_setHead t i e.next).trans (relinked_redirect _ id none)
      · cases hp : (t.walk i).predecessor? id with
        | error f => simpa [unlink, he, hi, hhead, hp] using Relinked.refl t
        | ok p =>
          cases p with
          | none => simpa [unlink, he, hi, hhead, hp] using Relinked.refl t
          | some p =>
            simpa [unlink, he, hi, hhead, hp] using
              (relinked_redirect t p e.next).trans (relinked_redirect _ id none)

theorem relinked_migrateChain (t : Table α) (n : Nat) (c : Option EntryId) :
    Relinked t (t.migrateChain n c).state := by
  induction n generalizing t c with
  | zero => cases c <;> exact .refl t
  | succ n ih =>
    cases c with
    | none => exact .refl t
    | some id =>
      cases he : t.arena.get? id with
      | none => simpa [migrateChain, he] using Relinked.refl t
      | some e => simpa [migrateChain, he] using (relinked_prepend _ he).trans (ih _ e.next)

theorem relinked_migrate (t : Table α) (n : Nat) (heads : List (Option EntryId)) :
    Relinked t (t.migrate n heads).state := by
  induction heads generalizing t with
  | nil => exact .refl t
  | cons c rest ih =>
    have hc := t.relinked_migrateChain n c
    cases hm : t.migrateChain n c with
    | fail f u => simpa [migrate, hm] using hc
    | ok _ u =>
      rw [hm] at hc
      simpa [migrate, hm] using hc.trans (ih u)

theorem relinked_resize [Memory] (t : Table α) (n : Nat) : Relinked t (t.resize n).state := by
  by_cases hn : Allocatable n
  · have hclear : Relinked t (t.clear n hn.1) := ⟨.refl _, rfl, rfl, rfl⟩
    simpa [resize, hn] using hclear.trans (relinked_migrate _ t.migrationBound t.buckets.toList)
  · simpa [resize_refused hn] using Relinked.refl t

theorem relinked_maybeGrow [Memory] (t : Table α) (maxSize load : Nat) :
    Relinked t (t.maybeGrow maxSize load).state := by
  cases hg : t.growth maxSize load with
  | atLimit => simpa [maybeGrow, hg] using Relinked.refl t
  | belowLoad => simpa [maybeGrow, hg] using Relinked.refl t
  | growTo n => simpa [maybeGrow, hg] using t.relinked_resize n

theorem size_migrateChain (t : Table α) (n : Nat) (c : Option EntryId) :
    (t.migrateChain n c).state.size = t.size := by
  induction n generalizing t c with
  | zero => cases c <;> rfl
  | succ n ih =>
    cases c with
    | none => rfl
    | some id =>
      cases he : t.arena.get? id with
      | none => simp [migrateChain, he]
      | some e => simpa [migrateChain, he] using (ih _ e.next).trans (t.size_prepend _ id e)

theorem size_migrate (t : Table α) (n : Nat) (heads : List (Option EntryId)) :
    (t.migrate n heads).state.size = t.size := by
  induction heads generalizing t with
  | nil => rfl
  | cons c rest ih =>
    have hc := t.size_migrateChain n c
    cases hm : t.migrateChain n c with
    | fail f u => simpa [migrate, hm] using hc
    | ok _ u =>
      rw [hm] at hc
      simpa [migrate, hm] using (ih u).trans hc

end Table

end ChainedTable
