import ChainedTable.Literal
import ChainedTable.Proofs.Arena.Runs
import Mathlib.Algebra.GroupWithZero.Nat

set_option autoImplicit false

/-!
Blocks. Slots are carved from blocks, and the next block is reserved when the last slot of all
blocks before it is carved and none is free. Every call keeps this, whatever its arguments and also
when it fails, but for an allocation at the slot limit, which may reserve a block that it cannot
carve from.
-/

namespace ChainedTable

namespace Arena

variable {α : Type} {a : Arena α} {c : Call α} {cs : List (Call α)}

/-- What the blocks say of the slots reserved and carved. -/
structure Blocked (a : Arena α) : Prop where
  reserved : a.reserved = a.blocks.toList.sum
  length : ∀ n ∈ a.blocks.toList, 1 ≤ n ∧ n ≤ maxBlockEntries
  carved_le : a.carved ≤ a.blocks.toList.sum
  /-- The last block has been carved from. -/
  last_used : a.blocks.toList ≠ [] → a.blocks.toList.dropLast.sum < a.carved

theorem blocked_empty : (empty : Arena α).Blocked where
  reserved := rfl
  length n hn := by simp [empty] at hn
  carved_le := Nat.le_refl _
  last_used h := absurd rfl h

/-- A new block may be as large as may be, but no slot of the blocks before it is left. -/
theorem Blocked.slack (h : a.Blocked) : a.blocks.toList.sum < a.carved + maxBlockEntries := by
  by_cases hne : a.blocks.toList = []
  · rw [hne]
    exact Nat.lt_of_lt_of_le (by decide) (Nat.le_add_left maxBlockEntries a.carved)
  · have hlast := h.last_used hne
    have hlen := (h.length _ (List.getLast_mem hne)).2
    have hsum := congrArg List.sum (List.dropLast_concat_getLast hne)
    rw [List.sum_append, List.sum_singleton] at hsum
    omega

theorem storage_free (a : Arena α) (id : EntryId) :
    (a.free id).state.blocks = a.blocks ∧ (a.free id).state.reserved = a.reserved ∧
      (a.free id).state.carved = a.carved := by
  rcases a.free_cases id with ⟨f, hf⟩ | ⟨e, -, -, hok⟩ | ⟨next, -, hf⟩
  · simp [hf]
  · simp [hok, released, withFree, carved]
  · simp [hf, withFree, carved]

theorem storage_update (a : Arena α) (id : EntryId) (f : Entry α → Entry α) :
    (a.update id f).state.blocks = a.blocks ∧ (a.update id f).state.reserved = a.reserved ∧
      (a.update id f).state.carved = a.carved := by
  cases he : a.get? id with
  | none => simp [update_dead he]
  | some e => simp [update_live he]

section
variable [SlotSize α]

/-- What an allocation does to the blocks: nothing, or it reserves one because there is no slot
left, and carves its first slot unless there are no more ids. -/
theorem allocate_blocks (a : Arena α) (h : UInt32) (x : α) (z : Sizing) :
    ((a.allocate h x z).state.blocks = a.blocks ∧
      (a.allocate h x z).state.reserved = a.reserved ∧
      ((a.allocate h x z).state.carved = a.carved ∨
        (a.allocate h x z).state.carved = a.carved + 1 ∧ a.freeHead = none ∧
          a.carved < a.reserved)) ∨
    a.freeHead = none ∧ a.reserved ≤ a.carved ∧ ∃ n, 1 ≤ n ∧ n ≤ maxBlockEntries ∧
      (a.allocate h x z).state.blocks = a.blocks.push n ∧
      (a.allocate h x z).state.reserved = a.reserved + n ∧
      ((a.allocate h x z).state.carved = a.carved + 1 ∨
        (a.allocate h x z).result = .error (.slotLimit a.carved)) := by
  cases hh : a.freeHead with
  | some id =>
    left
    simp only [allocate, hh, reuse]
    cases a.slots[id.index]? with
    | none => simp
    | some s =>
      cases s with
      | occupied e => simp
      | free next =>
        by_cases hc : a.freeCount = 0
        · simp [hc, carved, store]
        · simp [hc, carved, store]
  | none =>
    by_cases hlt : a.slots.size < a.reserved
    · left
      simp only [allocate, hh, carve, hlt, ↓reduceIte, Outcome.bind_ok]
      cases EntryId.ofIndex? a.slots.size with
      | none => simp
      | some id => simpa [carved, hh] using hlt
    · simp only [allocate, hh, carve, hlt, ↓reduceIte]
      rcases a.reserveBlock_cases z with ⟨n, hpos, hle, hb⟩ | ⟨f, -, hb⟩
      · right
        refine ⟨trivial, Nat.le_of_not_lt hlt, n, hpos, hle, ?_⟩
        simp only [hb, Outcome.bind_ok, slots_withBlocks]
        cases EntryId.ofIndex? a.slots.size with
        | none => simp [withBlocks, carved]
        | some id => simp [withBlocks, carved]
      · left
        simp [hb]

theorem storage_perform (hc : c.allocates = false) :
    (a.perform c).state.blocks = a.blocks ∧ (a.perform c).state.reserved = a.reserved ∧
      (a.perform c).state.carved = a.carved := by
  rcases a.state_perform c with ⟨h, x, z, rfl⟩ | ⟨id, rfl⟩ | ⟨-, -, id, f, hs⟩
  · simp [Call.allocates] at hc
  · simpa [Arena.perform] using a.storage_free id
  · rw [hs]
    exact a.storage_update id f

theorem Blocked.allocate (hb : a.Blocked) {h : UInt32} {x : α} {z : Sizing}
    (hlimit : (a.allocate h x z).result ≠ .error (.slotLimit a.carved)) :
    (a.allocate h x z).state.Blocked := by
  have hreserved := hb.reserved
  have hcarved := hb.carved_le
  rcases a.allocate_blocks h x z with ⟨hbs, hr, hsame | ⟨hone, -, hlt⟩⟩ |
    ⟨-, hle, n, hpos, hmax, hbs, hr, hone | hfull⟩
  · exact ⟨by rw [hr, hbs, hreserved], by rw [hbs]; exact hb.length,
      by rw [hbs, hsame]; exact hcarved, by rw [hbs, hsame]; exact hb.last_used⟩
  · refine ⟨by rw [hr, hbs, hreserved], by rw [hbs]; exact hb.length, ?_, ?_⟩
    · rw [hbs, hone]
      omega
    · rw [hbs, hone]
      exact fun hne => Nat.lt_succ_of_lt (hb.last_used hne)
  · constructor
    case reserved => rw [hr, hbs, Array.toList_push, List.sum_append, List.sum_singleton, hreserved]
    case length =>
      intro k hk
      rw [hbs, Array.toList_push, List.mem_append, List.mem_singleton] at hk
      rcases hk with hk | rfl
      · exact hb.length k hk
      · exact ⟨hpos, hmax⟩
    case carved_le =>
      rw [hbs, hone, Array.toList_push, List.sum_append, List.sum_singleton]
      omega
    case last_used =>
      intro _
      rw [hbs, hone, Array.toList_push, List.dropLast_concat]
      omega
  · exact absurd hfull hlimit

theorem Blocked.perform (hb : a.Blocked)
    (hlimit : ∀ i, (a.perform c).result ≠ .error (.slotLimit i)) : (a.perform c).state.Blocked := by
  cases hc : c.allocates with
  | true =>
    rcases a.state_perform c with ⟨h, x, z, rfl⟩ | ⟨id, rfl⟩ | ⟨hnot, -⟩
    · rw [Arena.perform, Outcome.state_map]
      refine hb.allocate fun hfull => hlimit a.carved ?_
      rw [Arena.perform, Outcome.result_map, hfull]
      rfl
    · simp [Call.allocates] at hc
    · simp [hc] at hnot
  | false =>
    obtain ⟨hbs, hr, hcarved⟩ := storage_perform (a := a) hc
    exact ⟨by rw [hr, hbs, hb.reserved], by rw [hbs]; exact hb.length,
      by rw [hbs, hcarved]; exact hb.carved_le, by rw [hbs, hcarved]; exact hb.last_used⟩

theorem Blocked.run (hb : a.Blocked) (hlimit : ∀ i, .error (.slotLimit i) ∉ a.results cs) :
    (a.run cs).Blocked := by
  induction cs generalizing a with
  | nil => exact hb
  | cons c cs ih =>
    simp only [results_cons, List.mem_cons, not_or] at hlimit
    rw [run_cons]
    exact ih (hb.perform fun i h => (hlimit i).1 h.symm) fun i => (hlimit i).2

structure Books (a : Arena α) : Prop extends a.Blocked where
  freeCount : a.freeCount = a.slots.toList.countP Slot.isFree
  liveCount : a.liveCount = a.slots.toList.countP fun s => !s.isFree
  /-- No more is subtracted than is there, neither for the live count nor when a free slot is
  taken. -/
  free_le : a.freeCount ≤ a.carved
  taken : ∀ h x z, (a.allocate h x z).result ≠ .error .subtractionOverflow
  uncarved : a.blocks.toList.sum - a.carved < maxBlockEntries
  reserves : ∀ c, (a.perform c).state.blocks ≠ a.blocks →
    c.allocates = true ∧ a.freeHead = none ∧ a.freeList = [] ∧ a.carved = a.blocks.toList.sum

theorem Blocked.reserves (hb : a.Blocked) (hc : (a.perform c).state.blocks ≠ a.blocks) :
    c.allocates = true ∧ a.freeHead = none ∧ a.freeList = [] ∧ a.carved = a.blocks.toList.sum := by
  cases hall : c.allocates with
  | false => exact absurd (storage_perform hall).1 hc
  | true =>
    rcases a.state_perform c with ⟨h, x, z, rfl⟩ | ⟨id, rfl⟩ | ⟨hnot, -⟩
    · rw [Arena.perform, Outcome.state_map] at hc
      rcases a.allocate_blocks h x z with ⟨hbs, -⟩ | ⟨hh, hle, -⟩
      · exact absurd hbs hc
      · have hreserved := hb.reserved
        have hcarved := hb.carved_le
        exact ⟨rfl, hh, by simp [freeList, hh], by omega⟩
    · simp [Call.allocates] at hall
    · simp [hall] at hnot

theorem Accounted.not_overdrawn (ha : a.Accounted) {h : UInt32} {x : α} {z : Sizing} :
    (a.allocate h x z).result ≠ .error .subtractionOverflow := by
  cases hh : a.freeHead with
  | none =>
    simp only [Arena.allocate, hh, carve]
    split
    · rw [Outcome.bind_ok]
      split <;> simp
    · rcases a.reserveBlock_cases z with ⟨n, -, -, hb⟩ | ⟨f, hne, hb⟩
      · rw [hb, Outcome.bind_ok]
        split <;> simp
      · simpa [hb] using hne
  | some id =>
    simp only [Arena.allocate, hh, reuse]
    cases hs : a.slots[id.index]? with
    | none => simp
    | some s =>
      cases s with
      | occupied e => simp
      | free next =>
        have hpos := (ha.taken (freeLink_eq_some.mpr hs) next (.fresh h x)).2
        have hne : a.freeCount ≠ 0 := Nat.ne_of_gt hpos
        simp [hne]

theorem Blocked.books (hb : a.Blocked) (ha : a.Accounted) : a.Books where
  toBlocked := hb
  freeCount := ha
  liveCount := by
    have hsum := List.length_eq_countP_add_countP Slot.isFree (l := a.slots.toList)
    simp only [Accounted, freeSlots] at ha
    simp only [Arena.liveCount, ← Array.length_toList, ha, hsum]
    simp
  free_le := by
    simp only [Accounted, freeSlots] at ha
    rw [ha]
    exact List.countP_le_length
  taken h x z := ha.not_overdrawn
  uncarved := by
    have hslack := hb.slack
    have hcarved := hb.carved_le
    omega
  reserves c hc := hb.reserves hc

/-- In a run below the slot limit the books are right after every call, whatever the arguments, and
also after calls that fail and slots that are freed twice. -/
theorem books_run (hlimit : ∀ i, .error (.slotLimit i) ∉ (empty : Arena α).results cs) :
    ((empty : Arena α).run cs).Books :=
  (blocked_empty.run hlimit).books (accounted_empty.run cs)

end

theorem books_run_freed_twice :
    ∃ (a : EntryId) (cs : List (Call UInt32)),
      cs = [.allocate 1 10 ⟨4, 0⟩, .allocate 2 20 ⟨4, 0⟩, .free a, .free a, .allocate 3 30 ⟨0, 9⟩,
        .allocate 4 40 ⟨0, 9⟩, .index a] ∧
      (∀ i, .error (.slotLimit i) ∉ (empty : Arena UInt32).results cs) ∧
      ((empty : Arena UInt32).run cs).Books := by
  let a : EntryId := .ofIndex 0 (by decide)
  let cs : List (Call UInt32) := [.allocate 1 10 ⟨4, 0⟩, .allocate 2 20 ⟨4, 0⟩, .free a, .free a,
    .allocate 3 30 ⟨0, 9⟩, .allocate 4 40 ⟨0, 9⟩, .index a]
  have hlimit : ∀ i, .error (.slotLimit i) ∉ (empty : Arena UInt32).results cs := by
    have hresults : (empty : Arena UInt32).results cs = [.ok (.made a),
      .ok (.made (.ofIndex 1 (by decide))), .ok (.recycled 10), .error (.freedTwice a),
      .ok (.made a), .error (.freeListOccupied a), .ok (.found (some (.fresh 3 30)))] := by decide +kernel
    simp [hresults]
  exact ⟨a, cs, rfl, hlimit, books_run hlimit⟩

end Arena

end ChainedTable
