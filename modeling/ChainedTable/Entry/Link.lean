import ChainedTable.Entry.Id

set_option autoImplicit false

/-!
Link words: the next entry of a chain and the shared flag of the entry that holds the word, in 32
bits. The word stands for the pair of its two readings (`Link.ext_iff_reading`), and each write is
a write of that pair.
-/

namespace ChainedTable

/-- The word of the next id, shifted left once, with the shared flag in the lowest bit. -/
structure Link where
  word : UInt32
  deriving DecidableEq

def Link.ofNext : Option EntryId → Link
  | none => ⟨0⟩
  | some id => ⟨id.word <<< 1⟩

theorem Link.toNat_half (l : Link) : (l.word >>> 1).toNat = l.word.toNat / 2 := by
  simp [UInt32.toNat_shiftRight, Nat.shiftRight_eq_div_pow]

def Link.next (l : Link) : Option EntryId :=
  if h : 0 < (l.word >>> 1).toNat then
    some ⟨l.word >>> 1, h, by
      have := l.word.toNat_lt
      rw [l.toNat_half]
      simp only [maxEntries]
      omega⟩
  else none

def Link.isShared (l : Link) : Bool := l.word &&& 1 != 0

def Link.setShared (l : Link) : Link := ⟨l.word ||| 1⟩

def Link.redirect (l : Link) (next : Option EntryId) : Link :=
  if l.isShared then (ofNext next).setShared else ofNext next

theorem Link.isShared_eq (l : Link) : l.isShared = decide (l.word.toNat % 2 = 1) := by
  have h : (l.word &&& 1).toNat = l.word.toNat % 2 := by
    rw [UInt32.toNat_and, show (1 : UInt32).toNat = 1 from rfl, Nat.and_one_is_mod]
  by_cases hz : l.word &&& 1 = 0
  · have : l.word.toNat % 2 = 0 := by rw [← h, hz]; rfl
    simp [isShared, hz, this]
  · have : l.word.toNat % 2 ≠ 0 := fun he => hz (UInt32.toNat_inj.mp (h.trans he))
    simp only [isShared, bne_iff_ne.mpr hz, true_eq_decide_iff]
    omega

theorem Link.toNat_setShared (l : Link) :
    l.setShared.word.toNat = 2 * (l.word.toNat / 2) + 1 := by
  rw [setShared, UInt32.toNat_or, show (1 : UInt32).toNat = 1 from rfl]
  have hd : (l.word.toNat ||| 1) / 2 = l.word.toNat / 2 := by simp [Nat.or_div_two]
  have hm : (l.word.toNat ||| 1) % 2 = 1 := by simp [Nat.or_mod_two_eq_one]
  omega

theorem Link.toNat_ofNext_some (id : EntryId) :
    (ofNext (some id)).word.toNat = 2 * id.word.toNat := by
  have := id.word_le
  simp only [maxEntries] at this
  simp only [ofNext, UInt32.toNat_shiftLeft, Nat.shiftLeft_eq]
  simp
  omega

theorem Link.next_eq_none {l : Link} : l.next = none ↔ l.word.toNat / 2 = 0 := by
  rw [← l.toNat_half]
  simp only [next]
  split
  · simp only [reduceCtorEq, false_iff]
    omega
  · simp only [true_iff]
    omega

theorem Link.next_eq_some {l : Link} {id : EntryId} :
    l.next = some id ↔ l.word.toNat / 2 = id.word.toNat := by
  have := id.word_pos
  rw [← l.toNat_half]
  simp only [next]
  split
  · rw [Option.some.injEq]
    constructor
    · rintro rfl
      rfl
    · intro h
      cases id
      simpa only [EntryId.mk.injEq] using UInt32.toNat_inj.mp h
  · simp only [reduceCtorEq, false_iff]
    omega

@[simp] theorem Link.next_ofNext (next : Option EntryId) : (ofNext next).next = next := by
  cases next with
  | none => rfl
  | some id =>
    rw [next_eq_some, toNat_ofNext_some]
    omega

@[simp] theorem Link.isShared_ofNext (next : Option EntryId) : (ofNext next).isShared = false := by
  rw [isShared_eq]
  cases next with
  | none => rfl
  | some id => simp [toNat_ofNext_some]

@[simp] theorem Link.next_setShared (l : Link) : l.setShared.next = l.next := by
  cases h : l.next with
  | none =>
    rw [next_eq_none] at h ⊢
    rw [toNat_setShared]
    omega
  | some id =>
    rw [next_eq_some] at h ⊢
    rw [toNat_setShared]
    omega

@[simp] theorem Link.isShared_setShared (l : Link) : l.setShared.isShared = true := by
  rw [isShared_eq, toNat_setShared]
  simp

@[simp] theorem Link.next_redirect (l : Link) (next : Option EntryId) :
    (l.redirect next).next = next := by
  simp only [redirect]
  split <;> simp

@[simp] theorem Link.isShared_redirect (l : Link) (next : Option EntryId) :
    (l.redirect next).isShared = l.isShared := by
  simp only [redirect]
  split <;> simp_all

theorem Link.ext_iff_reading {a b : Link} :
    a = b ↔ a.next = b.next ∧ a.isShared = b.isShared := by
  constructor
  · rintro rfl
    exact ⟨rfl, rfl⟩
  · rintro ⟨hn, hs⟩
    rw [isShared_eq, isShared_eq, decide_eq_decide] at hs
    have hh : a.word.toNat / 2 = b.word.toNat / 2 := by
      cases h : b.next with
      | none =>
        rw [h, next_eq_none] at hn
        rw [next_eq_none] at h
        omega
      | some id =>
        rw [h, next_eq_some] at hn
        rw [next_eq_some] at h
        omega
    have hw : a.word = b.word := UInt32.toNat_inj.mp (by omega)
    cases a
    cases b
    simpa using hw

end ChainedTable
