set_option autoImplicit false

namespace ChainedTable

/-- The slots an arena can hand out: an id has 31 bits of its link word, the last is a flag. -/
def maxEntries : Nat := 0x7fffffff

/-- The bytes of an id or none: one 32-bit word for both. -/
def bytesPerId : Nat := 4

structure EntryId where
  /-- The index of the slot plus one. -/
  word : UInt32
  word_pos : 0 < word.toNat
  word_le : word.toNat ≤ maxEntries
  deriving DecidableEq

def EntryId.index (id : EntryId) : Nat := id.word.toNat - 1

def EntryId.ofIndex (i : Nat) (h : i < maxEntries) : EntryId where
  word := UInt32.ofNat (i + 1)
  word_pos := by
    rw [UInt32.toNat_ofNat_of_lt' (by simp only [maxEntries] at h; simp [UInt32.size]; omega)]
    omega
  word_le := by
    rw [UInt32.toNat_ofNat_of_lt' (by simp only [maxEntries] at h; simp [UInt32.size]; omega)]
    omega

def EntryId.ofIndex? (i : Nat) : Option EntryId :=
  if h : i < maxEntries then some (ofIndex i h) else none

theorem EntryId.index_lt (id : EntryId) : id.index < maxEntries := by
  have := id.word_pos
  have := id.word_le
  simp only [index]
  omega

@[simp] theorem EntryId.index_ofIndex {i : Nat} (h : i < maxEntries) : (ofIndex i h).index = i := by
  simp only [index, ofIndex]
  rw [UInt32.toNat_ofNat_of_lt' (by simp only [maxEntries] at h; simp [UInt32.size]; omega)]
  omega

theorem EntryId.index_inj {a b : EntryId} : a.index = b.index ↔ a = b := by
  constructor
  · intro h
    have := a.word_pos
    have := b.word_pos
    simp only [index] at h
    have hw : a.word = b.word := UInt32.toNat_inj.mp (by omega)
    cases a
    cases b
    simp_all
  · rintro rfl
    rfl

@[simp] theorem EntryId.ofIndex_index (id : EntryId) : ofIndex id.index id.index_lt = id :=
  index_inj.mp (index_ofIndex _)

theorem EntryId.ofIndex?_eq_some {i : Nat} {id : EntryId} :
    ofIndex? i = some id ↔ i = id.index := by
  simp only [ofIndex?]
  split
  · rename_i h
    rw [Option.some.injEq, ← index_inj, index_ofIndex]
  · rename_i h
    simp only [reduceCtorEq, false_iff]
    rintro rfl
    exact h id.index_lt

theorem EntryId.ofIndex?_eq_none {i : Nat} : ofIndex? i = none ↔ maxEntries ≤ i := by
  simp only [ofIndex?]
  split <;> simp <;> omega

def EntryId.text (id : EntryId) : String := "EntryId(" ++ toString id.index ++ ")"

end ChainedTable
