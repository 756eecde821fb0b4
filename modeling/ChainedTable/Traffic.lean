import ChainedTable.Word

set_option autoImplicit false

namespace ChainedTable

structure Traffic where
  added : Nat
  removed : Nat
  deriving DecidableEq

def Traffic.zero : Traffic := ⟨0, 0⟩

def Traffic.recordAdd (r : Traffic) : Except Fault Traffic :=
  (addWord r.added 1).map fun n => { r with added := n }

def Traffic.recordRemove (r : Traffic) : Except Fault Traffic :=
  (addWord r.removed 1).map fun n => { r with removed := n }

theorem Traffic.recordAdd_eq_ok {r s : Traffic} :
    r.recordAdd = .ok s ↔ s = ⟨r.added + 1, r.removed⟩ ∧ r.added + 1 < wordLimit := by
  simp only [recordAdd, addWord]
  split <;> simp [Except.map, *, eq_comm]

theorem Traffic.recordRemove_eq_ok {r s : Traffic} :
    r.recordRemove = .ok s ↔ s = ⟨r.added, r.removed + 1⟩ ∧ r.removed + 1 < wordLimit := by
  simp only [recordRemove, addWord]
  split <;> simp [Except.map, *, eq_comm]

end ChainedTable
