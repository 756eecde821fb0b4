import ChainedTable.Table.Basic

set_option autoImplicit false

namespace ChainedTable

variable {α : Type}

abbrev Linked (α : Type) := EntryId × Entry α

namespace Table

/-- One step more than there are slots: a walk that is still open then never ends. -/
def walkBound (t : Table α) : Nat := t.arena.carved + 1

def walk (t : Table α) (index : Nat) : Walk α := t.arena.walk t.walkBound (t.head index)

def walks (t : Table α) : List (Nat × Walk α) :=
  (List.range t.size).map fun i => (i, t.walk i)

def traversal (t : Table α) : Walk α := .flatten (t.walks.map Prod.snd)

def chain (t : Table α) (index limit : Nat) : Except Fault (List (Linked α)) :=
  match t.checkIndex index with
  | .error f => .error f
  | .ok () => (t.walk index).take limit

def entriesFrom (t : Table α) (limit : Nat) :
    List Nat → Array (Linked α) → Except Fault (List (Linked α))
  | [], seen => .ok seen.toList
  | i :: rest, seen =>
    let w := t.walk i
    if limit ≤ seen.size + w.visited.length then
      .ok (seen.toList ++ w.visited.take (limit - seen.size))
    else
      match w.ending.check with
      | .error f => .error f
      | .ok () => t.entriesFrom limit rest (seen ++ w.visited)

def entries (t : Table α) (limit : Nat) : Except Fault (List (Linked α)) :=
  t.entriesFrom limit (List.range t.size) #[]

def chains (t : Table α) (limit : Nat) : Except Fault (List (Nat × List (Linked α))) :=
  ((List.range t.size).filter fun i => (t.head i).isSome).mapM fun i =>
    ((t.walk i).take limit).map (Prod.mk i)

def firstMeeting (t : Table α) (id : EntryId) : List Nat → Except Fault (Option Nat)
  | [] => .ok none
  | i :: rest =>
    match (t.walk i).meets id with
    | .error f => .error f
    | .ok true => .ok (some i)
    | .ok false => t.firstMeeting id rest

def bucketIndexOf (t : Table α) (id : EntryId) : Except Fault (Option Nat) :=
  t.firstMeeting id (List.range t.size)

/-- Takes `id` out of chain `index` and says whether it was there. The entry stays live and
counted. -/
def unlink (t : Table α) (index : Nat) (id : EntryId) : Outcome (Table α) Bool :=
  match t.arena.get? id with
  | none => .fail (.notAllocated id) t
  | some e =>
    match t.checkIndex index with
    | .error f => .fail f t
    | .ok () =>
      if t.head index = some id then .ok true ((t.setHead index e.next).redirect id none)
      else
        match (t.walk index).predecessor? id with
        | .error f => .fail f t
        | .ok none => .ok false t
        | .ok (some p) => .ok true ((t.redirect p e.next).redirect id none)

theorem traversal_flatten (t : Table α) :
    t.traversal = .flatten ((List.range t.size).map t.walk) := by
  simp [traversal, walks, Function.comp_def]

theorem walk_of_size_le {t : Table α} {i : Nat} (h : t.size ≤ i) : t.walk i = ⟨[], .closed⟩ := by
  simp [walk, head_of_size_le h]

theorem entriesFrom_eq (t : Table α) {limit : Nat} (is : List Nat) {seen : Array (Linked α)}
    (h : seen.size ≤ limit) :
    t.entriesFrom limit is seen =
      Walk.take ⟨seen.toList ++ (Walk.flatten (is.map t.walk)).visited,
        (Walk.flatten (is.map t.walk)).ending⟩ limit := by
  induction is generalizing seen with
  | nil =>
    simp only [entriesFrom, List.map_nil, Walk.flatten, List.foldr_nil, Walk.take,
      List.append_nil]
    split
    · rw [List.take_of_length_le (by simpa using h)]
    · rfl
  | cons i rest ih =>
    simp only [entriesFrom, List.map_cons, Walk.flatten, List.foldr_cons]
    by_cases hl : limit ≤ seen.size + (t.walk i).visited.length
    · obtain ⟨more, hm⟩ := (t.walk i).visited_append (.flatten (rest.map t.walk))
      simp only [Walk.flatten] at hm
      have hlen : limit ≤ (seen.toList ++ ((t.walk i).visited ++ more)).length := by
        simp only [List.length_append, Array.length_toList]
        omega
      simp only [if_pos hl, hm, Walk.take, if_pos hlen]
      rw [List.take_append, List.take_of_length_le (l := seen.toList) (by simpa using h),
        Array.length_toList, List.take_append_of_le_length (by omega)]
    · have hw : (seen ++ (t.walk i).visited).size ≤ limit := by
        rw [← Array.length_toList, Array.toList_appendList, List.length_append,
          Array.length_toList]
        omega
      cases hc : (t.walk i).ending.check with
      | error f =>
        rw [Walk.append_of_check hc]
        simp [hl, hc, Walk.take, Except.map]
      | ok u =>
        rw [Walk.append_closed (Ending.check_eq_ok.mp hc)]
        simp only [if_neg hl]
        rw [ih hw]
        simp [Walk.flatten]

theorem entries_eq (t : Table α) (limit : Nat) : t.entries limit = t.traversal.take limit := by
  rw [entries, entriesFrom_eq t _ (Nat.zero_le limit), traversal_flatten]
  simp

end Table

end ChainedTable
