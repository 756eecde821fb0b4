import ChainedTable.Proofs.Table.Representation
import ChainedTable.Registry
import ChainedTable.Table.Call

set_option autoImplicit false

namespace ChainedTable

variable {α : Type}

inductive Request (α : Type) where
  | intern (p : GrowthPolicy) (hash : UInt32) (literal : α)
  | internCandidate (p : GrowthPolicy) (hash : UInt32) (literal : α)
  | unintern (hash : UInt32) (literal : α)
  | resize (size : Nat)
  | maybeGrow (maxSize load : Nat)

def Request.adds : Request α → Bool
  | .intern _ _ _ => true
  | .internCandidate _ _ _ => true
  | _ => false

structure Directory (α : Type) where
  size : Nat
  ids : Finmap fun _ : UInt32 × α => EntryId
  freed : List EntryId
  next : Nat

namespace Directory

def start (size : Nat) : Directory α := ⟨size, ∅, [], 0⟩

def count (d : Directory α) : Nat := d.ids.keys.card

def growth (d : Directory α) (maxSize load : Nat) : Growth :=
  if maxSize ≤ d.size then .atLimit
  else if d.count / d.size ≤ load then .belowLoad
  else .growTo (min (2 * d.size) maxSize)

def resizeTo [Memory] (d : Directory α) (size : Nat) : Directory α :=
  if Allocatable size then { d with size := size } else d

def grow [Memory] (d : Directory α) : Growth → Directory α
  | .growTo size => d.resizeTo size
  | _ => d

def maybeGrow [Memory] (d : Directory α) (maxSize load : Nat) : Directory α :=
  d.grow (d.growth maxSize load)

def take? (d : Directory α) : Option (EntryId × Directory α) :=
  (takeId d.freed d.next).map fun (id, freed, next) => (id, { d with freed := freed, next := next })

def giveBack (d : Directory α) (id : EntryId) : Directory α := { d with freed := id :: d.freed }

section
variable {d d' : Directory α} {id : EntryId}

theorem take?_eq_some : d.take? = some (id, d') ↔
    ∃ freed next, takeId d.freed d.next = some (id, freed, next) ∧
      d' = { d with freed := freed, next := next } := by
  simp only [take?, Option.map_eq_some_iff, Prod.exists, Prod.mk.injEq]
  constructor
  · intro ⟨j, freed, next, h, hj, hd⟩
    subst hj
    exact ⟨freed, next, h, hd.symm⟩
  · intro ⟨freed, next, h, hd⟩
    exact ⟨id, freed, next, h, rfl, hd.symm⟩

theorem ids_take? (h : d.take? = some (id, d')) : d'.ids = d.ids := by
  obtain ⟨freed, next, -, rfl⟩ := take?_eq_some.mp h
  rfl

@[simp] theorem ids_giveBack (d : Directory α) (id : EntryId) : (d.giveBack id).ids = d.ids := rfl

@[simp] theorem ids_resizeTo [Memory] (d : Directory α) (n : Nat) : (d.resizeTo n).ids = d.ids := by
  rw [resizeTo]
  split <;> rfl

@[simp] theorem ids_grow [Memory] (d : Directory α) (g : Growth) : (d.grow g).ids = d.ids := by
  cases g with
  | growTo n => exact d.ids_resizeTo n
  | atLimit => rfl
  | belowLoad => rfl

@[simp] theorem ids_maybeGrow [Memory] (d : Directory α) (maxSize load : Nat) :
    (d.maybeGrow maxSize load).ids = d.ids := d.ids_grow _

end

variable [DecidableEq α]

def enter (d : Directory α) (hash : UInt32) (literal : α) (id : EntryId) : Directory α :=
  { d with ids := d.ids.insert (hash, literal) id }

def forget (d : Directory α) (hash : UInt32) (literal : α) : Directory α :=
  { d with ids := d.ids.erase (hash, literal) }

/-- A request on plain data, unless it needs an id and none is left. -/
def step [Memory] (d : Directory α) : Request α → Option (Reply α × Directory α)
  | .intern p hash literal =>
    match d.ids.lookup (hash, literal) with
    | some id => some (.made id, d)
    | none => d.take?.map fun (id, d) =>
      (.made id, (d.enter hash literal id).maybeGrow p.maxSize p.load)
  | .internCandidate p hash literal => d.take?.map fun (candidate, d) =>
    match d.ids.lookup (hash, literal) with
    | some id => (.made id, d.giveBack candidate)
    | none => (.made candidate, (d.enter hash literal candidate).maybeGrow p.maxSize p.load)
  | .unintern hash literal =>
    match d.ids.lookup (hash, literal) with
    | some id => some (.recycled literal, (d.forget hash literal).giveBack id)
    | none => some (.done, d)
  | .resize size =>
    some (.resized (if Allocatable size then .ok () else .error (refusal size)), d.resizeTo size)
  | .maybeGrow maxSize load =>
    some (.answer (d.growth maxSize load).attempts, d.maybeGrow maxSize load)

def steps [Memory] (d : Directory α) : List (Request α) → Option (List (Reply α) × Directory α)
  | [] => some ([], d)
  | s :: ss => (d.step s).bind fun (r, d) => (d.steps ss).map fun (rs, d) => (r :: rs, d)

def Admits (d : Directory α) : Request α → Prop
  | .intern _ hash literal =>
    (d.ids.lookup (hash, literal)).isSome ∨ d.freed ≠ [] ∨ d.next < maxEntries
  | .internCandidate _ _ _ => d.freed ≠ [] ∨ d.next < maxEntries
  | .unintern _ _ => True
  | .resize _ => True
  | .maybeGrow _ _ => True

variable {d d' : Directory α} {id : EntryId} {hash : UInt32} {literal : α} {k : UInt32 × α}
  {s : Request α} {ss : List (Request α)} {r : Reply α} {rs : List (Reply α)} {n : Nat}

theorem isSome_step_iff [Memory] (d : Directory α) (s : Request α) :
    (d.step s).isSome ↔ d.Admits s := by
  cases s with
  | intern p h x =>
    cases hk : d.ids.lookup (h, x) <;> simp [step, Admits, hk, take?, isSome_takeId]
  | internCandidate p h x => simp [step, Admits, take?, isSome_takeId]
  | unintern h x => cases hk : d.ids.lookup (h, x) <;> simp [step, Admits, hk]
  | resize n => simp [step, Admits]
  | maybeGrow maxSize load => simp [step, Admits]

theorem lookup_enter : (d.enter hash literal id).ids.lookup k =
    if k = (hash, literal) then some id else d.ids.lookup k := lookup_insert_ite

theorem lookup_forget : (d.forget hash literal).ids.lookup k =
    if k = (hash, literal) then none else d.ids.lookup k := lookup_erase_ite

/-- Only by being taken out does a literal lose its id. -/
theorem lookup_step [Memory] (hs : d.step s = some (r, d'))
    (hk : d.ids.lookup (hash, literal) = some id)
    (hne : s ≠ .unintern hash literal) : d'.ids.lookup (hash, literal) = some id := by
  have hkeep : ∀ {e : Directory α} {h : UInt32} {x : α} {j : EntryId}, e.ids = d.ids →
      d.ids.lookup (h, x) = none → (e.enter h x j).ids.lookup (hash, literal) = some id := by
    intro e h x j he hnone
    rw [lookup_enter, he, if_neg, hk]
    intro heq
    rw [heq, hnone] at hk
    simp at hk
  cases s with
  | intern p h x =>
    simp only [step] at hs
    split at hs
    · obtain ⟨-, rfl⟩ := Prod.mk.inj (Option.some.inj hs)
      exact hk
    · rename_i hnone
      obtain ⟨⟨j, e⟩, he, heq⟩ := Option.map_eq_some_iff.mp hs
      obtain ⟨-, rfl⟩ := Prod.mk.inj heq
      rw [ids_maybeGrow]
      exact hkeep (ids_take? he) hnone
  | internCandidate p h x =>
    obtain ⟨⟨j, e⟩, he, heq⟩ := Option.map_eq_some_iff.mp hs
    have hids := ids_take? he
    simp only at heq
    split at heq
    · obtain ⟨-, rfl⟩ := Prod.mk.inj heq
      rwa [ids_giveBack, hids]
    · rename_i hnone
      obtain ⟨-, rfl⟩ := Prod.mk.inj heq
      rw [ids_maybeGrow]
      exact hkeep hids (hids ▸ hnone)
  | unintern h x =>
    simp only [step] at hs
    split at hs
    · obtain ⟨-, rfl⟩ := Prod.mk.inj (Option.some.inj hs)
      rw [ids_giveBack, lookup_forget, if_neg, hk]
      intro heq
      obtain ⟨rfl, rfl⟩ := Prod.mk.inj heq
      exact hne rfl
    · obtain ⟨-, rfl⟩ := Prod.mk.inj (Option.some.inj hs)
      exact hk
  | resize n =>
    obtain ⟨-, rfl⟩ := Prod.mk.inj (Option.some.inj hs)
    rwa [ids_resizeTo]
  | maybeGrow maxSize load =>
    obtain ⟨-, rfl⟩ := Prod.mk.inj (Option.some.inj hs)
    rwa [ids_maybeGrow]

theorem lookup_steps [Memory] (hs : d.steps ss = some (rs, d'))
    (hk : d.ids.lookup (hash, literal) = some id) (hne : .unintern hash literal ∉ ss) :
    d'.ids.lookup (hash, literal) = some id := by
  induction ss generalizing d rs with
  | nil =>
    obtain ⟨-, rfl⟩ := Prod.mk.inj (Option.some.inj hs)
    exact hk
  | cons s ss ih =>
    obtain ⟨⟨r, e⟩, he, hs⟩ := Option.bind_eq_some_iff.mp hs
    obtain ⟨⟨rs, e'⟩, hes, heq⟩ := Option.map_eq_some_iff.mp hs
    obtain ⟨-, rfl⟩ := Prod.mk.inj heq
    obtain ⟨hfirst, hrest⟩ := List.ne_and_not_mem_of_not_mem_cons hne
    exact ih hes (lookup_step he hk hfirst.symm) hrest

end Directory

end ChainedTable
