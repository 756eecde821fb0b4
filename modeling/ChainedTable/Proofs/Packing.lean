import ChainedTable.Proofs.Lifetime
import Mathlib.Logic.Function.Defs

set_option autoImplicit false

/-!
Link words as packed pairs. A word is an index or none, as one more than the index or zero, with a
flag in the bit below. Each pair has one word and each word is used, so the largest index takes up
all of it. Writes of the link, in any order, do to the word what they are to do to the pair; among
the entries of a table, each entry sees the writes that are addressed to it.
-/

namespace ChainedTable

variable {α : Type}

namespace EntryId

def toFin (id : EntryId) : Fin maxEntries := ⟨id.index, id.index_lt⟩

def ofFin (i : Fin maxEntries) : EntryId := ofIndex i i.isLt

@[simp] theorem toFin_ofFin (i : Fin maxEntries) : (ofFin i).toFin = i :=
  Fin.ext (index_ofIndex i.isLt)

theorem toNat_word (id : EntryId) : id.word.toNat = id.index + 1 :=
  (Nat.sub_one_add_one (Nat.ne_of_gt id.word_pos)).symm

/-- From the index to the word of a link and back, each operation on 32 bits has the value that it
has on numbers. -/
structure Exact (id : EntryId) : Prop where
  narrowed : (UInt32.ofNat id.index).toNat = id.index
  raised : (UInt32.ofNat id.index + 1).toNat = (UInt32.ofNat id.index).toNat + 1
  word : id.word = UInt32.ofNat id.index + 1
  lowered : (id.word - 1).toNat = id.word.toNat - 1
  shifted : (id.word <<< 1).toNat = 2 * id.word.toNat
  flagged : (id.word <<< 1 ||| 1).toNat = 2 * id.word.toNat + 1
  back : (id.word <<< 1) >>> 1 = id.word
  back_flagged : (id.word <<< 1 ||| 1) >>> 1 = id.word

theorem exact (id : EntryId) : id.Exact := by
  have hlt := id.index_lt
  simp only [maxEntries] at hlt
  have hword := id.toNat_word
  have hnarrowed : (UInt32.ofNat id.index).toNat = id.index :=
    UInt32.toNat_ofNat_of_lt' (by simp only [UInt32.size]; omega)
  have hraised : (UInt32.ofNat id.index + 1).toNat = (UInt32.ofNat id.index).toNat + 1 := by
    rw [UInt32.toNat_add, hnarrowed]
    simp
    omega
  have hshifted : (id.word <<< 1).toNat = 2 * id.word.toNat := Link.toNat_ofNext_some id
  have hflagged : (id.word <<< 1 ||| 1).toNat = 2 * id.word.toNat + 1 := by
    have hset := (Link.mk (id.word <<< 1)).toNat_setShared
    simp only [Link.setShared, hshifted] at hset
    omega
  -- the way back from a link forgets the lowest bit, whichever it is
  have hhalf : ∀ w : UInt32, w.toNat / 2 = id.word.toNat → w >>> 1 = id.word := fun w h =>
    UInt32.toNat_inj.mp (((Link.mk w).toNat_half).trans h)
  constructor
  case narrowed => exact hnarrowed
  case raised => exact hraised
  case word => exact UInt32.toNat_inj.mp (by rw [hraised, hnarrowed, hword])
  case lowered =>
    exact UInt32.toNat_sub_of_le id.word 1 (UInt32.le_iff_toNat_le.mpr id.word_pos)
  case shifted => exact hshifted
  case flagged => exact hflagged
  case back => exact hhalf _ (by omega)
  case back_flagged => exact hhalf _ (by omega)

end EntryId

/-- What a link stands for: the index of a slot or none, and the flag. -/
structure Reading where
  index : Option (Fin maxEntries)
  shared : Bool
  deriving DecidableEq

namespace Reading

def number : Option (Fin maxEntries) → Nat
  | none => 0
  | some i => i.val + 1

def code (p : Reading) : Nat := 2 * number p.index + p.shared.toNat

end Reading

namespace Link

def reading (l : Link) : Reading := ⟨l.next.map EntryId.toFin, l.isShared⟩

def pack (p : Reading) : Link :=
  let l := ofNext (p.index.map EntryId.ofFin)
  if p.shared then l.setShared else l

theorem toNat_word (l : Link) : l.word.toNat = l.reading.code := by
  have hflag : l.isShared.toNat = l.word.toNat % 2 := by
    rw [l.isShared_eq]
    rcases Nat.mod_two_eq_zero_or_one l.word.toNat with h | h <;> simp [h]
  have hhalf : Reading.number (l.next.map EntryId.toFin) = l.word.toNat / 2 := by
    cases hn : l.next with
    | none => exact (next_eq_none.mp hn).symm
    | some id => exact (id.toNat_word.symm.trans (next_eq_some.mp hn).symm)
  rw [Reading.code, reading, hflag, hhalf, Nat.div_add_mod]

theorem reading_pack (p : Reading) : (pack p).reading = p := by
  obtain ⟨index, shared⟩ := p
  cases shared <;> cases index <;> simp [pack, reading]

theorem reading_bijective : Function.Bijective reading := by
  constructor
  · intro l m h
    have hword : l.word = m.word := UInt32.toNat_inj.mp (by rw [toNat_word, toNat_word, h])
    cases l
    cases m
    simpa using hword
  · exact fun p => ⟨pack p, reading_pack p⟩

end Link

inductive LinkWrite where
  | setLink (next : Option EntryId)
  | setShared
  | redirect (next : Option EntryId)

namespace LinkWrite

def onEntry : LinkWrite → Entry α → Entry α
  | setLink next, e => e.setLink next
  | setShared, e => e.setShared
  | redirect next, e => e.redirect next

def onReading : LinkWrite → Reading → Reading
  | setLink next, _ => ⟨next.map EntryId.toFin, false⟩
  | setShared, p => ⟨p.index, true⟩
  | redirect next, p => ⟨next.map EntryId.toFin, p.shared⟩

def readingAfter (ws : List LinkWrite) (p : Reading) : Reading :=
  ws.foldl (fun p w => w.onReading p) p

end LinkWrite

namespace Entry

def reading (e : Entry α) : Reading := ⟨e.next.map EntryId.toFin, e.isShared⟩

def writeLinks (e : Entry α) (ws : List LinkWrite) : Entry α := ws.foldl (fun e w => w.onEntry e) e

variable (e : Entry α) (w : LinkWrite) (ws : List LinkWrite)

theorem reading_fresh (hash : UInt32) (literal : α) :
    (fresh hash literal).reading = ⟨none, false⟩ := by simp [reading]

theorem writeLinks_cons : e.writeLinks (w :: ws) = (w.onEntry e).writeLinks ws := rfl

theorem reading_onEntry : (w.onEntry e).reading = w.onReading e.reading := by
  cases w <;> simp [LinkWrite.onEntry, LinkWrite.onReading, reading]

structure Rewritten (e : Entry α) (ws : List LinkWrite) (f : Entry α) : Prop where
  reading : f.reading = LinkWrite.readingAfter ws e.reading
  hash : f.hash = e.hash
  literal : f.literal = e.literal

theorem rewritten_writeLinks : e.Rewritten ws (e.writeLinks ws) := by
  induction ws generalizing e with
  | nil => exact ⟨rfl, rfl, rfl⟩
  | cons w ws ih =>
    obtain ⟨hreading, hhash, hliteral⟩ := ih (w.onEntry e)
    rw [reading_onEntry] at hreading
    rw [writeLinks_cons]
    exact ⟨hreading, by rw [hhash]; cases w <;> rfl, by rw [hliteral]; cases w <;> rfl⟩

end Entry

namespace Table

def writeLink (t : Table α) : EntryId × LinkWrite → Outcome (Table α) Unit
  | (id, .setLink next) => t.onArena fun a => a.update id fun e => e.setLink next
  | (id, .setShared) => t.onArena fun a => a.update id Entry.setShared
  | (id, .redirect next) => t.setNext id next

def writeLinks (t : Table α) (ws : List (EntryId × LinkWrite)) : Table α :=
  Outcome.run writeLink t ws

def writesTo (id : EntryId) (ws : List (EntryId × LinkWrite)) : List LinkWrite :=
  (ws.filter fun w => w.1 = id).map Prod.snd

variable (t : Table α) (id : EntryId)

theorem arena_writeLink (w : EntryId × LinkWrite) :
    (t.writeLink w).state.arena = (t.arena.update w.1 w.2.onEntry).state := by
  obtain ⟨j, w⟩ := w
  have hstate : ∀ f, (t.onArena fun a => a.update j f).state.arena = (t.arena.update j f).state :=
    fun f => by rw [onArena_eq, Outcome.state_mapState]
  cases w with
  | setLink next => exact hstate _
  | setShared => exact hstate _
  | redirect next => exact hstate _

theorem get?_writeLinks (ws : List (EntryId × LinkWrite)) : (t.writeLinks ws).arena.get? id =
    (t.arena.get? id).map fun e => e.writeLinks (writesTo id ws) := by
  induction ws generalizing t with
  | nil => cases h : t.arena.get? id <;> simp [writeLinks, writesTo, Entry.writeLinks, h]
  | cons w ws ih =>
    have hrest : t.writeLinks (w :: ws) = (t.writeLink w).state.writeLinks ws := rfl
    rw [hrest, ih, arena_writeLink, Arena.update_state_get?]
    by_cases hw : w.1 = id
    · simp [writesTo, hw, Entry.writeLinks_cons, Function.comp_def]
    · simp [writesTo, hw, Ne.symm hw]

theorem get?_of_newEntry [SlotSize α] {t u : Table α} {hash : UInt32} {literal : α} {id : EntryId}
    (h : t.newEntry hash literal = .ok id u) : u.arena.get? id = some (.fresh hash literal) := by
  rw [newEntry, onArena_eq] at h
  cases ha : t.arena.allocate hash literal t.sizing with
  | fail f a => simp [ha] at h
  | ok j a =>
    obtain ⟨rfl, rfl⟩ : j = id ∧ { t with arena := a } = u := by simpa [ha] using h
    exact (Arena.allocate_ok ha).2

end Table

/-- A link is an index or none, and a flag. An index below the limit goes through its id and its
links with no bit lost, each pair has one word, and writes leave the pair that they would leave on a
pair: on an entry by itself, on a live entry of a table, and from none and a clear flag on an entry
that is new. -/
theorem Link.packs_pairs [SlotSize α] (t : Table α) :
    (∀ i, (i < maxEntries → ∃ id, EntryId.ofIndex? i = some id ∧ id.index = i ∧ id.Exact) ∧
      (maxEntries ≤ i → EntryId.ofIndex? i = none)) ∧
    (Function.Bijective Link.reading ∧ ∀ l : Link, l.word.toNat = l.reading.code) ∧
    (∀ (e : Entry α) (ws : List LinkWrite), e.Rewritten ws (e.writeLinks ws)) ∧
    (∀ (ws : List (EntryId × LinkWrite)) (id : EntryId) (e : Entry α),
      t.arena.get? id = some e → ∃ f, (t.writeLinks ws).arena.get? id = some f ∧
        e.Rewritten (Table.writesTo id ws) f) ∧
    ∀ (hash : UInt32) (literal : α) (id : EntryId) (u : Table α)
      (ws : List (EntryId × LinkWrite)), t.newEntry hash literal = .ok id u →
      ∃ f, (u.writeLinks ws).arena.get? id = some f ∧ f.hash = hash ∧ f.literal = literal ∧
        f.reading = LinkWrite.readingAfter (Table.writesTo id ws) ⟨none, false⟩ := by
  have hlive : ∀ (t : Table α) (ws : List (EntryId × LinkWrite)) (id : EntryId) (e : Entry α),
      t.arena.get? id = some e → ∃ f, (t.writeLinks ws).arena.get? id = some f ∧
        e.Rewritten (Table.writesTo id ws) f := by
    intro t ws id e he
    refine ⟨e.writeLinks (Table.writesTo id ws), ?_, e.rewritten_writeLinks _⟩
    rw [t.get?_writeLinks, he, Option.map_some]
  refine ⟨fun i => ⟨fun hi => ?_, EntryId.ofIndex?_eq_none.mpr⟩, ⟨reading_bijective, toNat_word⟩,
    Entry.rewritten_writeLinks, hlive t, fun hash literal id u ws hmade => ?_⟩
  · exact ⟨.ofIndex i hi, EntryId.ofIndex?_eq_some.mpr (EntryId.index_ofIndex hi).symm,
      EntryId.index_ofIndex hi, EntryId.exact _⟩
  · obtain ⟨f, hf, hrewritten⟩ := hlive u ws id _ (Table.get?_of_newEntry hmade)
    refine ⟨f, hf, hrewritten.hash, hrewritten.literal, ?_⟩
    rw [hrewritten.reading, Entry.reading_fresh]

theorem Link.packs_pairs_largest :
    ∃ (t u : Table UInt32) (a top : EntryId) (ws : List (EntryId × LinkWrite)),
      ws = [(a, .setShared), (top, .setLink none), (a, .redirect (some top))] ∧
      t.newEntry 7 10 = .ok a u ∧ EntryId.ofIndex? (maxEntries - 1) = some top ∧
      EntryId.ofIndex? maxEntries = none ∧
      ∃ e f, (u.writeLinks ws).arena.get? a = some e ∧ e.reading = ⟨some top.toFin, true⟩ ∧
        e.link.word.toNat = 0xffffffff ∧
        ((u.writeLinks ws).writeLinks [(a, .setLink none)]).arena.get? a = some f ∧
        f.reading = ⟨none, false⟩ ∧ f.hash = 7 ∧ f.literal = 10 := by
  let a : EntryId := .ofIndex 0 (by decide)
  let t : Table UInt32 :=
    ⟨#[none, none], 0, ⟨#[.free none], some a, 1, 2, #[2]⟩, .symbol, .zero, by decide⟩
  let u := (t.newEntry 7 10).state
  have hmade : t.newEntry 7 10 = .ok a u := rfl
  obtain ⟨hindex, ⟨-, hcode⟩, -, -, hnew⟩ := packs_pairs t
  obtain ⟨top, htop, htopindex, -⟩ := (hindex (maxEntries - 1)).1 (by decide)
  have hnone := (hindex maxEntries).2 (Nat.le_refl _)
  have hne : top ≠ a := by
    intro h
    rw [h] at htopindex
    exact absurd htopindex (by decide)
  let ws : List (EntryId × LinkWrite) :=
    [(a, .setShared), (top, .setLink none), (a, .redirect (some top))]
  have hto : Table.writesTo a ws = [.setShared, .redirect (some top)] := by
    simp [ws, Table.writesTo, hne]
  obtain ⟨e, he, hhash, hliteral, hreading⟩ := hnew 7 10 a u ws hmade
  rw [hto] at hreading
  have hpair : e.reading = ⟨some top.toFin, true⟩ := hreading
  have hfull : e.link.word.toNat = 0xffffffff := by
    have hword : e.link.word.toNat = 2 * (top.index + 1) + 1 :=
      (hcode e.link).trans (congrArg Reading.code hpair)
    rw [hword, htopindex]
    rfl
  obtain ⟨-, -, -, hlive, -⟩ := packs_pairs (u.writeLinks ws)
  obtain ⟨f, hf, hagain⟩ := hlive [(a, .setLink none)] a e he
  have hplain : Table.writesTo a [(a, .setLink none)] = [.setLink none] := by
    simp [Table.writesTo]
  rw [hplain] at hagain
  exact ⟨t, u, a, top, ws, rfl, hmade, htop, hnone, e, f, he, hpair, hfull, hf, hagain.reading,
    hagain.hash.trans hhash, hagain.literal.trans hliteral⟩

end ChainedTable
