import ChainedTable.Literal
import ChainedTable.Proofs.Table.Arrangement
import ChainedTable.Table.Call
import ChainedTable.Table.Listing

set_option autoImplicit false

/-!
What a listing writes. It is a line for each linked literal, and it comes to its end exactly where
the printer refuses none of them and all lines together keep to the limit. Otherwise it breaks off
within a line, behind which the printer is not called. Lines without a newline of their own can be
told apart in the listing, and so can the bucket and the text of a line, whatever the text.
-/

namespace ChainedTable

variable {α β : Type}

namespace Sink

def Within (s : Sink) : Prop := ∀ n ∈ s.limit, s.text.utf8ByteSize ≤ n

def append (s : Sink) (text : String) : Sink := { s with text := s.text ++ text }

variable {s : Sink} {a b piece : String} {pieces : List String}

@[simp] theorem append_append : (s.append a).append b = s.append (a ++ b) := by
  simp [append, String.append_assoc]

@[simp] theorem append_empty : s.append "" = s := by simp [append]

theorem Within.of_append (h : (s.append a).Within) : s.Within := by
  intro n hn
  have hle := h n hn
  rw [append, String.utf8ByteSize_append] at hle
  omega

theorem write_within (h : (s.append piece).Within) : s.write piece = .ok () (s.append piece) := by
  cases hl : s.limit with
  | none => simp [write, fits, hl, append]
  | some n =>
    have hle := h n hl
    rw [append, String.utf8ByteSize_append] at hle
    simp [write, fits, hl, hle, append]

theorem write_refused (h : ¬ (s.append piece).Within) : s.write piece = .fail .writeRefused s := by
  cases hl : s.limit with
  | none => simp [Within, append, hl] at h
  | some n =>
    have hlt : ¬ s.text.utf8ByteSize + piece.utf8ByteSize ≤ n := by
      simpa [Within, append, hl] using h
    simp [write, fits, hl, hlt]

theorem writeAll_within (h : (s.append (String.join pieces)).Within) :
    s.writeAll pieces = .ok () (s.append (String.join pieces)) := by
  induction pieces generalizing s with
  | nil => simp [writeAll]
  | cons piece rest ih =>
    rw [String.join_cons, ← append_append] at h ⊢
    rw [writeAll, write_within h.of_append, Outcome.bind_ok, ih h]

theorem writeAll_refused (hs : s.Within) (h : ¬ (s.append (String.join pieces)).Within) :
    ∃ written missing, String.join pieces = written ++ missing ∧ missing ≠ "" ∧
      s.writeAll pieces = .fail .writeRefused (s.append written) := by
  induction pieces generalizing s with
  | nil => exact absurd hs (by simpa using h)
  | cons piece rest ih =>
    by_cases hp : (s.append piece).Within
    · rw [String.join_cons, ← append_append] at h
      obtain ⟨written, missing, hjoin, hmissing, hw⟩ := ih hp h
      refine ⟨piece ++ written, missing, ?_, hmissing, ?_⟩
      · rw [String.join_cons, hjoin, String.append_assoc]
      · rw [writeAll, write_within hp, Outcome.bind_ok, hw, append_append]
    · refine ⟨"", String.join (piece :: rest), by simp, ?_, ?_⟩
      · intro hnone
        exact h (by rwa [hnone, append_empty])
      · rw [writeAll, write_refused hp, append_empty]
        rfl

end Sink

def lineText (line : Nat × String) : String := toString line.1 ++ " : " ++ line.2 ++ "\n"

def listing (lines : List (Nat × String)) : String := String.join (lines.map lineText)

@[simp] theorem listing_nil : listing [] = "" := rfl

theorem listing_cons (line : Nat × String) (lines : List (Nat × String)) :
    listing (line :: lines) = lineText line ++ listing lines := String.join_cons

theorem utf8ByteSize_lineText_pos (line : Nat × String) : 0 < (lineText line).utf8ByteSize := by
  rw [lineText, String.utf8ByteSize_append]
  exact Nat.add_pos_right _ (by decide)

theorem listing_append (xs ys : List (Nat × String)) :
    listing (xs ++ ys) = listing xs ++ listing ys := by simp [listing]

/-- What is ahead of the first `c` is determined. Behind it there may be more of them, which
`List.append_cons_inj_of_notMem` does not allow. -/
theorem cut_inj {c : Char} {xs ys s t : List Char} (hx : c ∉ xs) (hy : c ∉ ys)
    (h : xs ++ c :: s = ys ++ c :: t) : xs = ys ∧ s = t := by
  induction xs generalizing ys with
  | nil =>
    cases ys with
    | nil => exact ⟨rfl, by simpa using h⟩
    | cons y ys =>
      obtain ⟨rfl, -⟩ := List.cons.inj h
      simp at hy
  | cons x xs ih =>
    cases ys with
    | nil =>
      obtain ⟨rfl, -⟩ := List.cons.inj h
      simp at hx
    | cons y ys =>
      obtain ⟨rfl, hrest⟩ := List.cons.inj h
      simp only [List.mem_cons, not_or] at hx hy
      obtain ⟨rfl, rfl⟩ := ih hx.2 hy.2 hrest
      exact ⟨rfl, rfl⟩

theorem toDigits_inj {m n : Nat} (h : Nat.toDigits 10 m = Nat.toDigits 10 n) : m = n := by
  have hread := congrArg (fun l => Nat.ofDigitChars 10 l 0) h
  simpa only [Nat.ofDigitChars_ten_toDigits] using hread

theorem not_mem_toDigits {c : Char} (hc : c.isDigit = false) (n : Nat) : c ∉ Nat.toDigits 10 n := by
  intro h
  simp [Nat.isDigit_of_mem_toDigits (by decide) (by decide) h] at hc

def lineBody (line : Nat × String) : List Char :=
  Nat.toDigits 10 line.1 ++ ' ' :: ':' :: ' ' :: line.2.toList

theorem toList_lineText (line : Nat × String) :
    (lineText line).toList = lineBody line ++ ['\n'] := by simp [lineText, lineBody]

theorem newline_not_mem_lineBody {line : Nat × String} (h : '\n' ∉ line.2.toList) :
    '\n' ∉ lineBody line := by
  simp [lineBody, not_mem_toDigits (c := '\n') (by decide) line.1, h]

/-- The digits of the bucket have no blank, so the first blank ends them. -/
theorem lineBody_inj {l m : Nat × String} (h : lineBody l = lineBody m) : l = m := by
  obtain ⟨hdigits, hrest⟩ := cut_inj (not_mem_toDigits (c := ' ') (by decide) l.1)
    (not_mem_toDigits (c := ' ') (by decide) m.1) h
  have htext : l.2.toList = m.2.toList := by simpa using hrest
  exact Prod.ext (toDigits_inj hdigits) (String.toList_inj.mp htext)

theorem toList_listing_cons (line : Nat × String) (lines : List (Nat × String)) :
    (listing (line :: lines)).toList = lineBody line ++ '\n' :: (listing lines).toList := by
  simp [listing_cons, toList_lineText]

theorem listing_inj {xs ys : List (Nat × String)} (hx : ∀ l ∈ xs, '\n' ∉ l.2.toList)
    (hy : ∀ l ∈ ys, '\n' ∉ l.2.toList) : listing xs = listing ys ↔ xs = ys := by
  refine ⟨fun h => ?_, fun h => by rw [h]⟩
  induction xs generalizing ys with
  | nil =>
    cases ys with
    | nil => rfl
    | cons m ms =>
      have hchars := congrArg String.toList h
      rw [toList_listing_cons] at hchars
      simp at hchars
  | cons l ls ih =>
    obtain ⟨hl, hls⟩ := List.forall_mem_cons.mp hx
    have hchars := congrArg String.toList h
    cases ys with
    | nil =>
      rw [toList_listing_cons] at hchars
      simp at hchars
    | cons m ms =>
      obtain ⟨hm, hms⟩ := List.forall_mem_cons.mp hy
      rw [toList_listing_cons, toList_listing_cons] at hchars
      obtain ⟨hbody, hrest⟩ :=
        cut_inj (newline_not_mem_lineBody hl) (newline_not_mem_lineBody hm) hchars
      rw [lineBody_inj hbody, ih hls hms (String.toList_inj.mp hrest)]

namespace Transcript

def extend (r : Transcript α) (text : String) (xs : List α) : Transcript α :=
  ⟨r.sink.append text, r.called ++ xs⟩

def writeLines (r : Transcript α) (p : Printer α) : List (Nat × α) → Outcome (Transcript α) Unit
  | [] => .ok () r
  | x :: rest => (r.writeLine p x.1 x.2).bind fun _ r => r.writeLines p rest

variable {p : Printer α} {r : Transcript α} {i : Nat} {x : α} {xs : List (Nat × α)}
  {pieces : List String}

@[simp] theorem sink_extend (text : String) (ys : List α) :
    (r.extend text ys).sink = r.sink.append text := rfl

@[simp] theorem extend_extend (a b : String) (ys zs : List α) :
    (r.extend a ys).extend b zs = r.extend (a ++ b) (ys ++ zs) := by
  have hcalled : r.called ++ ys ++ zs = r.called ++ (ys ++ zs) := Array.toList_inj.mp (by simp)
  simp [extend, hcalled]

theorem write_within (h : (r.sink.append (String.join pieces)).Within) :
    r.write pieces = .ok () (r.extend (String.join pieces) []) := by
  simp [write, Sink.writeAll_within h, extend]

theorem write_refused (hr : r.sink.Within) (h : ¬ (r.sink.append (String.join pieces)).Within) :
    ∃ written missing, String.join pieces = written ++ missing ∧ missing ≠ "" ∧
      r.write pieces = .fail .writeRefused (r.extend written []) := by
  obtain ⟨written, missing, hjoin, hmissing, hw⟩ := Sink.writeAll_refused hr h
  exact ⟨written, missing, hjoin, hmissing, by simp [write, hw, extend]⟩

end Transcript

namespace Printer

def lines (p : Printer α) (xs : List (Nat × α)) : List (Nat × String) :=
  xs.map fun x => (x.1, p.text x.2)

theorem lines_cons (p : Printer α) (x : Nat × α) (xs : List (Nat × α)) :
    p.lines (x :: xs) = (x.1, p.text x.2) :: p.lines xs := rfl

theorem lines_append (p : Printer α) (xs ys : List (Nat × α)) :
    p.lines (xs ++ ys) = p.lines xs ++ p.lines ys := List.map_append

end Printer

namespace Transcript

variable {p : Printer α} {r : Transcript α} {i : Nat} {x : α} {xs : List (Nat × α)}

theorem call_within (hx : p.refuses x = false) (h : (r.sink.append (p.text x)).Within) :
    r.call p x = .ok () (r.extend (p.text x) [x]) := by
  simp [call, hx, write, Sink.writeAll_within h, extend, Printer.text]

theorem call_breaks (hr : r.sink.Within)
    (h : p.refuses x = true ∨ ¬ (r.sink.append (p.text x)).Within) :
    ∃ written missing, p.text x = written ++ missing ∧
      r.call p x = .fail .writeRefused (r.extend written [x]) := by
  cases hx : p.refuses x with
  | true => exact ⟨"", p.text x, by simp, by simp [call, hx, extend]⟩
  | false =>
    rw [hx, Bool.false_eq_true, false_or] at h
    obtain ⟨written, missing, hjoin, -, hw⟩ := Sink.writeAll_refused hr h
    exact ⟨written, missing, hjoin, by simp [call, hx, write, hw, extend]⟩

theorem lineText_eq (i : Nat) (text : String) : lineText (i, text) =
    String.join [toString i, " : "] ++ (text ++ String.join ["\n"]) := by
  simp [lineText, String.append_assoc]

theorem writeLine_within (hx : p.refuses x = false)
    (h : (r.sink.append (lineText (i, p.text x))).Within) :
    r.writeLine p i x = .ok () (r.extend (lineText (i, p.text x)) [x]) := by
  rw [lineText_eq, ← Sink.append_append, ← Sink.append_append] at h
  rw [writeLine, write_within h.of_append.of_append, Outcome.bind_ok, call_within hx h.of_append,
    Outcome.bind_ok, write_within h, lineText_eq]
  simp [String.append_assoc]

theorem call_write_breaks (hr : r.sink.Within)
    (h : p.refuses x = true ∨
      ¬ ((r.sink.append (p.text x)).append (String.join ["\n"])).Within) :
    ∃ written missing, p.text x ++ String.join ["\n"] = written ++ missing ∧ missing ≠ "" ∧
      ((r.call p x).bind fun _ r => r.write ["\n"]) =
        .fail .writeRefused (r.extend written [x]) := by
  by_cases hfits : p.refuses x = false ∧ (r.sink.append (p.text x)).Within
  · obtain ⟨hx, htext⟩ := hfits
    rw [hx, Bool.false_eq_true, false_or] at h
    rw [call_within hx htext, Outcome.bind_ok]
    obtain ⟨written, missing, hjoin, hmissing, hw⟩ :=
      write_refused (r := r.extend (p.text x) [x]) htext h
    exact ⟨p.text x ++ written, missing, by rw [hjoin, String.append_assoc], hmissing,
      by simp [hw]⟩
  · have hbreaks : p.refuses x = true ∨ ¬ (r.sink.append (p.text x)).Within := by
      rwa [Classical.not_and_iff_not_or_not, Bool.not_eq_false] at hfits
    obtain ⟨written, missing, htext, hc⟩ := call_breaks hr hbreaks
    exact ⟨written, missing ++ String.join ["\n"], by rw [htext, String.append_assoc], by simp,
      by rw [hc, Outcome.bind_fail]⟩

theorem writeLine_breaks (hr : r.sink.Within)
    (h : p.refuses x = true ∨ ¬ (r.sink.append (lineText (i, p.text x))).Within) :
    ∃ written missing called, lineText (i, p.text x) = written ++ missing ∧ missing ≠ "" ∧
      (called = [] ∨ called = [x]) ∧
      r.writeLine p i x = .fail .writeRefused (r.extend written called) := by
  rw [lineText_eq] at h ⊢
  rw [← Sink.append_append, ← Sink.append_append] at h
  by_cases hhead : (r.sink.append (String.join [toString i, " : "])).Within
  · obtain ⟨written, missing, hrest, hmissing, hw⟩ :=
      call_write_breaks (r := r.extend (String.join [toString i, " : "]) []) hhead h
    refine ⟨String.join [toString i, " : "] ++ written, missing, [x], ?_, hmissing, .inr rfl, ?_⟩
    · rw [hrest, String.append_assoc]
    · rw [writeLine, write_within hhead, Outcome.bind_ok, hw, extend_extend, List.nil_append]
  · obtain ⟨written, missing, hjoin, hmissing, hw⟩ := write_refused hr hhead
    refine ⟨written, missing ++ (p.text x ++ String.join ["\n"]), [], ?_, ?_, .inl rfl, ?_⟩
    · rw [hjoin, String.append_assoc]
    · simp
    · rw [writeLine, hw, Outcome.bind_fail]

theorem writeLine_cases (hr : r.sink.Within) (p : Printer α) (i : Nat) (x : α) :
    r.writeLine p i x = .ok () (r.extend (lineText (i, p.text x)) [x]) ∧
        (r.extend (lineText (i, p.text x)) [x]).sink.Within ∨
      ∃ s, r.writeLine p i x = .fail .writeRefused s := by
  by_cases hfits : p.refuses x = false ∧ (r.sink.append (lineText (i, p.text x))).Within
  · exact .inl ⟨writeLine_within hfits.1 hfits.2, hfits.2⟩
  · rw [Classical.not_and_iff_not_or_not, Bool.not_eq_false] at hfits
    obtain ⟨_, _, _, -, -, -, hw⟩ := writeLine_breaks hr hfits
    exact .inr ⟨_, hw⟩

theorem writeLine_whole (hwhole : ∀ x, p.pieces x = [p.text x]) (r : Transcript α) (i : Nat)
    (x : α) : r.writeLine (.whole p.textOf) i x = r.writeLine p i x := by
  have hcall : ∀ r : Transcript α, r.call (.whole p.textOf) x = r.call p x := by
    intro r
    cases hx : p.refuses x with
    | true => simp [call, Printer.whole, Printer.textOf, hx]
    | false => simp [call, Printer.whole, Printer.textOf, hx, hwhole]
  simp only [writeLine, hcall]

theorem writeLines_append (r : Transcript α) (xs ys : List (Nat × α)) :
    r.writeLines p (xs ++ ys) = (r.writeLines p xs).bind fun _ r => r.writeLines p ys := by
  induction xs generalizing r with
  | nil => rfl
  | cons x xs ih =>
    simp only [List.cons_append, writeLines, Outcome.bind_assoc, ih]

theorem writeLines_within (hx : ∀ x ∈ xs, p.refuses x.2 = false)
    (h : (r.sink.append (listing (p.lines xs))).Within) :
    r.writeLines p xs = .ok () (r.extend (listing (p.lines xs)) (xs.map Prod.snd)) := by
  induction xs generalizing r with
  | nil => simp [writeLines, Printer.lines, extend]
  | cons x xs ih =>
    obtain ⟨hx, hxs⟩ := List.forall_mem_cons.mp hx
    rw [Printer.lines_cons, listing_cons] at h ⊢
    rw [← Sink.append_append] at h
    rw [writeLines, writeLine_within hx h.of_append, Outcome.bind_ok, ih hxs h]
    simp

/-- Lines of which one is refused, or that do not all fit, are written up to the first that is the
cause, and of that a part. -/
theorem writeLines_breaks (hr : r.sink.Within)
    (h : ¬ ((∀ x ∈ xs, p.refuses x.2 = false) ∧
      (r.sink.append (listing (p.lines xs))).Within)) :
    ∃ ahead x behind written missing called, xs = ahead ++ x :: behind ∧
      (p.refuses x.2 = true ∨ ¬ (r.sink.append (listing (p.lines (ahead ++ [x])))).Within) ∧
      lineText (x.1, p.text x.2) = written ++ missing ∧ missing ≠ "" ∧
      (called = [] ∨ called = [x.2]) ∧
      r.writeLines p xs = .fail .writeRefused
        (r.extend (listing (p.lines ahead) ++ written) (ahead.map Prod.snd ++ called)) := by
  induction xs generalizing r with
  | nil => exact absurd ⟨by simp, by simpa [Printer.lines] using hr⟩ h
  | cons x xs ih =>
    -- a line that fits is behind us, and the limit is that of the longer text; else it is the cause
    by_cases hfits : p.refuses x.2 = false ∧ (r.sink.append (lineText (x.1, p.text x.2))).Within
    · obtain ⟨hx, hline⟩ := hfits
      rw [List.forall_mem_cons, Printer.lines_cons, listing_cons, ← Sink.append_append] at h
      obtain ⟨ahead, y, behind, written, missing, called, rfl, hcause, hy, hmissing, hcalled, hw⟩ :=
        ih (r := r.extend (lineText (x.1, p.text x.2)) [x.2]) hline fun hrest =>
          h ⟨⟨hx, hrest.1⟩, hrest.2⟩
      refine ⟨x :: ahead, y, behind, written, missing, called, rfl, ?_, hy, hmissing, hcalled, ?_⟩
      · rwa [List.cons_append, Printer.lines_cons, listing_cons, ← Sink.append_append]
      · rw [writeLines, writeLine_within hx hline, Outcome.bind_ok, hw, extend_extend,
          Printer.lines_cons, listing_cons, String.append_assoc]
        rfl
    · have hcause : p.refuses x.2 = true ∨
          ¬ (r.sink.append (lineText (x.1, p.text x.2))).Within := by
        rwa [Classical.not_and_iff_not_or_not, Bool.not_eq_false] at hfits
      obtain ⟨written, missing, called, hline, hmissing, hcalled, hw⟩ := writeLine_breaks hr hcause
      refine ⟨[], x, xs, written, missing, called, rfl, ?_, hline, hmissing, hcalled, ?_⟩
      · simpa [Printer.lines, listing] using hcause
      · simp [writeLines, hw, Printer.lines]

/-- The transcript broke off at the literal `x`, behind these others: the printer fails on `x`, or
its line passes the limit. The lines ahead are written, and of that line a part; the printer was
called for the literals ahead, for `x` at most, and for none behind it. -/
structure BrokeOff (r : Transcript α) (p : Printer α) (limit : Option Nat) (ahead : List (Nat × α))
    (x : Nat × α) : Prop where
  cause : p.refuses x.2 = true ∨
    ∃ n ∈ limit, n < (listing (p.lines (ahead ++ [x]))).utf8ByteSize
  written : ∃ part missing, lineText (x.1, p.text x.2) = part ++ missing ∧ missing ≠ "" ∧
    r.sink.text = listing (p.lines ahead) ++ part
  called : r.called.toList = ahead.map Prod.snd ∨ r.called.toList = (ahead ++ [x]).map Prod.snd

theorem BrokeOff.listing_eq {limit : Option Nat} {ahead behind : List (Nat × α)} {y : Nat × α}
    (h : r.BrokeOff p limit ahead y) : ∃ missing, missing ≠ "" ∧
      listing (p.lines (ahead ++ y :: behind)) = r.sink.text ++ missing := by
  obtain ⟨part, missing, hline, hmissing, htext⟩ := h.written
  refine ⟨missing ++ listing (p.lines behind), ?_, ?_⟩
  · simp [hmissing]
  · rw [Printer.lines_append, listing_append, Printer.lines_cons, listing_cons, hline, htext]
    simp only [String.append_assoc]

theorem start_within (limit : Option Nat) : (start limit : Transcript α).sink.Within := by
  intro n _
  exact Nat.zero_le n

theorem start_append_within {limit : Option Nat} {text : String} :
    ((start limit : Transcript α).sink.append text).Within ↔
      ∀ n ∈ limit, text.utf8ByteSize ≤ n := by
  simp [Sink.Within, Sink.append, start, Sink.empty]

end Transcript

namespace Table

/-- The literals on these chains with their buckets, bucket by bucket and each chain from its
head. -/
def shelved (t : Table α) (chains : Nat → List EntryId) : List (Nat × α) :=
  (List.range t.size).flatMap fun i =>
    (chains i).filterMap fun id => (t.arena.get? id).map fun e => (i, e.literal)

def Listable (t : Table α) (chains : Nat → List EntryId) (p : Printer α) (limit : Option Nat) :
    Prop :=
  (∀ x ∈ t.shelved chains, p.refuses x.2 = false) ∧
    ∀ n ∈ limit, (listing (p.lines (t.shelved chains))).utf8ByteSize ≤ n

structure Lists (t : Table α) (chains : Nat → List EntryId) (p : Printer α) (limit : Option Nat) :
    Prop where
  succeeds : (∃ r, t.transcribe p limit = .ok () r) ↔ t.Listable chains p limit
  complete : ∀ r, t.transcribe p limit = .ok () r →
    r.sink.text = listing (p.lines (t.shelved chains)) ∧
      r.called.toList = (t.shelved chains).map Prod.snd
  breaks : ∀ f r, t.transcribe p limit = .fail f r → f = .writeRefused ∧
    (∃ missing, missing ≠ "" ∧
      listing (p.lines (t.shelved chains)) = r.sink.text ++ missing) ∧
    ∃ ahead x behind, t.shelved chains = ahead ++ x :: behind ∧ r.BrokeOff p limit ahead x
  /-- A listing without a record of the calls writes the same. -/
  print : (∀ x, p.pieces x = [p.text x]) →
    t.print p.textOf (.empty limit) = (t.transcribe p limit).mapState Transcript.sink

variable {t : Table α} {chains : Nat → List EntryId} {p : Printer α} {limit : Option Nat} {i : Nat}

theorem transcribeChain_of_path {ids : List EntryId} {c : Option EntryId} {bound : Nat}
    (h : Path t.arena.link c ids none) (hb : ids.length ≤ bound) (r : Transcript α) :
    t.transcribeChain p i bound c r =
      r.writeLines p (ids.filterMap fun id => (t.arena.get? id).map fun e => (i, e.literal)) := by
  induction ids generalizing bound c r with
  | nil =>
    obtain rfl := h
    cases bound <;> rfl
  | cons id ids ih =>
    obtain ⟨rfl, next, hnext, hrest⟩ := h
    obtain ⟨e, he, rfl⟩ := Arena.link_eq_some.mp hnext
    cases bound with
    | zero => simp at hb
    | succ bound =>
      have hb : ids.length ≤ bound := Nat.le_of_succ_le_succ hb
      simp only [transcribeChain, he, List.filterMap_cons, Option.map_some, Transcript.writeLines,
        ih hrest hb]

theorem transcribeChains_eq {is : List Nat}
    (h : ∀ i ∈ is, Path t.arena.link (t.head i) (chains i) none) (r : Transcript α) :
    t.transcribeChains p is r = r.writeLines p (is.flatMap fun i =>
      (chains i).filterMap fun id => (t.arena.get? id).map fun e => (i, e.literal)) := by
  induction is generalizing r with
  | nil => rfl
  | cons i rest ih =>
    obtain ⟨hi, hrest⟩ := List.forall_mem_cons.mp h
    have hlen : (chains i).length ≤ t.listingBound r.sink.limit :=
      Nat.le_trans (Nat.le_succ_of_le (Arena.length_le_carved hi rfl)) (Nat.le_add_right _ _)
    simp only [transcribeChains, transcribeChain_of_path hi hlen, ih hrest, List.flatMap_cons,
      Transcript.writeLines_append]

/-- A chain is listed and keeps to the limit, or its listing stops. If it stops at the bound, the
limit admits so many lines, and the chain goes on behind them. -/
theorem transcribeChain_cases {r : Transcript α} (hr : r.sink.Within) (i bound : Nat)
    (c : Option EntryId) :
    (∃ s, t.transcribeChain p i bound c r = .ok () s ∧ s.sink.Within ∧
      s.sink.limit = r.sink.limit) ∨
    ∃ f s, t.transcribeChain p i bound c r = .fail f s ∧ (f = .endless →
      (∀ n ∈ r.sink.limit, r.sink.text.utf8ByteSize + bound ≤ n) ∧
        (t.arena.walk bound c).ending = .unfinished) := by
  induction bound generalizing c r with
  | zero =>
    cases c with
    | none => exact .inl ⟨r, rfl, hr, rfl⟩
    | some id => exact .inr ⟨.endless, r, rfl, fun _ => ⟨hr, rfl⟩⟩
  | succ bound ih =>
    cases c with
    | none => exact .inl ⟨r, rfl, hr, rfl⟩
    | some id =>
      cases he : t.arena.get? id with
      | none => exact .inr ⟨.notAllocated id, r, by simp [transcribeChain, he], by simp⟩
      | some e =>
        simp only [transcribeChain, he, Arena.walk_live bound he]
        rcases Transcript.writeLine_cases hr p i e.literal with ⟨hline, hs⟩ | ⟨s, hline⟩
        · rw [hline, Outcome.bind_ok]
          rcases ih hs e.next with hok | ⟨f, s, hfail, hstop⟩
          · exact .inl hok
          · refine .inr ⟨f, s, hfail, fun hf => ?_⟩
            obtain ⟨hlimit, hend⟩ := hstop hf
            refine ⟨fun n hn => ?_, hend⟩
            -- the line written has used up at least one byte, as the step has one of the bound
            have hle := hlimit n hn
            have hpos := utf8ByteSize_lineText_pos (i, p.text e.literal)
            rw [Transcript.sink_extend, Sink.append, String.utf8ByteSize_append] at hle
            omega
        · exact .inr ⟨.writeRefused, s, by rw [hline, Outcome.bind_fail], by simp⟩

theorem transcribeChains_endless {is : List Nat} {r r' : Transcript α} (hr : r.sink.Within)
    (h : t.transcribeChains p is r = .fail .endless r') :
    r.sink.limit = none ∧ ∃ i ∈ is, (t.walk i).ending = .unfinished := by
  induction is generalizing r with
  | nil => simp [transcribeChains] at h
  | cons i is ih =>
    rw [transcribeChains] at h
    rcases transcribeChain_cases hr i (t.listingBound r.sink.limit) (t.head i) with
      ⟨s, hi, hs, hlimit⟩ | ⟨f, s, hi, hstop⟩
    · rw [hi, Outcome.bind_ok] at h
      obtain ⟨hnone, j, hj, hend⟩ := ih hs h
      exact ⟨hlimit.symm.trans hnone, j, List.mem_cons_of_mem i hj, hend⟩
    · rw [hi, Outcome.bind_fail] at h
      obtain ⟨rfl, rfl⟩ := Outcome.fail.inj h
      obtain ⟨hlimit, hend⟩ := hstop rfl
      have hnone : r.sink.limit = none := by
        cases hl : r.sink.limit with
        | none => rfl
        | some n =>
          have hle := hlimit n hl
          simp only [listingBound, walkBound, hl, Option.getD_some] at hle
          omega
      refine ⟨hnone, i, List.mem_cons_self, ?_⟩
      rwa [hnone] at hend

/-- A listing goes on for ever only without a limit, and along a chain that never ends. -/
theorem transcribe_endless {r : Transcript α} (h : t.transcribe p limit = .fail .endless r) :
    limit = none ∧ ∃ i < t.size, (t.walk i).ending = .unfinished := by
  obtain ⟨hnone, i, hi, hend⟩ := transcribeChains_endless (Transcript.start_within limit) h
  exact ⟨hnone, i, List.mem_range.mp hi, hend⟩

section
variable (hwhole : ∀ x, p.pieces x = [p.text x])
include hwhole

theorem transcribeChain_whole (bound : Nat) (c : Option EntryId) (r : Transcript α) :
    t.transcribeChain (.whole p.textOf) i bound c r = t.transcribeChain p i bound c r := by
  induction bound generalizing c r with
  | zero => cases c <;> rfl
  | succ bound ih =>
    cases c with
    | none => rfl
    | some id => simp only [transcribeChain, Transcript.writeLine_whole hwhole, ih]

theorem transcribeChains_whole (is : List Nat) (r : Transcript α) :
    t.transcribeChains (.whole p.textOf) is r = t.transcribeChains p is r := by
  induction is generalizing r with
  | nil => rfl
  | cons i is ih => simp only [transcribeChains, transcribeChain_whole hwhole, ih]

end

section
variable (hpath : ∀ i < t.size, Path t.arena.link (t.head i) (chains i) none)
include hpath

theorem transcribe_eq :
    t.transcribe p limit = (Transcript.start limit).writeLines p (t.shelved chains) :=
  transcribeChains_eq (fun i hi => hpath i (List.mem_range.mp hi)) _

theorem transcribe_of_listable (h : t.Listable chains p limit) :
    t.transcribe p limit = .ok () ((Transcript.start limit).extend
      (listing (p.lines (t.shelved chains))) ((t.shelved chains).map Prod.snd)) := by
  rw [transcribe_eq hpath,
    Transcript.writeLines_within h.1 (Transcript.start_append_within.mpr h.2)]

theorem transcribe_of_not_listable (h : ¬ t.Listable chains p limit) :
    ∃ r, t.transcribe p limit = .fail .writeRefused r ∧ ∃ ahead x behind,
      t.shelved chains = ahead ++ x :: behind ∧ r.BrokeOff p limit ahead x := by
  rw [Listable, ← Transcript.start_append_within] at h
  obtain ⟨ahead, x, behind, part, missing, called, hsplit, hcause, hline, hmissing, hcalled, hw⟩ :=
    Transcript.writeLines_breaks (Transcript.start_within limit) h
  refine ⟨_, by rw [transcribe_eq hpath, hw], ahead, x, behind, hsplit, ?_⟩
  constructor
  case cause =>
    rw [Transcript.start_append_within] at hcause
    simpa using hcause
  case written =>
    refine ⟨part, missing, hline, hmissing, ?_⟩
    simp [Transcript.extend, Transcript.start, Sink.append, Sink.empty]
  case called =>
    rcases hcalled with rfl | rfl
    · exact .inl (by simp [Transcript.extend, Transcript.start])
    · exact .inr (by simp [Transcript.extend, Transcript.start])

theorem lists (p : Printer α) (limit : Option Nat) : t.Lists chains p limit := by
  by_cases h : t.Listable chains p limit
  · have hok := transcribe_of_listable hpath h
    constructor
    case succeeds => exact ⟨fun _ => h, fun _ => ⟨_, hok⟩⟩
    case complete =>
      intro r hr
      obtain ⟨-, rfl⟩ := Outcome.ok.inj (hok.symm.trans hr)
      simp [Transcript.extend, Transcript.start, Sink.append, Sink.empty]
    case breaks =>
      intro f r hr
      simp [hok] at hr
    case print => exact fun hwhole => by rw [print, transcribeChains_whole hwhole]; rfl
  · obtain ⟨s, hs, ahead, x, behind, hsplit, hbroke⟩ := transcribe_of_not_listable hpath h
    constructor
    case succeeds => simp [hs, h]
    case complete =>
      intro r hr
      simp [hs] at hr
    case breaks =>
      intro f r hr
      obtain ⟨rfl, rfl⟩ := Outcome.fail.inj (hs.symm.trans hr)
      refine ⟨rfl, ?_, ahead, x, behind, hsplit, hbroke⟩
      rw [hsplit]
      exact hbroke.listing_eq
    case print => exact fun hwhole => by rw [print, transcribeChains_whole hwhole]; rfl

/-- Where every chain ends, a listing is the lines of the literals on the chains. It succeeds
exactly if the printer refuses none of them and the lines keep to the limit, and otherwise breaks
off with a part of them written. Where no text has a newline, two listings are the same exactly if
the buckets and the texts are. -/
theorem transcribe_lists (p : Printer α) (limit : Option Nat) :
    t.Lists chains p limit ∧
    ∀ (u : Table β) (chains' : Nat → List EntryId) (q : Printer β),
      (∀ l ∈ p.lines (t.shelved chains), '\n' ∉ l.2.toList) →
      (∀ l ∈ q.lines (u.shelved chains'), '\n' ∉ l.2.toList) →
      (listing (p.lines (t.shelved chains)) = listing (q.lines (u.shelved chains')) ↔
        p.lines (t.shelved chains) = q.lines (u.shelved chains')) :=
  ⟨lists hpath p limit, fun _ _ _ hp hq => listing_inj hp hq⟩

end

theorem transcribe_lists_cut :
    ∃ (t u : Table UInt32) (chains moved : Nat → List EntryId) (p : Printer UInt32),
      (∀ i < t.size, Path t.arena.link (t.head i) (chains i) none) ∧
      (∀ i < u.size, Path u.arena.link (u.head i) (moved i) none) ∧
      t.shelved chains = [(1, 30), (1, 10)] ∧ u.shelved moved = [(0, 30), (1, 10)] ∧
      (∃ r, t.transcribe p (some 20) = .ok () r ∧ r.sink.text = "1 : lit30\n1 : lit10\n") ∧
      (∃ r, t.transcribe p (some 18) = .fail .writeRefused r ∧
        r.sink.text = "1 : lit30\n1 : lit" ∧ r.called = #[30, 10]) ∧
      listing (p.lines (t.shelved chains)) ≠ listing (p.lines (u.shelved moved)) := by
  let a : EntryId := .ofIndex 0 (by decide)
  let b : EntryId := .ofIndex 1 (by decide)
  let t : Table UInt32 := ⟨#[none, some b], 2,
    ⟨#[.occupied ⟨1, .ofNext none, 10⟩, .occupied ⟨3, .ofNext (some a), 30⟩], none, 0, 2, #[2]⟩,
    .symbol, ⟨2, 0⟩, by decide⟩
  let u : Table UInt32 := ⟨#[some b, some a], 2,
    ⟨#[.occupied ⟨1, .ofNext none, 10⟩, .occupied ⟨2, .ofNext none, 30⟩], none, 0, 2, #[2]⟩,
    .symbol, ⟨2, 0⟩, by decide⟩
  let p : Printer UInt32 := ⟨fun x => ["lit", toString x.toNat], fun x => x = 7⟩
  let chains : Nat → List EntryId := fun i => if i = 1 then [b, a] else []
  let moved : Nat → List EntryId := fun i => if i = 1 then [a] else [b]
  have hends : ∀ i < t.size, (t.walk i).ending = .closed ∧ (t.walk i).ids = chains i := by
    decide +kernel
  have hends' : ∀ i < u.size, (u.walk i).ending = .closed ∧ (u.walk i).ids = moved i := by
    decide +kernel
  have hpath : ∀ i < t.size, Path t.arena.link (t.head i) (chains i) none :=
    fun i hi => path_of_closed (hends i hi).1 (hends i hi).2
  have hmoved : ∀ i < u.size, Path u.arena.link (u.head i) (moved i) none :=
    fun i hi => path_of_closed (hends' i hi).1 (hends' i hi).2
  have ht : t.shelved chains = [(1, 30), (1, 10)] := by decide +kernel
  have hu : u.shelved moved = [(0, 30), (1, 10)] := by decide +kernel
  have htext : listing (p.lines (t.shelved chains)) = "1 : lit30\n1 : lit10\n" := by decide +kernel
  have hlist : t.Listable chains p (some 20) := by
    rw [Listable, ht]
    decide +kernel
  obtain ⟨hall, hinj⟩ := transcribe_lists (β := UInt32) hpath p (some 20)
  refine ⟨t, u, chains, moved, p, hpath, hmoved, ht, hu, ?_, ?_, ?_⟩
  · obtain ⟨r, hr⟩ := hall.succeeds.mpr hlist
    exact ⟨r, hr, (hall.complete r hr).1.trans htext⟩
  · obtain ⟨hcut, -⟩ := transcribe_lists (β := UInt32) hpath p (some 18)
    have hpart : (t.transcribe p (some 18)).state.sink.text = "1 : lit30\n1 : lit" := by
      decide +kernel
    have hcalled : (t.transcribe p (some 18)).state.called = #[30, 10] := by decide +kernel
    cases hr : t.transcribe p (some 18) with
    | ok _ r =>
      have hfull := (hcut.complete r hr).1
      rw [hr, Outcome.state_ok, hfull, htext] at hpart
      exact absurd hpart (by decide)
    | fail f r =>
      obtain ⟨rfl, -⟩ := hcut.breaks f r hr
      rw [hr] at hpart hcalled
      exact ⟨r, rfl, hpart, hcalled⟩
  · have hlines : ∀ l ∈ p.lines (t.shelved chains), '\n' ∉ l.2.toList := by
      rw [ht]
      decide +kernel
    have hlines' : ∀ l ∈ p.lines (u.shelved moved), '\n' ∉ l.2.toList := by
      rw [hu]
      decide +kernel
    rw [Ne, hinj u moved p hlines hlines', ht, hu]
    decide +kernel

end Table

end ChainedTable
