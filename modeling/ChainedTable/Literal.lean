import ChainedTable.Arena.Block
import ChainedTable.Text.Hex
import ChainedTable.Text.Record

set_option autoImplicit false

namespace ChainedTable

class Literal (α : Type) extends SlotSize α where
  size : α → Nat
  ofHash : UInt32 → α
  /-- The text in a listing. -/
  text : α → String
  /-- The text in a diagnosis. -/
  debugText : α → String

instance : Literal Unit where
  bytes := 12
  size _ := 0
  ofHash _ := ()
  text _ := "()"
  debugText _ := "()"

instance : Literal UInt8 where
  bytes := 16
  size x := x.toNat
  ofHash h := h.toUInt8
  text x := toString x.toNat
  debugText x := toString x.toNat

instance : Literal UInt32 where
  bytes := 16
  size x := x.toNat
  ofHash h := h
  text x := toString x.toNat
  debugText x := toString x.toNat

instance : Literal UInt64 where
  bytes := 24
  size x := x.toNat
  ofHash h := h.toUInt64
  text x := toString x.toNat
  debugText x := toString x.toNat

instance : Literal String where
  bytes := 32
  size s := s.utf8ByteSize
  ofHash h := "s" ++ toString h.toNat
  text s := s
  debugText := quotedText

/-- A text without room to grow. -/
structure FlatText where
  text : String
  deriving DecidableEq

instance : Literal FlatText where
  bytes := 24
  size s := s.text.utf8ByteSize
  ofHash h := ⟨"s" ++ toString h.toNat⟩
  text s := s.text
  debugText s := quotedText s.text

instance : Literal (List UInt8) where
  bytes := 32
  size := List.length
  ofHash h := List.replicate (h.toNat % 17) 0
  text b := String.join (b.map hexByte)
  debugText b := listText (b.map fun x => toString x.toNat)

/-- Five words, of which the first is the one that differs. -/
abbrev Wide := Vector UInt64 5

def Wide.ofFirst (x : UInt64) : Wide := #v[x, 0, 0, 0, 0]

def Wide.first (w : Wide) : UInt64 := w[0]

@[simp] theorem Wide.first_ofFirst (x : UInt64) : (ofFirst x).first = x := rfl

instance : Literal Wide where
  bytes := 56
  size w := (Wide.first w).toNat
  ofHash h := .ofFirst h.toUInt64
  text w := toString (Wide.first w).toNat
  debugText w := listText (w.toList.map fun x => toString x.toNat)

end ChainedTable
