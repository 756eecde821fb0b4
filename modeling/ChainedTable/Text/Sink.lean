import ChainedTable.Outcome

set_option autoImplicit false

namespace ChainedTable

structure Sink where
  text : String
  limit : Option Nat
  deriving DecidableEq

def Sink.empty (limit : Option Nat) : Sink := ⟨"", limit⟩

def Sink.fits (s : Sink) (piece : String) : Bool :=
  s.limit.all fun n => s.text.utf8ByteSize + piece.utf8ByteSize ≤ n

def Sink.write (s : Sink) (piece : String) : Outcome Sink Unit :=
  if s.fits piece then .ok () { s with text := s.text ++ piece } else .fail .writeRefused s

end ChainedTable
