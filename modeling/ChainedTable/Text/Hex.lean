set_option autoImplicit false

namespace ChainedTable

/-- The lowest `width` hexadecimal digits of `n`, highest first. -/
def hexDigits : Nat → Nat → List Char
  | 0, _ => []
  | width + 1, n => hexDigits width (n / 16) ++ [Nat.digitChar (n % 16)]

def hexByte (b : UInt8) : String := String.ofList (hexDigits 2 b.toNat)

def hexWord (w : UInt32) : String := "0x" ++ String.ofList (hexDigits 8 w.toNat)

end ChainedTable
