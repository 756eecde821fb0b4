set_option autoImplicit false

namespace ChainedTable

def alignRight (width : Nat) (s : String) : String :=
  String.ofList (List.replicate (width - s.length) ' ') ++ s

theorem length_alignRight (width : Nat) (s : String) :
    (alignRight width s).length = max width s.length := by
  simp [alignRight]
  omega

def column (n : Nat) : String := alignRight 9 (toString n)

end ChainedTable
