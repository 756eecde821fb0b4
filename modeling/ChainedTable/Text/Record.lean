set_option autoImplicit false

namespace ChainedTable

def recordText (name : String) (fields : List (String × String)) : String :=
  name ++ " \x7b " ++ ", ".intercalate (fields.map fun f => f.1 ++ ": " ++ f.2) ++ " \x7d"

def listText (items : List String) : String := "[" ++ ", ".intercalate items ++ "]"

def optionText : Option String → String
  | none => "None"
  | some s => "Some(" ++ s ++ ")"

def quotedText (s : String) : String := "\"" ++ s ++ "\""

end ChainedTable
