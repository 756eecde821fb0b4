import ChainedTable.Arena.Basic
import ChainedTable.Text.Record

set_option autoImplicit false

namespace ChainedTable

variable {α : Type}

def Link.text (l : Link) : String :=
  recordText "Link"
    [("next", optionText (l.next.map EntryId.text)), ("shared", toString l.isShared)]

def Entry.text (literalText : α → String) (e : Entry α) : String :=
  recordText "Entry"
    [("hash", toString e.hash.toNat), ("link", e.link.text), ("literal", literalText e.literal)]

def Slot.text (literalText : α → String) : Slot α → String
  | .occupied e => "Occupied(" ++ e.text literalText ++ ")"
  | .free next => recordText "Free" [("next_free", optionText (next.map EntryId.text))]

def Arena.text (literalText : α → String) (a : Arena α) : String :=
  recordText "BlockArena"
    [("slots", listText (a.slots.toList.map (Slot.text literalText))),
      ("free_list", optionText (a.freeHead.map EntryId.text)),
      ("free_count", toString a.freeCount),
      ("end_block", toString a.reserved),
      ("blocks", listText (a.blocks.toList.map toString))]

end ChainedTable
