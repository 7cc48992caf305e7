import SlotBoard.Module.Basic

/-!
The text of a module: nested parenthesised forms, one value or slot to a line.
-/
namespace SlotBoard

def flagText (flag : Bool) : String := if flag then "true" else "false"

def Variable.text (v : Variable) : String :=
  "(VAR " ++ v.kind.token ++ " " ++ v.name ++
    " :public " ++ flagText v.flags.isPublic ++
    " :global_constant " ++ flagText v.flags.globalConstant ++
    " :method_param " ++ flagText v.flags.methodParam ++
    " :original " ++ v.source ++
    " :method " ++ (if v.owner = "" then "null" else v.owner) ++
    " :private_method " ++ flagText v.flags.privateMethod ++
    " :volatile " ++ flagText v.flags.isVolatile ++
    " :member " ++ flagText v.flags.isMember ++ ")"

def Value.text : Value → String
  | var v => v.text
  | const c => "(CONSTANT " ++ c.kind.token ++ " " ++ c.name ++ " " ++ c.literal ++ ")"
  | unset => "(UNKNOWN <nil>)"

namespace Item

def nextText (item : Item) : String :=
  ":next (" ++ " ".intercalate (item.next.map fun n => toString n) ++ ")"

def text (item : Item) : String :=
  match item.operation with
  | .assign target source =>
    "(SET " ++ target.name ++ " (ASSIGN " ++ source.name ++ ") " ++ item.nextText ++ ")"
  | .binary opcode left right result =>
    "(SET " ++ result.name ++ " (" ++ opcode.token ++ " " ++ left.name ++ " " ++ right.name ++
      ") " ++ item.nextText ++ ")"
  | .call callee args result =>
    "(SET " ++ result.name ++ " (" ++ " ".intercalate ("CALL" :: callee :: args.map Value.name) ++
      ") " ++ item.nextText ++ ")"
  | .ret none => "(RETURN " ++ item.nextText ++ ")"
  | .ret (some value) => "(RETURN " ++ value.name ++ " " ++ item.nextText ++ ")"
  | .jumpIfTrue cond => "(JT " ++ cond.name ++ " " ++ item.nextText ++ ")"
  | .jump => "(JP " ++ item.nextText ++ ")"
  | .select key cases =>
    "(SELECT " ++ key.name ++ " (" ++ " ".intercalate (cases.map Value.name) ++ ") " ++
      item.nextText ++ ")"
  | .entry => "(METHOD_ENTRY " ++ item.nextText ++ ")"
  | .exit => "(METHOD_EXIT " ++ item.nextText ++ ")"

end Item

def Slot.text (slot : Slot) : String :=
  "(SLOT " ++ toString slot.address.toInt ++
    String.join (slot.items.map fun item => " " ++ item.text) ++ ")"

def indented (lines : List String) : String :=
  String.join (lines.map fun line => "    " ++ line ++ "\n")

def Board.text (board : Board) : String :=
  " (BOARD " ++ board.kind.token ++ " " ++ board.name ++ " \n" ++
    "  (VARIABLES\n" ++ indented (board.values.map Value.text) ++ "  )\n" ++
    "  (SEQUENCER " ++ board.name ++ "\n" ++ indented (board.slots.map Slot.text) ++ "  )\n" ++
    " ) \n"

def Module.text (m : Module) : String :=
  "(MODULE " ++ m.name ++ "\n" ++
    "  (VARIABLES\n" ++ indented (m.globals.map Variable.text) ++ "  )\n" ++
    String.join (m.boards.map Board.text) ++ ")\n"

end SlotBoard
