import SlotBoard.Source.Syntax

/-!
What the lowering reports. A diagnostic names its kind, the position of the node it is about, the
board under construction (empty at module scope) and a message.
-/
namespace SlotBoard

/-- `unsupportedOperator` is a warning: its item is emitted all the same. Codes without a name of
their own are kept as numbers. -/
inductive DiagnosticKind where
  | unsupported
  | unresolved
  | unsupportedOperator
  | redeclared
  | numbered (code : Int)
deriving DecidableEq, Inhabited

namespace DiagnosticKind

def ofCode (code : Int) : DiagnosticKind :=
  if code = 0 then unsupported
  else if code = 1 then unresolved
  else if code = 2 then unsupportedOperator
  else if code = 3 then redeclared
  else numbered code

def label : DiagnosticKind → String
  | unsupported => "unsupported"
  | unresolved => "unresolved"
  | unsupportedOperator => "unsupported operator"
  | redeclared => "redeclared"
  | numbered code => "DiagKind(" ++ toString code ++ ")"

end DiagnosticKind

structure Diagnostic where
  kind : DiagnosticKind
  pos : Position
  board : String
  message : String
deriving DecidableEq, Inhabited

/-- A position in front of a message, left out when the line is not known. -/
def Position.located (pos : Position) (message : String) : String :=
  if 0 < pos.line then
    "line " ++ toString pos.line ++ ", column " ++ toString pos.column ++ ": " ++ message
  else message

def Diagnostic.text (d : Diagnostic) : String :=
  d.pos.located ((if d.board = "" then "<module>" else d.board) ++ ": " ++ d.kind.label ++ ": " ++
    d.message)

end SlotBoard
