import SlotBoard.Board.Printer
import SlotBoard.Document.File
import SlotBoard.Editor.Cursor
import SlotBoard.Lowering.Unit

/-!
What an editor learns about one version of a document: findings, completions at a cursor, and the
lowered form of the name under a cursor. Positions in a document's nodes are those of the program it
describes, so findings are not tied to places in the document.
-/
namespace SlotBoard

/-- A document's text and the module it was lowered to, unless it could not be read. The module is
named after the document. -/
structure Analysis where
  name : String
  text : Bytes
  outcome : Except DocumentError Lowering

/-- What is wrong with a document: it cannot be read, or lowering reported something. -/
inductive Finding where
  | unread (e : SourceError)
  | reported (d : Diagnostic)

inductive Severity where
  | error
  | warning
deriving DecidableEq

/-- An operator that is not supported leaves the code complete, so it is a warning. -/
def Finding.severity : Finding → Severity
  | unread _ => .error
  | reported d => if d.kind = .unsupportedOperator then .warning else .error

def Finding.message : Finding → String
  | unread e => e.message
  | reported d => d.text

inductive CompletionKind where
  | board
  | variableName
deriving DecidableEq

/-- A name that completes what stands before the cursor. -/
structure Completion where
  label : String
  kind : CompletionKind
  detail : String
deriving DecidableEq

namespace Module

def startsWith (stem : Bytes) (name : String) : Bool := stem.isPrefixOf (Utf8.encode name)

def candidates (m : Module) (stem : Bytes) : List Completion :=
  let boards := (m.boards.filter (startsWith stem ·.name)).map fun b =>
    { label := b.name, kind := .board, detail := "board " ++ b.kind.token }
  let globals := (m.globals.filter (startsWith stem ·.source)).map fun v =>
    { label := v.source, kind := .variableName, detail := v.kind.token ++ " " ++ v.name }
  boards ++ globals

/-- The candidates in the order of their labels. A board and a variable may have one label; which of
them comes first is not fixed, and here it is the board. -/
def completions (m : Module) (stem : Bytes) : List Completion :=
  (m.candidates stem).mergeSort fun a b => !decide (b.label < a.label)

/-- The declared variables with a name, the module's before those of its boards. -/
def variablesNamed (m : Module) (name : String) : List Variable :=
  (m.globals ++ m.boards.flatMap Board.declared).filter (·.source = name)

def preview? (m : Module) (name : String) : Option String :=
  match m.board? name with
  | some b =>
    some ("**" ++ b.name ++ "** `" ++ b.kind.token ++ "`\n\n```\n" ++ b.text ++ "```\n")
  | none =>
    match m.variablesNamed name with
    | [] => none
    | vs =>
      some ("**" ++ name ++ "**\n\n```\n" ++ "\n".intercalate (vs.map Variable.text) ++ "\n```\n")

end Module

namespace Analysis

def ofText (aliases : Kind.Aliases) (uri : String) (text : Bytes) : Analysis :=
  let name := Path.unitName uri
  { name, text
    outcome := (SourceUnit.decode .json name text).map (Lowering.start name aliases).unit }

def findings (a : Analysis) : List Finding :=
  match a.outcome with
  | .error e => [.unread (.document a.name e)]
  | .ok l => l.diagnostics.map .reported

def module? (a : Analysis) : Option Module := a.outcome.toOption.map (·.module)

/-- The completions at a cursor; none without a module or a start of a name. -/
def completions? (a : Analysis) (line column : Nat) : Option (List Completion) := do
  let m ← a.module?
  let stem := Cursor.stem a.text line column
  if stem.isEmpty then none else some (m.completions stem)

def preview? (a : Analysis) (line column : Nat) : Option String := do
  let m ← a.module?
  let name ← Utf8.decode? (Cursor.word a.text line column)
  if name = "" then none else m.preview? name

end Analysis
end SlotBoard
