import SlotBoard.Editor.Analysis

/-!
A session with an editor. The editor tells which documents it opens, changes and closes, and is told
the findings on them; between these events it asks about documents that are open. A change counts
only if the last of its parts replaces the whole text.
-/
namespace SlotBoard

/-- A part of a change: a new text for the whole document or for a range of it. -/
inductive TextChange where
  | whole (text : Bytes)
  | ranged (text : Bytes)
deriving DecidableEq

inductive EditorEvent where
  | opened (uri : String) (text : Bytes)
  | changed (uri : String) (changes : List TextChange)
  | closed (uri : String)
deriving DecidableEq

/-- The findings on a document, as the editor is told. -/
structure Publication where
  uri : String
  findings : List Finding

/-- The latest analysis of each open document. -/
structure EditorSession where
  aliases : Kind.Aliases := []
  documents : List (String × Analysis) := []

/-- An argument of an editor command. -/
inductive CommandArgument where
  | text (s : String)
  | other
deriving DecidableEq

inductive ExecuteError where
  | unknownCommand (command : String)
  | argumentCount
  | notText
  | notOpen (uri : String)
  | unread (e : SourceError)
deriving DecidableEq

/-- How an editor is to send the changes of a document. -/
inductive SyncKind where
  | none
  | full
  | incremental
deriving DecidableEq

def SyncKind.code : SyncKind → Nat
  | none => 0
  | full => 1
  | incremental => 2

/-- What an editor is told when a session begins. -/
structure Offer where
  serverName : String
  serverVersion : String
  openClose : Bool
  change : SyncKind
  completion : Bool
  hover : Bool
  commands : List String
deriving DecidableEq

namespace EditorSession

def showCommand : String := "slotir.showIR"

def offer : Offer where
  serverName := "slotir-lsp"
  serverVersion := "0.1.0"
  openClose := true
  change := .full
  completion := true
  hover := true
  commands := [showCommand]

def document? (s : EditorSession) (uri : String) : Option Analysis := s.documents.lookup uri

def without (s : EditorSession) (uri : String) : EditorSession :=
  { s with documents := s.documents.filter (·.1 ≠ uri) }

def update (s : EditorSession) (uri : String) (text : Bytes) : EditorSession × Publication :=
  let a := Analysis.ofText s.aliases uri text
  ({ s with documents := (uri, a) :: (s.without uri).documents }, ⟨uri, a.findings⟩)

/-- Follow an event; what the editor is to be told stands beside the new state. -/
def handle (s : EditorSession) : EditorEvent → EditorSession × Option Publication
  | .opened uri text =>
    let (s, p) := s.update uri text
    (s, some p)
  | .changed uri changes =>
    match changes.getLast? with
    | some (.whole text) =>
      let (s, p) := s.update uri text
      (s, some p)
    | _ => (s, none)
  | .closed uri => (s.without uri, some ⟨uri, []⟩)

def completions? (s : EditorSession) (uri : String) (line column : Nat) :
    Option (List Completion) :=
  (s.document? uri).bind (·.completions? line column)

def preview? (s : EditorSession) (uri : String) (line column : Nat) : Option String :=
  (s.document? uri).bind (·.preview? line column)

def showModule (s : EditorSession) (uri : String) : Except ExecuteError String :=
  match s.document? uri with
  | none => .error (.notOpen uri)
  | some a =>
    match a.outcome with
    | .error e => .error (.unread (.document a.name e))
    | .ok l => .ok l.module.text

def execute (s : EditorSession) (command : String) (arguments : List CommandArgument) :
    Except ExecuteError String :=
  if command ≠ showCommand then .error (.unknownCommand command)
  else
    match arguments with
    | [.text uri] => s.showModule uri
    | [.other] => .error .notText
    | _ => .error .argumentCount

end EditorSession

def ExecuteError.message : ExecuteError → String
  | unknownCommand command => "unknown command " ++ Quoted.encode command
  | argumentCount => EditorSession.showCommand ++ " takes one document URI"
  | notText => EditorSession.showCommand ++ ": argument is not a URI"
  | notOpen uri => uri ++ " is not open"
  | unread e => e.message

end SlotBoard
