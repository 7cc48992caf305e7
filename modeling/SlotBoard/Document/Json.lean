import SlotBoard.Document.Node
import SlotBoard.Json.Value
import SlotBoard.Text.Blank
import SlotBoard.Text.Decimal

/-!
Node trees from JSON. Keys are matched exactly, or else without regard to case. A later value of a
repeated key goes on from the earlier one: it replaces a text, an integer or words, and adds to a
node. A list is read over the elements of the earlier one, and over those that the earlier one was
itself too short to show. Reading never stops half way; it gathers what is wrong with a document in
its order.
-/
namespace SlotBoard.Node

/-- Something wrong with a value: it is of another type than its field, its words are no words, or a
key is no field's. -/
inductive Fault where
  | mismatch
  | badWords
  | unknownField (key : String)
deriving DecidableEq

def readText (s : String) : Json.Value → String × List Fault
  | .string t => (t, [])
  | .null => (s, [])
  | _ => (s, [.mismatch])

def readInt (i : Int) : Json.Value → Int × List Fault
  | .number literal =>
    match Decimal.integer? literal with
    | some j => (j, [])
    | none => (i, [.mismatch])
  | .null => (i, [])
  | _ => (i, [.mismatch])

def word? : Json.Value → Option String
  | .string s => some s
  | .null => some ""
  | _ => none

def readWords (ws : List String) : Json.Value → List String × List Fault
  | .string s => (Words.split s, [])
  | .null => ([], [])
  | .array items =>
    match items.mapM word? with
    | some words => (words, [])
    | none => (ws, [.badWords])
  | _ => (ws, [.badWords])

def field? (key : String) : Option Field :=
  (Field.find? (· == ·) key).or (Field.find? Fold.same key)

mutual

def readMembers (n : Node) : List (String × Json.Value) → Node × List Fault
  | [] => (n, [])
  | member :: members =>
    let (n, faults) := readMember n member
    let (n, more) := readMembers n members
    (n, faults ++ more)
termination_by structural members => members

def readMember (n : Node) : String × Json.Value → Node × List Fault
  | (key, value) =>
    match field? key with
    | none => (n, [.unknownField key])
    | some (.text f) =>
      let (s, faults) := readText (n.getText f) value
      (n.setText s f, faults)
    | some (.int f) =>
      let (i, faults) := readInt (n.getInt f) value
      (n.setInt i f, faults)
    | some (.words f) =>
      let (ws, faults) := readWords (n.getWords f) value
      (n.setWords ws f, faults)
    | some (.child f) =>
      let (child, faults) := readChild (n.getChild f) value
      (n.setChild child f, faults)
    | some (.list f) =>
      let ((nodes, spare), faults) := readChildren (n.getList f) (n.spare f) value
      ((n.setList nodes f).setSpare spare f, faults)
termination_by structural member => member

def readChild (child : Option Node) : Json.Value → Option Node × List Fault
  | .null => (none, [])
  | .object members =>
    let (n, faults) := readMembers (child.getD {}) members
    (some n, faults)
  | _ => (child.getD {}, [.mismatch])
termination_by structural value => value

/-- Read a list, and what stands behind its end afterwards. An empty list is a new one. -/
def readChildren (nodes spare : List (Option Node)) :
    Json.Value → (List (Option Node) × List (Option Node)) × List Fault
  | .null => (([], []), [])
  | .array items =>
    let (read, faults) := readElements (nodes ++ spare) items
    ((read, if items.isEmpty then [] else (nodes ++ spare).drop items.length), faults)
  | _ => ((nodes, spare), [.mismatch])
termination_by structural value => value

/-- Read the elements of a list over those that stand in their places. -/
def readElements (nodes : List (Option Node)) : List Json.Value → List (Option Node) × List Fault
  | [] => ([], [])
  | item :: items =>
    let (child, faults) := readChild (nodes.head?.getD none) item
    let (rest, more) := readElements nodes.tail items
    (child :: rest, faults ++ more)
termination_by structural items => items

end

def ofJson : Json.Value → Node × List Fault
  | .null => ({}, [])
  | .object members => readMembers {} members
  | _ => ({}, [.mismatch])

end SlotBoard.Node
