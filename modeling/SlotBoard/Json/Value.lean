import SlotBoard.Json.Token

/-!
JSON values, read from tokens by a machine that keeps the open arrays and objects on a stack. The
first value of a text is its value; what comes after it does not matter.
-/
namespace SlotBoard.Json

/-- A value. Members of an object stand in their order, repeated keys included. -/
inductive Value where
  | null
  | bool (b : Bool)
  | number (literal : List Char)
  | string (s : String)
  | array (items : List Value)
  | object (members : List (String × Value))
deriving Inhabited

/-- An array or object under way. What has been read of it stands last one first. -/
inductive Frame where
  | array (items : List Value)
  | object (members : List (String × Value)) (key : String)
deriving Inhabited

/-- What the machine waits for. `first` holds right after an opening bracket, where a closing one
may follow at once. -/
inductive Expecting where
  | value (first : Bool)
  | key (members : List (String × Value))
  | colon (members : List (String × Value)) (key : String)
  | separator
deriving Inhabited

structure Machine where
  stack : List Frame
  depth : Nat
  expecting : Expecting
deriving Inhabited

def maxDepth : Nat := 10000

inductive Step where
  | fail
  | done (v : Value)
  | advance (m : Machine)

namespace Machine

def start : Machine := { stack := [], depth := 0, expecting := .value false }

def supply (stack : List Frame) (depth : Nat) (v : Value) : Step :=
  match stack with
  | [] => .done v
  | .array items :: stack =>
    .advance { stack := .array (v :: items) :: stack, depth, expecting := .separator }
  | .object members key :: stack =>
    .advance { stack := .object ((key, v) :: members) key :: stack, depth, expecting := .separator }

def enter (m : Machine) (stack : List Frame) (expecting : Expecting) : Step :=
  if m.depth < maxDepth then .advance { stack, depth := m.depth + 1, expecting } else .fail

def beginValue (m : Machine) (token : Token) : Step :=
  match token with
  | .null => supply m.stack m.depth .null
  | .bool b => supply m.stack m.depth (.bool b)
  | .number literal => supply m.stack m.depth (.number literal)
  | .string s => supply m.stack m.depth (.string s)
  | .beginArray => m.enter (.array [] :: m.stack) (.value true)
  | .beginObject => m.enter m.stack (.key [])
  | _ => .fail

def close (m : Machine) (token : Token) : Step :=
  match token, m.stack with
  | .endArray, .array items :: stack => supply stack (m.depth - 1) (.array items.reverse)
  | .endObject, .object members _ :: stack => supply stack (m.depth - 1) (.object members.reverse)
  | _, _ => .fail

def step (m : Machine) (token : Token) : Step :=
  match m.expecting, token with
  | .value true, .endArray => m.close token
  | .value _, _ => m.beginValue token
  | .key members, .string key => .advance { m with expecting := .colon members key }
  | .key [], .endObject => supply m.stack (m.depth - 1) (.object [])
  | .key _, _ => .fail
  | .colon members key, .colon =>
    .advance { m with stack := .object members key :: m.stack, expecting := .value false }
  | .colon _ _, _ => .fail
  | .separator, .comma =>
    match m.stack with
    | .array _ :: _ => .advance { m with expecting := .value false }
    | .object members _ :: stack => .advance { m with stack, expecting := .key members }
    | [] => .fail
  | .separator, _ => m.close token

def run (m : Machine) : List Token → Option Value
  | [] => none
  | token :: tokens =>
    match m.step token with
    | .fail => none
    | .done v => some v
    | .advance m => m.run tokens

end Machine

/-- The first value of a text, none if the text is malformed before its end. -/
def parse? (bs : Bytes) : Option Value := Machine.start.run (Token.all bs)

end SlotBoard.Json
