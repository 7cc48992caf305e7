import SlotBoard.Cbor.Datum
import SlotBoard.Text.Blank
import SlotBoard.Text.Decimal

/-!
Data items read as values of an expected type. Null and undefined stand for the empty value of any
type. A tag in front of a value is passed over when it may stand there; the two tags for large
integers make integers of byte strings.
-/
namespace SlotBoard.Cbor

/-- Whether a tag may stand in front of a datum: a date needs text, a time needs a number, a large
integer needs bytes. -/
def admits (number : Nat) (content : Datum) : Bool :=
  match number, content with
  | 0, .text _ => true
  | 0, _ => false
  | 1, .unsigned _ | 1, .negative _ | 1, .float _ => true
  | 1, _ => false
  | 2, .bytes _ | 3, .bytes _ => true
  | 2, _ | 3, _ => false
  | _, _ => true

def isInteger (number : Nat) : Bool := number = 2 || number = 3

def isTransparent (number : Nat) (content : Datum) : Bool :=
  admits number content && !isInteger number

def Datum.isNull : Datum → Bool
  | simple 22 | simple 23 => true
  | _ => false

def ranged? (n : Int) : Option Int := if Decimal.inRange n then some n else none

namespace Datum

/-- An integer in the range of 64-bit words. A simple value without a meaning counts as its code. -/
def integer? : Datum → Option Int
  | unsigned n => ranged? n
  | negative n => ranged? (-1 - n)
  | simple 20 | simple 21 => none
  | simple 22 | simple 23 => some 0
  | simple code => some code
  | tag 2 (bytes content) => ranged? (ofBigEndian content)
  | tag 3 (bytes content) => ranged? (-1 - ofBigEndian content)
  | tag number content => if isTransparent number content then content.integer? else none
  | _ => none

def bool? : Datum → Option Bool
  | simple 20 | simple 22 | simple 23 => some false
  | simple 21 => some true
  | tag number content => if isTransparent number content then content.bool? else none
  | _ => none

def text? : Datum → Option String
  | text chunks => (chunks.mapM Utf8.decode?).map String.join
  | simple 22 | simple 23 => some ""
  | tag number content => if isTransparent number content then content.text? else none
  | _ => none

def elements? : Datum → Option (List Datum)
  | array items => some items
  | simple 22 | simple 23 => some []
  | tag number content => if isTransparent number content then content.elements? else none
  | _ => none

def list? (read : Datum → Option α) (datum : Datum) : Option (List α) := do
  (← datum.elements?).mapM read

/-- Words: a text cut at white space, or a list of texts taken as they are. -/
def words? (datum : Datum) : Option (List String) :=
  match datum.text? with
  | some s => some (Words.split s)
  | none => datum.list? text?

def entries? : Datum → Option (List (Datum × Datum))
  | map entries => some entries
  | simple 22 | simple 23 => some []
  | tag number content => if isTransparent number content then content.entries? else none
  | _ => none

end Datum

/-- The key of a record's field. -/
inductive Key where
  | name (s : String)
  | number (n : Int)
deriving DecidableEq

/-- Keys are texts and integers, and nothing else may be a key of a record. -/
def key? : Datum → Option Key
  | .text chunks => (chunks.mapM Utf8.decode?).map fun parts => .name (String.join parts)
  | .unsigned n => some (.number n)
  | .negative n => (ranged? (-1 - n)).map .number
  | _ => none

def Datum.fields? (datum : Datum) : Option (List (Key × Datum)) := do
  (← datum.entries?).mapM fun (key, value) => do return (← key? key, value)

/-- Read the first field whose key fits; a field that is missing has the given value. -/
def field? (fields : List (Key × Datum)) (fits : Key → Bool) (read : Datum → Option α)
    (absent : α) : Option α :=
  match fields.find? fun (key, _) => fits key with
  | some (_, datum) => read datum
  | none => some absent

end SlotBoard.Cbor
