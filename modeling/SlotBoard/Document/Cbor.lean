import SlotBoard.Cbor.Reading
import SlotBoard.Document.Node

/-!
Node trees from data items. A key is matched without regard to the case of ASCII letters, and of
several values of one field the first counts. Keys that are no field's are passed over with their
values.
-/
namespace SlotBoard.Node

open SlotBoard.Cbor (Datum)

def keyField : Cbor.Key → Option Field
  | .name s => Field.find? Fold.sameAscii s
  | .number _ => none

/-- A child, given how it reads as a node: a bare null is a missing one. -/
def asChild? (datum : Datum) (read : Option Node) : Option (Option Node) :=
  if datum.isNull then some none else read.map some

mutual

def ofDatum? : Datum → Option Node
  | .map entries => ofEntries? [] {} entries
  | .simple 22 | .simple 23 => some {}
  | .tag number content =>
    if Cbor.isTransparent number content then ofDatum? content else none
  | _ => none
termination_by structural datum => datum

/-- Read entries into a node; the fields in `seen` have their value already. -/
def ofEntries? (seen : List Field) (n : Node) : List (Datum × Datum) → Option Node
  | [] => some n
  | entry :: entries => do
    let (seen, n) ← ofEntry? seen n entry
    ofEntries? seen n entries
termination_by structural entries => entries

def ofEntry? (seen : List Field) (n : Node) : Datum × Datum → Option (List Field × Node)
  | (key, value) => do
    match keyField (← Cbor.key? key) with
    | none => return (seen, n)
    | some field =>
      if seen.contains field then return (seen, n)
      let n ← match field with
        | .text f => do some (n.setText (← value.text?) f)
        | .int f => do some (n.setInt (← value.integer?) f)
        | .words f => do some (n.setWords (← value.words?) f)
        | .child f => do some (n.setChild (← asChild? value (ofDatum? value)) f)
        | .list f => do some (n.setList (← childrenOfDatum? value) f)
      return (field :: seen, n)
termination_by structural entry => entry

def childrenOfDatum? : Datum → Option (List (Option Node))
  | .array items => elementsOfDatum? items
  | .simple 22 | .simple 23 => some []
  | .tag number content =>
    if Cbor.isTransparent number content then childrenOfDatum? content else none
  | _ => none
termination_by structural datum => datum

def elementsOfDatum? : List Datum → Option (List (Option Node))
  | [] => some []
  | item :: items => do
    let child ← asChild? item (ofDatum? item)
    let children ← elementsOfDatum? items
    return child :: children
termination_by structural items => items

end

end SlotBoard.Node
