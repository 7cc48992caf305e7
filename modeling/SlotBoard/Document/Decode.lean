import SlotBoard.Cbor.Parser
import SlotBoard.Document.Cbor
import SlotBoard.Document.Json
import SlotBoard.Document.Shape
import SlotBoard.Text.Quoted

/-!
Documents, in either of their two formats, as source units.
-/
namespace SlotBoard

inductive DocumentFormat where
  | json
  | cbor
deriving DecidableEq

/-- Why a document cannot be read: the text is not well formed, a value does not fit its field, a
key is no field's, the bytes are no data item of a node, or the tree is no source unit. -/
inductive DocumentError where
  | malformed
  | mismatch
  | unknownField (key : String)
  | binary
  | shape (e : ShapeError)
deriving DecidableEq

/-- The text for a refusal. Where the notation itself is at fault the text names the class of the
fault and no more; its wording is not fixed. -/
def DocumentError.message : DocumentError → String
  | malformed => "json: malformed text"
  | mismatch => "json: a value does not fit its field"
  | unknownField key => "json: unknown field " ++ Quoted.encode key
  | binary => "cbor: no node tree"
  | shape e => e.message

namespace Node

/-- The fault that a document is refused for: words that are none come before all others, and else
the first one counts. -/
def verdict (faults : List Fault) : Option DocumentError :=
  if faults.contains .badWords then some .mismatch
  else
    match faults with
    | [] => none
    | .unknownField key :: _ => some (.unknownField key)
    | _ => some .mismatch

def decodeJson (bs : Bytes) : Except DocumentError Node :=
  match Json.parse? bs with
  | none => .error .malformed
  | some value =>
    let (n, faults) := ofJson value
    match verdict faults with
    | some e => .error e
    | none => .ok n

def decodeCbor (bs : Bytes) : Except DocumentError Node :=
  match (Cbor.parse? bs).bind ofDatum? with
  | none => .error .binary
  | some n => .ok n

def decode : DocumentFormat → Bytes → Except DocumentError Node
  | .json, bs => decodeJson bs
  | .cbor, bs => decodeCbor bs

end Node

def SourceUnit.decode (format : DocumentFormat) (name : String) (bs : Bytes) :
    Except DocumentError SourceUnit := do
  let n ← Node.decode format bs
  (n.toUnit name).mapError .shape

end SlotBoard
