import SlotBoard.Cbor.Parser
import SlotBoard.Cbor.Reading
import SlotBoard.Digest.Sha256
import SlotBoard.Snapshot.Basic
import SlotBoard.Text.Fold
import SlotBoard.Text.Hex

/-!
Snapshots as bytes. Records are maps whose keys are small integers, in ascending order; flags are a
map with names for keys, shorter ones first. Texts that may be missing are left out when empty, and
empty lists are written as null, except that a slot without items is an empty array. The fingerprint
of a module is the digest of these bytes.
-/
namespace SlotBoard.Snapshot

open Cbor

/-- A list, or null if it is empty. -/
def seriesDatum (write : α → Datum) (as : List α) : Datum :=
  if as.isEmpty then .null else .array (as.map write)

def field (key : Nat) (value : Datum) : List (Datum × Datum) := [(.unsigned key, value)]

def optionalField (key : Nat) (s : String) : List (Datum × Datum) :=
  if s = "" then [] else field key (.ofString s)

def flagsDatum (flags : Flags) : Datum :=
  .map [
    (.ofString "Member", .ofBool flags.isMember),
    (.ofString "Public", .ofBool flags.isPublic),
    (.ofString "Volatile", .ofBool flags.isVolatile),
    (.ofString "MethodParam", .ofBool flags.methodParam),
    (.ofString "PrivateMethod", .ofBool flags.privateMethod),
    (.ofString "GlobalConstant", .ofBool flags.globalConstant)]

def ValueRecord.toDatum (v : ValueRecord) : Datum :=
  .map (field 1 (.ofString v.form) ++ field 2 (.ofString v.kind) ++ field 3 (.ofString v.name) ++
    optionalField 4 v.source ++ optionalField 5 v.owner ++ field 6 (flagsDatum v.flags) ++
    optionalField 7 v.literal)

def ItemRecord.toDatum (r : ItemRecord) : Datum :=
  .map (field 1 (.ofString r.text) ++ field 2 (seriesDatum .ofInt r.next))

def BoardRecord.toDatum (b : BoardRecord) : Datum :=
  .map (field 1 (.ofString b.name) ++ field 2 (.ofString b.kind) ++
    field 3 (seriesDatum ValueRecord.toDatum b.values) ++
    field 4 (seriesDatum (fun slot => .array (slot.map ItemRecord.toDatum)) b.slots))

def toDatum (s : Snapshot) : Datum :=
  .map (field 1 (.ofString s.format) ++ field 2 (.ofString s.name) ++
    field 3 (seriesDatum ValueRecord.toDatum s.globals) ++
    field 4 (seriesDatum BoardRecord.toDatum s.boards))

def encode (s : Snapshot) : Bytes := s.toDatum.encode

/-- A key of a record: the number, or a text that spells it. -/
def isKey (n : Nat) (key : Key) : Bool := key = .number n || key = .name (toString n)

def isName (name : String) : Key → Bool
  | .name s => Fold.sameAscii s name
  | .number _ => false

def flags? (datum : Datum) : Option Flags := do
  let fields ← datum.fields?
  return {
    isPublic := ← field? fields (isName "Public") Datum.bool? false
    globalConstant := ← field? fields (isName "GlobalConstant") Datum.bool? false
    methodParam := ← field? fields (isName "MethodParam") Datum.bool? false
    isMember := ← field? fields (isName "Member") Datum.bool? false
    privateMethod := ← field? fields (isName "PrivateMethod") Datum.bool? false
    isVolatile := ← field? fields (isName "Volatile") Datum.bool? false }

def ValueRecord.ofDatum? (datum : Datum) : Option ValueRecord := do
  let fields ← datum.fields?
  return {
    form := ← field? fields (isKey 1) Datum.text? ""
    kind := ← field? fields (isKey 2) Datum.text? ""
    name := ← field? fields (isKey 3) Datum.text? ""
    source := ← field? fields (isKey 4) Datum.text? ""
    owner := ← field? fields (isKey 5) Datum.text? ""
    flags := ← field? fields (isKey 6) flags? {}
    literal := ← field? fields (isKey 7) Datum.text? "" }

def ItemRecord.ofDatum? (datum : Datum) : Option ItemRecord := do
  let fields ← datum.fields?
  return {
    text := ← field? fields (isKey 1) Datum.text? ""
    next := ← field? fields (isKey 2) (Datum.list? Datum.integer?) [] }

def BoardRecord.ofDatum? (datum : Datum) : Option BoardRecord := do
  let fields ← datum.fields?
  return {
    name := ← field? fields (isKey 1) Datum.text? ""
    kind := ← field? fields (isKey 2) Datum.text? ""
    values := ← field? fields (isKey 3) (Datum.list? ValueRecord.ofDatum?) []
    slots := ← field? fields (isKey 4) (Datum.list? (Datum.list? ItemRecord.ofDatum?)) [] }

def ofDatum? (datum : Datum) : Option Snapshot := do
  let fields ← datum.fields?
  return {
    format := ← field? fields (isKey 1) Datum.text? ""
    name := ← field? fields (isKey 2) Datum.text? ""
    globals := ← field? fields (isKey 3) (Datum.list? ValueRecord.ofDatum?) []
    boards := ← field? fields (isKey 4) (Datum.list? BoardRecord.ofDatum?) [] }

def decode? (bs : Bytes) : Option Snapshot := (parse? bs).bind ofDatum?

end SlotBoard.Snapshot

namespace SlotBoard.Module

def snapshotBytes (m : Module) : Bytes := (Snapshot.ofModule m).encode

def fingerprint (m : Module) : String := Hex.ofBytes (Sha256.digest m.snapshotBytes)

end SlotBoard.Module
