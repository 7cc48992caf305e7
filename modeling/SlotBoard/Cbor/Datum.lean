import SlotBoard.Text.Utf8

/-!
Data items of the concise binary format, and their shortest encoding. The number in front of a datum
is written in as few bytes as it fits in.
-/
namespace SlotBoard.Cbor

/-- A data item. A text is kept in the chunks it was written in, each of which has to be text of its
own. A negative datum stands for `-1 - n`. -/
inductive Datum where
  | unsigned (n : Nat)
  | negative (n : Nat)
  | bytes (content : Bytes)
  | text (chunks : List Bytes)
  | array (items : List Datum)
  | map (entries : List (Datum × Datum))
  | tag (number : Nat) (content : Datum)
  | simple (code : Nat)
  | float (content : Bytes)
deriving Inhabited

namespace Datum

def null : Datum := simple 22

def ofBool (b : Bool) : Datum := simple (if b then 21 else 20)

def ofString (s : String) : Datum := text [Utf8.encode s]

def ofInt : Int → Datum
  | .ofNat n => unsigned n
  | .negSucc n => negative n

end Datum

def head (major n : Nat) : Bytes :=
  if n < 24 then [(major * 32 + n).toUInt8]
  else if n < 0x100 then (major * 32 + 24).toUInt8 :: bigEndian 1 n
  else if n < 0x10000 then (major * 32 + 25).toUInt8 :: bigEndian 2 n
  else if n < 0x100000000 then (major * 32 + 26).toUInt8 :: bigEndian 4 n
  else (major * 32 + 27).toUInt8 :: bigEndian 8 n

mutual

def Datum.encode : Datum → Bytes
  | .unsigned n => head 0 n
  | .negative n => head 1 n
  | .bytes content => head 2 content.length ++ content
  | .text chunks => head 3 chunks.flatten.length ++ chunks.flatten
  | .array items => head 4 items.length ++ encodeItems items
  | .map entries => head 5 entries.length ++ encodeEntries entries
  | .tag number content => head 6 number ++ content.encode
  | .simple code => head 7 code
  | .float content => (7 * 32 + 24 + content.length.log2).toUInt8 :: content
termination_by structural datum => datum

def encodeItems : List Datum → Bytes
  | [] => []
  | datum :: items => datum.encode ++ encodeItems items
termination_by structural items => items

def encodeEntries : List (Datum × Datum) → Bytes
  | [] => []
  | entry :: entries => encodeEntry entry ++ encodeEntries entries
termination_by structural entries => entries

def encodeEntry : Datum × Datum → Bytes
  | (key, value) => key.encode ++ value.encode
termination_by structural entry => entry

end

end SlotBoard.Cbor
