import SlotBoard.Text.Quoted
import SlotBoard.Text.Runs

/-!
Percent escapes and the options of an address. A percent sign and two hexadecimal digits stand for a
byte. Options are pairs of a name and a value with ampersands between them; there a plus sign stands
for a space.
-/
namespace SlotBoard.Percent

def octet? (high low : Char) : Option UInt8 := do
  return UInt8.ofNat ((← Hex.value? high) * 16 + (← Hex.value? low))

def decode : List Char → Except Bytes Bytes
  | [] => .ok []
  | '%' :: high :: low :: cs =>
    match octet? high low with
    | some b => (decode cs).map (b :: ·)
    | none => .error ((Utf8.encodeChars ['%', high, low]).take 3)
  | '%' :: cs => .error (Utf8.encodeChars ('%' :: cs))
  | '+' :: cs => (decode cs).map (Utf8.encodeChar ' ' ++ ·)
  | c :: cs => (decode cs).map (Utf8.encodeChar c ++ ·)

/-- Replace the escapes up to the end of a section; a percent sign that starts no escape stands for
itself, and a zero byte lets the rest of the section be ignored. -/
def decodeUpTo (ends : Char → Bool) : List Char → Bytes × List Char
  | [] => ([], [])
  | '%' :: high :: low :: cs =>
    match octet? high low with
    | some b =>
      if b = 0 then ([], cs.dropWhile fun c => !ends c)
      else
        let (bs, rest) := decodeUpTo ends cs
        (b :: bs, rest)
    | none =>
      let (bs, rest) := decodeUpTo ends (high :: low :: cs)
      (Utf8.encodeChar '%' ++ bs, rest)
  | c :: cs =>
    if ends c then ([], c :: cs)
    else
      let (bs, rest) := decodeUpTo ends cs
      (Utf8.encodeChar c ++ bs, rest)

end SlotBoard.Percent

namespace SlotBoard

/-- Why options cannot be read. -/
inductive QueryError where
  | badEscape (escape : Bytes)
  | semicolon
deriving DecidableEq

def QueryError.message : QueryError → String
  | badEscape escape => "invalid URL escape " ++ Quoted.encodeBytes escape
  | semicolon => "invalid semicolon separator in query"

abbrev Query := List (String × String)

namespace Query

def pair (field : List Char) : Except QueryError (String × String) := do
  let name ← (Percent.decode (field.takeWhile (· ≠ '='))).mapError .badEscape
  let value ← (Percent.decode ((field.dropWhile (· ≠ '=')).drop 1)).mapError .badEscape
  return (Utf8.decodeLossy name, Utf8.decodeLossy value)

/-- Read options. A semicolon anywhere is reported before an escape that cannot be read. -/
def parse (cs : List Char) : Except QueryError Query :=
  if cs.contains ';' then .error .semicolon
  else ((runsBetween '&' cs).filter (!·.isEmpty)).mapM pair

def values (q : Query) (name : String) : List String :=
  q.filterMap fun (other, value) => if other = name then some value else none

end Query
end SlotBoard
