import SlotBoard.Text.Hex
import SlotBoard.Text.Printable

/-!
Quoted text, as it stands in messages: between double quotes, with the quote and the backslash
escaped, a letter after a backslash for the usual control characters, and numbers for all other
characters that cannot be shown.
-/
namespace SlotBoard.Quoted

def letter? (c : Char) : Option Char :=
  match c.toNat with
  | 0x07 => some 'a'
  | 0x08 => some 'b'
  | 0x09 => some 't'
  | 0x0A => some 'n'
  | 0x0B => some 'v'
  | 0x0C => some 'f'
  | 0x0D => some 'r'
  | _ => none

def encodeChar (c : Char) : List Char :=
  if c = '"' ∨ c = '\\' then ['\\', c]
  else if isPrintable c then [c]
  else
    match letter? c with
    | some l => ['\\', l]
    | none =>
      if c.toNat < 0x80 then '\\' :: 'x' :: Hex.padded 2 c.toNat
      else if c.toNat < 0x10000 then '\\' :: 'u' :: Hex.padded 4 c.toNat
      else '\\' :: 'U' :: Hex.padded 8 c.toNat

def encode (s : String) : String :=
  String.ofList ('"' :: s.toList.flatMap encodeChar ++ ['"'])

/-- The inside of quoted bytes; a byte that starts no character is given by its number. -/
def encodeBytesInside : Bytes → List Char
  | [] => []
  | b :: bs =>
    match _h : Utf8.next? (b :: bs) with
    | some (c, rest) => encodeChar c ++ encodeBytesInside rest
    | none => '\\' :: 'x' :: Hex.padded 2 b.toNat ++ encodeBytesInside bs
termination_by bs => bs.length
decreasing_by
  · exact Utf8.next?_length_lt _h
  · simp

def encodeBytes (bs : Bytes) : String := String.ofList ('"' :: encodeBytesInside bs ++ ['"'])

end SlotBoard.Quoted
