import SlotBoard.Bytes

/-!
The identifier at a cursor. A cursor is a line and a column counted in bytes, and every byte is
judged by itself, as the Latin-1 character of its value.
-/
namespace SlotBoard.Cursor

def isIdentifier (b : UInt8) : Bool :=
  (0x30 ≤ b && b ≤ 0x39) || (0x41 ≤ b && b ≤ 0x5A) || b = 0x5F || (0x61 ≤ b && b ≤ 0x7A) ||
    b = 0xAA || b = 0xB5 || b = 0xBA || (0xC0 ≤ b && b ≠ 0xD7 && b ≠ 0xF7)

def lines : Bytes → List Bytes
  | [] => [[]]
  | b :: bs =>
    if b = 0x0A then [] :: lines bs
    else
      match lines bs with
      | [] => [[b]]
      | line :: rest => (b :: line) :: rest

def trailing (bs : Bytes) : Bytes := (bs.reverse.takeWhile isIdentifier).reverse

def stem (text : Bytes) (line column : Nat) : Bytes :=
  match (lines text)[line]? with
  | none => []
  | some bs => trailing (bs.take column)

def word (text : Bytes) (line column : Nat) : Bytes :=
  match (lines text)[line]? with
  | none => []
  | some bs => trailing (bs.take column) ++ (bs.drop column).takeWhile isIdentifier

end SlotBoard.Cursor
