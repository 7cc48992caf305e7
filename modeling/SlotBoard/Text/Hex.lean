import SlotBoard.Text.Utf8

/-!
Hexadecimal digits in lower case.
-/
namespace SlotBoard.Hex

def digit (n : Nat) : Char := Nat.digitChar (n % 16)

def padded : Nat → Nat → List Char
  | 0, _ => []
  | width + 1, n => padded width (n / 16) ++ [digit n]

def ofBytes (bs : Bytes) : String := String.ofList (bs.flatMap fun b => padded 2 b.toNat)

def value? (c : Char) : Option Nat :=
  if '0' ≤ c ∧ c ≤ '9' then some (c.toNat - '0'.toNat)
  else if 'a' ≤ c ∧ c ≤ 'f' then some (c.toNat - 'a'.toNat + 10)
  else if 'A' ≤ c ∧ c ≤ 'F' then some (c.toNat - 'A'.toNat + 10)
  else none

def number? (cs : List Char) : Option Nat :=
  cs.foldlM (fun n c => (value? c).map (n * 16 + ·)) 0

end SlotBoard.Hex
