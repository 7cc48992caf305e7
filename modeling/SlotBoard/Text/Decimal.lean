/-!
Integers in decimal digits, within the range of signed 64-bit words.
-/
namespace SlotBoard.Decimal

def least : Int := -9223372036854775808

def greatest : Int := 9223372036854775807

def inRange (n : Int) : Bool := least ≤ n && n ≤ greatest

/-- The number a run of decimal digits spells; the empty run and other characters are refused. -/
def natural? (cs : List Char) : Option Nat :=
  if cs.isEmpty || !cs.all Char.isDigit then none
  else some (cs.foldl (fun n c => n * 10 + (c.toNat - '0'.toNat)) 0)

def integer? (cs : List Char) : Option Int := do
  let n ← match cs with
    | '-' :: digits => (natural? digits).map fun n => -(n : Int)
    | '+' :: digits => (natural? digits).map fun n => (n : Int)
    | digits => (natural? digits).map fun n => (n : Int)
  if inRange n then some n else none

end SlotBoard.Decimal
