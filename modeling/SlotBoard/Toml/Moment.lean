import SlotBoard.Text.Decimal

/-!
Dates and times as they are spelled in TOML: a date, a time of day, or both with an optional offset
from universal time. The seconds of a time of day may be left out.
-/
namespace SlotBoard.Toml

def twoDigits? (least greatest : Nat) : List Char → Option (Nat × List Char)
  | a :: b :: rest => do
    let n ← Decimal.natural? [a, b]
    if least ≤ n ∧ n ≤ greatest then some (n, rest) else none
  | _ => none

def isLeapYear (year : Nat) : Bool := year % 4 = 0 && (year % 100 ≠ 0 || year % 400 = 0)

def daysIn (year month : Nat) : Nat :=
  if month = 2 then if isLeapYear year then 29 else 28
  else if month = 4 ∨ month = 6 ∨ month = 9 ∨ month = 11 then 30
  else 31

def literally? (c : Char) : List Char → Option (List Char)
  | d :: rest => if d = c then some rest else none
  | [] => none

def afterDate? (cs : List Char) : Option (List Char) := do
  let year ← Decimal.natural? (cs.take 4)
  if (cs.take 4).length ≠ 4 then none
  let rest ← literally? '-' (cs.drop 4)
  let (month, rest) ← twoDigits? 1 12 rest
  let rest ← literally? '-' rest
  let (_, rest) ← twoDigits? 1 (daysIn year month) rest
  return rest

def afterSeconds? (cs : List Char) : Option (List Char) :=
  match cs with
  | ':' :: rest => do
    let (_, rest) ← twoDigits? 0 59 rest
    match rest with
    | '.' :: d :: digits =>
      if d.isDigit then some (digits.dropWhile Char.isDigit) else some rest
    | _ => some rest
  | _ => some cs

def afterTime? (cs : List Char) : Option (List Char) := do
  let (_, rest) ← twoDigits? 0 23 cs
  let rest ← literally? ':' rest
  let (_, rest) ← twoDigits? 0 59 rest
  afterSeconds? rest

def isOffset : List Char → Bool
  | ['Z'] => true
  | s :: rest =>
    (s = '+' || s = '-') &&
      match (do
        let (_, rest) ← twoDigits? 0 24 rest
        let rest ← literally? ':' rest
        let (_, rest) ← twoDigits? 0 60 rest
        return rest : Option (List Char)) with
      | some [] => true
      | _ => false
  | [] => false

/-- The separator of date and time may be a blank, and letters may be small. -/
def momentChar (c : Char) : Char := if c = ' ' || c = 't' then 'T' else if c = 'z' then 'Z' else c

def isMoment (literal : List Char) : Bool :=
  let cs := literal.map momentChar
  match afterDate? cs with
  | some [] => true
  | some ('T' :: time) =>
    match afterTime? time with
    | some rest => rest.isEmpty || isOffset rest
    | none => false
  | some _ => false
  | none => afterTime? cs = some []

end SlotBoard.Toml
