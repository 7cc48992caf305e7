import SlotBoard.Text.Decimal
import SlotBoard.Text.Hex

/-!
Numbers as they are spelled in TOML. Underscores may stand between digits, decimal numbers have no
leading zeros, and integers fit 64-bit words. A float is only checked, for its form and for its
magnitude.
-/
namespace SlotBoard.Toml

def isHexDigit (c : Char) : Bool := (Hex.value? c).isSome

/-- Whether every underscore follows a digit and the text ends in one, given whether the character
before is a digit. The digits are those of the largest base. -/
def underscoresFit : Bool → List Char → Bool
  | digit, [] => digit
  | digit, c :: cs => (c ≠ '_' || digit) && underscoresFit (isHexDigit c) cs

def isBaseMark (c : Char) : Bool := c = 'b' || c = 'o' || c = 'x'

def hasLeadingZero : List Char → Bool
  | '0' :: c :: _ => !isBaseMark c
  | s :: '0' :: _ :: _ => s = '-' || s = '+'
  | _ => false

def inBase? (base : Nat) (cs : List Char) : Option Int :=
  if cs.isEmpty then none
  else do
    let n ← cs.foldlM (fun n c => do
      let d ← Hex.value? c
      if d < base then some (n * base + d) else none) 0
    if Decimal.inRange n then some (n : Int) else none

def integer? (literal : List Char) : Option Int :=
  if !underscoresFit false literal || hasLeadingZero literal then none
  else
    match literal.filter (· ≠ '_') with
    | '0' :: 'x' :: digits => inBase? 16 digits
    | '0' :: 'o' :: digits => inBase? 8 digits
    | '0' :: 'b' :: digits => inBase? 2 digits
    | digits => Decimal.integer? digits

def dropSign : List Char → List Char
  | '+' :: cs => cs
  | '-' :: cs => cs
  | cs => cs

def isPointOrExponent (c : Char) : Bool := c = '.' || c = 'e' || c = 'E'

def floatParts : List Char → List (List Char)
  | [] => [[]]
  | c :: cs =>
    if isPointOrExponent c then [] :: floatParts cs
    else
      match floatParts cs with
      | [] => [[c]]
      | part :: parts => (c :: part) :: parts

def infinityBound : Nat := Nat.pow 2 1024 - Nat.pow 2 970

def overflows (digits : Nat) (exponent : Int) : Bool :=
  let magnitude := (toString digits).length + exponent
  if digits = 0 || magnitude < 300 then false
  else if 320 < magnitude then true
  else if 0 ≤ exponent then infinityBound ≤ digits * Nat.pow 10 exponent.toNat
  else infinityBound * Nat.pow 10 (-exponent).toNat ≤ digits

def mantissa? (cs : List Char) : Option (Nat × Nat) :=
  let whole := cs.takeWhile (· ≠ '.')
  match cs.dropWhile (· ≠ '.') with
  | [] => (Decimal.natural? whole).map (·, 0)
  | _ :: places => do
    let _ ← Decimal.natural? whole
    let _ ← Decimal.natural? places
    return (← Decimal.natural? (whole ++ places), places.length)

def exponent? (cs : List Char) : Option Int :=
  match cs with
  | '-' :: digits => (Decimal.natural? digits).map fun n => -(n : Int)
  | _ => (Decimal.natural? (dropSign cs)).map fun n => (n : Int)

def isDecimalFloat (cs : List Char) : Bool :=
  let body := dropSign cs
  let front := body.takeWhile fun c => c ≠ 'e' && c ≠ 'E'
  match mantissa? front, body.drop front.length with
  | some (digits, places), [] => !overflows digits (-places)
  | some (digits, places), _ :: mark =>
    match exponent? mark with
    | some e => !overflows digits (e - places)
    | none => false
  | none, _ => false

def isSpecialFloat (literal : List Char) : Bool :=
  ["inf".toList, "nan".toList].contains (dropSign literal)

def isFloat (literal : List Char) : Bool :=
  isSpecialFloat literal ||
    let parts := (floatParts literal).filter (!·.isEmpty)
    parts.all (underscoresFit false) && !(parts.head?.any hasLeadingZero) &&
      isDecimalFloat (literal.filter (· ≠ '_'))

end SlotBoard.Toml
