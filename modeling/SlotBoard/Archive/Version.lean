import SlotBoard.Path
import SlotBoard.Text.Quoted
import SlotBoard.Text.Runs

/-!
Versions of the snapshot format: up to three numbers, a pre-release and build notes. Which versions
can be read is decided by the major number alone, and never for a pre-release.
-/
namespace SlotBoard

structure Version where
  major : Nat
  minor : Nat := 0
  patch : Nat := 0
  preRelease : List String := []
  build : List String := []
deriving DecidableEq

/-- Why a text is no version: it is not written like one, one of its numbers does not fit 64 bits,
or a number in its pre-release starts with a zero. -/
inductive VersionError where
  | malformed
  | outOfRange (digits : String)
  | leadingZero
deriving DecidableEq

def VersionError.message : VersionError → String
  | malformed => "Invalid Semantic Version"
  | outOfRange digits =>
    "Error parsing version segment: strconv.ParseUint: parsing " ++ Quoted.encode digits ++
      ": value out of range"
  | leadingZero => "Version segment starts with 0"

namespace Version

def runs? (accepts : Char → Bool) (cs : List Char) : Option (List (List Char)) :=
  let runs := runsBetween '.' cs
  if runs.all fun run => !run.isEmpty && run.all accepts then some runs else none

def isLabelChar (c : Char) : Bool := c.isAlphanum || c = '-'

def labels? (mark : Char) : List Char → Option (List String)
  | [] => some []
  | c :: cs => if c = mark then (runs? isLabelChar cs).map (·.map String.ofList) else none

def parts? (s : String) : Option (List (List Char) × List String × List String) := do
  let cs := match s.toList with
    | 'v' :: cs => cs
    | cs => cs
  let inNumbers := fun (c : Char) => c != '-' && c != '+'
  let numbers ← runs? Char.isDigit (cs.takeWhile inNumbers)
  let rest := cs.dropWhile inNumbers
  let preRelease ← labels? '-' (rest.takeWhile (· != '+'))
  let build ← labels? '+' (rest.dropWhile (· != '+'))
  if numbers.length ≤ 3 then some (numbers, preRelease, build) else none

def value (digits : List Char) : Nat := digits.foldl (fun n c => n * 10 + (c.toNat - '0'.toNat)) 0

def greatest : Nat := 18446744073709551615

def number (digits : List Char) : Except VersionError Nat :=
  if value digits ≤ greatest then .ok (value digits)
  else .error (.outOfRange (String.ofList digits))

def hasLeadingZero (label : String) : Bool :=
  label.toList.all Char.isDigit && 1 < label.toList.length && label.toList.head? = some '0'

def parse (s : String) : Except VersionError Version := do
  let some (numbers, preRelease, build) := parts? s | .error .malformed
  let values ← numbers.mapM number
  if preRelease.any hasLeadingZero then .error .leadingZero
  else .ok {
    major := values[0]?.getD 0
    minor := values[1]?.getD 0
    patch := values[2]?.getD 0
    preRelease
    build }

/-- Whether a reader for version 1.0.0 understands this version: the major number is 1, and it is no
pre-release. -/
def isReadable (v : Version) : Bool := v.major = 1 && v.preRelease.isEmpty

def readableRange : String := "^1.0.0"

end Version
end SlotBoard
