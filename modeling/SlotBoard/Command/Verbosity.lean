import SlotBoard.Text.Decimal
import SlotBoard.Text.Quoted

/-!
The level of detail of the log. It is a 64-bit number that a bare flag raises by one, wrapping
around, and that a flag with a value sets.
-/
namespace SlotBoard

structure Verbosity where
  level : Int64 := 0
deriving DecidableEq, Inhabited

namespace Verbosity

def toInt (v : Verbosity) : Int := v.level.toInt

def ofInt (n : Int) : Verbosity := ⟨Int64.ofInt n⟩

/-- What a value of the flag makes of the level; none if it is neither `true` nor a number. -/
def set? (v : Verbosity) (s : String) : Option Verbosity :=
  if s = "true" then some ⟨v.level + 1⟩ else (Decimal.integer? s.toList).map ofInt

def refusal (s : String) : String := "bad verbosity " ++ Quoted.encode s

end Verbosity
end SlotBoard
