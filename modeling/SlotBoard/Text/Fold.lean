/-!
Letters without their case. Names are compared with ASCII names only, so beside the ASCII letters
only the few other characters matter whose case forms include an ASCII letter.
-/
namespace SlotBoard.Fold

/-- The upper-case form. The dotless i and the long s are the characters beyond ASCII whose
upper-case form is an ASCII letter. -/
def upper (c : Char) : Char :=
  if c = '\u0131' then 'I' else if c = '\u017F' then 'S' else c.toUpper

/-- The ASCII letter among the characters that equal `c` up to case, in upper case. The Kelvin sign
and the long s are the characters beyond ASCII that have one. -/
def capital (c : Char) : Char :=
  if c = '\u212A' then 'K' else if c = '\u017F' then 'S' else c.toUpper

def same (a b : String) : Bool := a.toList.map capital == b.toList.map capital

def sameAscii (a b : String) : Bool := a.toList.map Char.toUpper == b.toList.map Char.toUpper

end SlotBoard.Fold
