/-!
White space and the words between it.
-/
namespace SlotBoard

def isBlank (c : Char) : Bool :=
  let n := c.toNat
  (0x09 ≤ n && n ≤ 0x0D) || n == 0x20 || n == 0x85 || n == 0xA0 || n == 0x1680 ||
    (0x2000 ≤ n && n ≤ 0x200A) || n == 0x2028 || n == 0x2029 || n == 0x202F || n == 0x205F ||
    n == 0x3000

namespace Words

/-- The words of a text, given the letters of the word under way, last one first. -/
def splitFrom : List Char → List Char → List String
  | [], [] => []
  | word, [] => [String.ofList word.reverse]
  | word, c :: cs =>
    if isBlank c then
      if word.isEmpty then splitFrom [] cs else String.ofList word.reverse :: splitFrom [] cs
    else splitFrom (c :: word) cs

def split (s : String) : List String := splitFrom [] s.toList

end Words
end SlotBoard
