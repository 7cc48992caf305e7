/-!
Text cut at a mark.
-/
namespace SlotBoard

def runsBetween (mark : Char) : List Char → List (List Char)
  | [] => [[]]
  | c :: cs =>
    if c = mark then [] :: runsBetween mark cs
    else
      match runsBetween mark cs with
      | [] => [[c]]
      | run :: runs => (c :: run) :: runs

end SlotBoard
