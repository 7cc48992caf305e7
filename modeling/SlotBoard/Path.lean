/-!
Slash-separated paths as texts. Nothing here looks at a file system: cleaning a path drops empty
elements and dots and lets each `..` undo the element before it.
-/
namespace SlotBoard.Path

def isAbsolute (path : String) : Bool := path.toList.head? = some '/'

/-- The pieces between slashes, given the letters of the piece under way, last one first. -/
def piecesFrom : List Char → List Char → List String
  | piece, [] => [String.ofList piece.reverse]
  | piece, c :: cs =>
    if c = '/' then String.ofList piece.reverse :: piecesFrom [] cs else piecesFrom (c :: piece) cs

def pieces (path : String) : List String := piecesFrom [] path.toList

/-- One step of cleaning; the elements so far stand last one first. A `..` that has nothing to undo
is dropped at the root and kept otherwise. -/
def cleanStep (rooted : Bool) (elements : List String) (piece : String) : List String :=
  if piece = "" ∨ piece = "." then elements
  else if piece = ".." then
    match elements with
    | [] => if rooted then [] else [".."]
    | last :: rest => if last = ".." then ".." :: elements else rest
  else piece :: elements

def elements (path : String) : List String :=
  ((pieces path).foldl (cleanStep (isAbsolute path)) []).reverse

def clean (path : String) : String :=
  let body := "/".intercalate (elements path)
  if isAbsolute path then "/" ++ body
  else if body = "" then "."
  else body

/-- Put a path below another one; an empty one counts for nothing. -/
def join (a b : String) : String :=
  if a = "" then if b = "" then "" else clean b
  else clean (a ++ "/" ++ b)

/-- Everything up to the last slash, slash included, and what follows it. -/
def split (path : String) : String × String :=
  let cs := path.toList.reverse
  (String.ofList (cs.dropWhile (· ≠ '/')).reverse, String.ofList (cs.takeWhile (· ≠ '/')).reverse)

def base (path : String) : String :=
  if path = "" then "."
  else
    match (path.toList.reverse.dropWhile (· = '/')).takeWhile (· ≠ '/') with
    | [] => "/"
    | cs => String.ofList cs.reverse

def parent (path : String) : String := clean (split path).1

def extension (path : String) : String :=
  let cs := path.toList.reverse.takeWhile (· ≠ '/')
  match cs.dropWhile (· ≠ '.') with
  | [] => ""
  | _ => String.ofList ('.' :: (cs.takeWhile (· ≠ '.')).reverse)

def absolute (directory path : String) : String :=
  if isAbsolute path then clean path else join directory path

def rooted (elements : List String) : String := "/" ++ "/".intercalate elements

/-- A directory and those above it up to the root; its elements are given last one first. -/
def upwardFrom : List String → List String
  | [] => [rooted []]
  | element :: rest => rooted (element :: rest).reverse :: upwardFrom rest

def upward (path : String) : List String := upwardFrom (elements path).reverse

/-- The name of the unit that a document at this path holds: the last element up to its first dot,
unless it starts with one. -/
def unitName (path : String) : String :=
  match (base path).toList with
  | '.' :: cs => String.ofList ('.' :: cs)
  | cs => String.ofList (cs.takeWhile (· ≠ '.'))

end SlotBoard.Path
