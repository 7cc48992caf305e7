import SlotBoard.Files.Basic
import SlotBoard.Text.Utf8

/-!
File name patterns. A star stands for any bytes but slashes, a question mark for one character, and
brackets for one character out of ranges; a backslash takes the meaning from what follows it.

Names are matched by bytes. A pattern is cut at its stars into chunks, and after a star the first
place where the next chunk fits is taken, for good.
-/
namespace SlotBoard.Glob

/-- One character of a pattern. -/
inductive Piece where
  | byte (b : UInt8)
  | anyChar
  | oneOf (negated : Bool) (ranges : List (Char × Char))
deriving DecidableEq

/-- Pieces between stars, and whether a star stands before them. -/
structure Chunk where
  star : Bool
  pieces : List Piece
deriving DecidableEq

/-- A character inside brackets, and the rest, which may not be empty: the brackets have to be
closed. -/
def rangeEnd? : List Char → Option (Char × List Char)
  | '\\' :: c :: d :: rest => some (c, d :: rest)
  | c :: d :: rest => if c = '-' ∨ c = ']' ∨ c = '\\' then none else some (c, d :: rest)
  | _ => none

def ranges? : Nat → Bool → List Char → Option (List (Char × Char) × List Char)
  | 0, _, _ => none
  | fuel + 1, any, cs =>
    match any, cs with
    | true, ']' :: rest => some ([], rest)
    | _, _ => do
      let (low, rest) ← rangeEnd? cs
      let (high, rest) ← match rest with
        | '-' :: rest => rangeEnd? rest
        | _ => some (low, rest)
      let (ranges, rest) ← ranges? fuel true rest
      return ((low, high) :: ranges, rest)

def next? : List Char → Option (Option (List Piece) × List Char)
  | '*' :: rest => some (none, rest)
  | '?' :: rest => some (some [.anyChar], rest)
  | '[' :: '^' :: rest => do
    let (ranges, rest) ← ranges? rest.length false rest
    return (some [.oneOf true ranges], rest)
  | '[' :: rest => do
    let (ranges, rest) ← ranges? rest.length false rest
    return (some [.oneOf false ranges], rest)
  | '\\' :: c :: rest => some (some ((Utf8.encodeChar c).map .byte), rest)
  | c :: rest => if c = '\\' then none else some (some ((Utf8.encodeChar c).map .byte), rest)
  | [] => none

/-- Put a star before the chunks; stars in a row are one. -/
def addStar : List Chunk → List Chunk
  | { star := false, pieces } :: chunks => { star := true, pieces } :: chunks
  | [] => [{ star := true, pieces := [] }]
  | chunks => chunks

def addPieces (pieces : List Piece) : List Chunk → List Chunk
  | { star := false, pieces := more } :: chunks =>
    { star := false, pieces := pieces ++ more } :: chunks
  | chunks => { star := false, pieces } :: chunks

def parseFrom? : Nat → List Char → Option (List Chunk)
  | _, [] => some []
  | 0, _ => none
  | fuel + 1, cs => do
    let (front, rest) ← next? cs
    let chunks ← parseFrom? fuel rest
    match front with
    | none => return addStar chunks
    | some pieces => return addPieces pieces chunks

def parse? (pattern : String) : Option (List Chunk) :=
  parseFrom? pattern.toList.length pattern.toList

/-- The first character of a name; a stray byte counts as U+FFFD. -/
def firstChar : Bytes → Option (Char × Bytes)
  | [] => none
  | b :: rest =>
    match Utf8.next? (b :: rest) with
    | some step => some step
    | none => some ('\uFFFD', rest)

def slash : UInt8 := 0x2F

def matchPieces : List Piece → Bytes → Option Bytes
  | [], name => some name
  | .byte b :: pieces, name =>
    match name with
    | c :: rest => if b = c then matchPieces pieces rest else none
    | [] => none
  | .anyChar :: pieces, name => do
    if name.head? = some slash then none
    let (_, rest) ← firstChar name
    matchPieces pieces rest
  | .oneOf negated ranges :: pieces, name => do
    let (c, rest) ← firstChar name
    if ranges.any (fun (low, high) => low ≤ c && c ≤ high) = negated then none
    else matchPieces pieces rest

/-- Whether what is left of a name will do: the last chunk has to reach its end. -/
def reaches (isLast : Bool) (rest : Bytes) : Bool := !isLast || rest.isEmpty

/-- The first fit of pieces behind one or more bytes that are no slashes. -/
def seek (pieces : List Piece) (isLast : Bool) : Bytes → Option Bytes
  | [] => none
  | b :: rest =>
    if b = slash then none
    else
      match (matchPieces pieces rest).filter (reaches isLast) with
      | some tail => some tail
      | none => seek pieces isLast rest

def matchChunks : List Chunk → Bytes → Bool
  | [], name => name.isEmpty
  | chunk :: chunks, name =>
    if chunk.star && chunk.pieces.isEmpty then !name.contains slash
    else
      match (matchPieces chunk.pieces name).filter (reaches chunks.isEmpty) with
      | some rest => matchChunks chunks rest
      | none =>
        match if chunk.star then seek chunk.pieces chunks.isEmpty name else none with
        | some rest => matchChunks chunks rest
        | none => false

def isMeta (c : Char) : Bool := c = '*' || c = '?' || c = '[' || c = '\\'

def hasMeta (path : String) : Bool := path.toList.any isMeta

def sortNames (names : List String) : List String :=
  names.mergeSort fun a b => decide (Utf8.encode a ≤ Utf8.encode b)

variable {m : Type → Type} [Monad m] [MonadFiles m]

def inDirectory (directory pattern : String) : m (Option (List String)) := do
  match ← MonadFiles.kind directory with
  | .ok .directory =>
    let names := sortNames (← MonadFiles.names directory)
    match parse? pattern with
    | none => return if names.isEmpty then some [] else none
    | some chunks =>
      return some ((names.filter fun name => matchChunks chunks (Utf8.encode name)).map
        (Path.join directory))
  | _ => return some []

def inDirectories (pattern : String) : List String → m (Option (List String))
  | [] => return some []
  | directory :: directories => do
    match ← inDirectory directory pattern with
    | none => return none
    | some found =>
      match ← inDirectories pattern directories with
      | none => return none
      | some more => return some (found ++ more)

def directoryPart (path : String) : String :=
  if path = "" then "." else if path = "/" then "/" else String.ofList path.toList.dropLast

def expandFrom : Nat → String → m (Option (List String))
  | 0, _ => return none
  | fuel + 1, pattern => do
    if (parse? pattern).isNone then return none
    else if !hasMeta pattern then
      return some (if ← Files.exist pattern then [pattern] else [])
    else
      let (front, last) := Path.split pattern
      let directory := directoryPart front
      if !hasMeta directory then inDirectory directory last
      else
        match ← expandFrom fuel directory with
        | none => return none
        | some directories => inDirectories last directories

def expand (pattern : String) : m (Option (List String)) :=
  expandFrom (pattern.toList.length + 1) pattern

end SlotBoard.Glob
