import SlotBoard.Text.Utf8
import SlotBoard.Toml.Moment
import SlotBoard.Toml.Number
import SlotBoard.Toml.Quotation

/-!
The lines of a TOML document: table headers and key-value pairs. Keys are paths of names. Values
keep their written structure; what tables they add up to is decided elsewhere.
-/
namespace SlotBoard.Toml

/-- A value as it is written. Floats and moments keep their spelling only. -/
inductive Term where
  | text (s : String)
  | integer (n : Int)
  | float (literal : String)
  | bool (b : Bool)
  | moment (literal : String)
  | array (items : List Term)
  | inline (entries : List (List String × Term))
deriving Inhabited

def Term.isArray : Term → Bool
  | .array _ => true
  | _ => false

inductive Line where
  | header (path : List String)
  | row (path : List String)
  | entry (path : List String) (value : Term)
deriving Inhabited

def isGap (c : Char) : Bool := c = ' ' || c = '\t'

def skipGap (cs : List Char) : List Char := cs.dropWhile isGap

def isLineBreak (c : Char) : Bool := c = '\n' || c = '\r'

def skipComment (cs : List Char) : List Char :=
  match cs with
  | '#' :: rest => rest.dropWhile fun c => !isLineBreak c
  | _ => cs

/-- Skip blanks, line breaks and comments; `comment` says that one is under way. -/
def skipFiller (comment : Bool) : List Char → List Char
  | [] => []
  | c :: cs =>
    if isLineBreak c then skipFiller false cs
    else if comment then skipFiller true cs
    else if isGap c then skipFiller false cs
    else if c = '#' then skipFiller true cs
    else c :: cs

def isBareName (c : Char) : Bool :=
  c.isAlphanum || c = '_' || c = '-'

def name? (cs : List Char) : Option (String × List Char) :=
  match cs.takeWhile isBareName with
  | [] => quotedName? cs
  | run => some (String.ofList run, cs.drop run.length)

def path? : Nat → List Char → Option (List String × List Char)
  | 0, _ => none
  | fuel + 1, cs => do
    let (name, rest) ← name? (skipGap cs)
    match skipGap rest with
    | '.' :: rest => do
      let (names, rest) ← path? fuel rest
      return (name :: names, rest)
    | rest => return ([name], rest)

def isMomentChar (c : Char) : Bool :=
  c.isDigit || ['-', ':', 'T', 't', ' ', '.', 'Z', 'z', '+'].contains c

def isFloatChar (c : Char) : Bool := c.isDigit || ['_', '.', '-', '+', 'e', 'E'].contains c

def isDecimalChar (c : Char) : Bool := c.isDigit || c = '_'

def trimEnd (cs : List Char) : List Char := (cs.reverse.dropWhile isGap).reverse

def moment? (cs : List Char) : Option (Term × List Char) :=
  let run := cs.takeWhile isMomentChar
  let literal := trimEnd run
  if isMoment literal then some (.moment (String.ofList literal), cs.drop run.length) else none

def float? (sign cs : List Char) : Option (Term × List Char) :=
  let run := cs.takeWhile isFloatChar
  if isFloat (sign ++ run) then some (.float (String.ofList (sign ++ run)), cs.drop run.length)
  else none

def decimal? (sign cs : List Char) : Option (Term × List Char) :=
  let run := cs.takeWhile isDecimalChar
  let rest := cs.drop run.length
  match rest with
  | c :: _ =>
    if isPointOrExponent c then float? sign cs
    else (integer? (sign ++ run)).map fun n => (.integer n, rest)
  | [] => (integer? (sign ++ run)).map fun n => (.integer n, rest)

def based? (mark : Char) (isDigit : Char → Bool) (cs : List Char) : Option (Term × List Char) :=
  let run := cs.takeWhile fun c => isDigit c || c = '_'
  if cs.head?.any isDigit then
    (integer? ('0' :: mark :: run)).map fun n => (.integer n, cs.drop run.length)
  else none

def numeric? (cs : List Char) : Option (Term × List Char) :=
  match cs with
  | '0' :: 'x' :: rest => based? 'x' isHexDigit rest
  | '0' :: 'o' :: rest => based? 'o' (fun c => '0' ≤ c && c ≤ '7') rest
  | '0' :: 'b' :: rest => based? 'b' (fun c => c = '0' || c = '1') rest
  | '0' :: c :: _ =>
    if c = '-' ∨ c = ':' then decimal? [] cs
    else
      match cs.dropWhile Char.isDigit with
      | '-' :: _ | ':' :: _ => moment? cs
      | _ => decimal? [] cs
  | _ =>
    match cs.dropWhile Char.isDigit with
    | '-' :: _ | ':' :: _ => moment? cs
    | _ => decimal? [] cs

def signed? (sign : Char) (cs : List Char) : Option (Term × List Char) :=
  match cs with
  | 'i' :: 'n' :: 'f' :: rest => some (.float (String.ofList [sign, 'i', 'n', 'f']), rest)
  | 'n' :: 'a' :: 'n' :: rest => some (.float (String.ofList [sign, 'n', 'a', 'n']), rest)
  | c :: _ => if c.isDigit then decimal? [sign] cs else none
  | [] => none

def scalarTerm? (cs : List Char) : Option (Term × List Char) :=
  match cs with
  | '"' :: _ | '\'' :: _ => (quotation? cs).map fun (s, rest) => (.text s, rest)
  | 't' :: 'r' :: 'u' :: 'e' :: rest => some (.bool true, rest)
  | 'f' :: 'a' :: 'l' :: 's' :: 'e' :: rest => some (.bool false, rest)
  | 'i' :: 'n' :: 'f' :: rest => some (.float "inf", rest)
  | 'n' :: 'a' :: 'n' :: rest => some (.float "nan", rest)
  | '+' :: rest => signed? '+' rest
  | '-' :: rest => signed? '-' rest
  | c :: _ => if c.isDigit then numeric? cs else none
  | [] => none

mutual

/-- The value at the front. The fuel bounds the number of steps; twice the length of the text is
enough. -/
def term? : Nat → List Char → Option (Term × List Char)
  | 0, _ => none
  | fuel + 1, cs =>
    match skipGap cs with
    | '[' :: rest => do
      let (items, rest) ← items? fuel (skipFiller false rest)
      return (.array items, rest)
    | c :: rest =>
      if c = '\x7b' then do
        let (entries, rest) ← entries? fuel (skipFiller false rest)
        return (.inline entries, rest)
      else scalarTerm? (c :: rest)
    | [] => none

def items? : Nat → List Char → Option (List Term × List Char)
  | 0, _ => none
  | fuel + 1, cs =>
    match cs with
    | ']' :: rest => some ([], rest)
    | _ => do
      let (item, rest) ← term? fuel cs
      match skipFiller false rest with
      | ',' :: rest => do
        let (items, rest) ← items? fuel (skipFiller false rest)
        return (item :: items, rest)
      | ']' :: rest => return ([item], rest)
      | _ => none

def entries? : Nat → List Char → Option (List (List String × Term) × List Char)
  | 0, _ => none
  | fuel + 1, cs =>
    if cs.head? = some '\x7d' then some ([], cs.tail)
    else do
      let (path, rest) ← path? cs.length cs
      let rest ← literally? '=' rest
      let (value, rest) ← term? fuel rest
      match skipFiller false rest with
      | ',' :: rest => do
        let (entries, rest) ← entries? fuel (skipFiller false rest)
        return ((path, value) :: entries, rest)
      | c :: rest => if c = '\x7d' then return ([(path, value)], rest) else none
      | [] => none

end

def endOfLine? (cs : List Char) : Option (List Char) :=
  match skipComment (skipGap cs) with
  | [] => some []
  | c :: rest => if isLineBreak c then some (c :: rest) else none

def line? (cs : List Char) : Option (Line × List Char) :=
  match cs with
  | '[' :: '[' :: rest => do
    let (path, rest) ← path? rest.length rest
    match rest with
    | ']' :: ']' :: rest => return (.row path, rest)
    | _ => none
  | '[' :: rest => do
    let (path, rest) ← path? rest.length rest
    return (.header path, ← literally? ']' rest)
  | _ => do
    let (path, rest) ← path? cs.length cs
    let rest ← literally? '=' rest
    let (value, rest) ← term? (2 * rest.length + 2) rest
    return (.entry path value, rest)

/-- The lines of a text. Every line has a character at least, so its length bounds their number. -/
def lines? : Nat → List Char → Option (List Line)
  | 0, _ => none
  | fuel + 1, cs =>
    match skipFiller false cs with
    | [] => some []
    | cs => do
      let (line, rest) ← line? cs
      let lines ← lines? fuel (← endOfLine? rest)
      return line :: lines

/-- Control characters may not stand in a document, except tabs and line breaks; and a carriage
return only as a part of a line break. -/
def isClean : List Char → Bool
  | [] => true
  | '\r' :: '\n' :: cs => isClean cs
  | c :: cs => (c = '\t' || c = '\n' || (0x20 ≤ c.toNat && c.toNat ≠ 0x7F)) && isClean cs

def dropMark : Bytes → Bytes
  | 0xFF :: 0xFE :: rest => rest
  | 0xFE :: 0xFF :: rest => rest
  | 0xEF :: 0xBB :: 0xBF :: rest => rest
  | bs => bs

def parse? (bs : Bytes) : Option (List Line) := do
  let cs := (← Utf8.decode? (dropMark bs)).toList
  if isClean cs then lines? (cs.length + 1) cs else none

end SlotBoard.Toml
