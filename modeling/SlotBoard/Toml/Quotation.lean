import SlotBoard.Text.Hex

/-!
Quoted texts of TOML. Basic texts, in double quotes, have escapes; literal texts, in single quotes,
have none. Both come in a form for one line and, in triple quotes, in a form for several lines that
drops a line break at its start and may end in up to two quotes of its own.

The readers are given what follows the opening quotes, and return the text with the rest.
-/
namespace SlotBoard.Toml

def escape? (c : Char) : Option Char :=
  match c with
  | 'b' => some '\u0008'
  | 't' => some '\t'
  | 'n' => some '\n'
  | 'f' => some '\u000C'
  | 'r' => some '\r'
  | 'e' => some '\u001B'
  | '"' => some '"'
  | '\\' => some '\\'
  | _ => none

def scalar? (digits : List Char) : Option Char := do
  let n ← Hex.number? digits
  if n.isValidChar then some (Char.ofNat n) else none

/-- Whether a backslash before this text ends its line: only white space and a line break follow. -/
def endsLine (cs : List Char) : Bool :=
  (cs.takeWhile fun c => c = ' ' || c = '\t' || c = '\r' || c = '\n').contains '\n'

def cons? (c : Char) (read : Option (List Char × List Char)) : Option (List Char × List Char) :=
  read.map fun (cs, rest) => (c :: cs, rest)

def basic? : List Char → Option (List Char × List Char)
  | [] => none
  | '"' :: rest => some ([], rest)
  | '\\' :: 'x' :: a :: b :: rest => do cons? (← scalar? [a, b]) (basic? rest)
  | '\\' :: 'u' :: a :: b :: c :: d :: rest => do cons? (← scalar? [a, b, c, d]) (basic? rest)
  | '\\' :: 'U' :: a :: b :: c :: d :: e :: f :: g :: h :: rest => do
    cons? (← scalar? [a, b, c, d, e, f, g, h]) (basic? rest)
  | '\\' :: c :: rest => do cons? (← escape? c) (basic? rest)
  | c :: rest => if c = '\n' ∨ c = '\r' ∨ c = '\\' then none else cons? c (basic? rest)

def literal? : List Char → Option (List Char × List Char)
  | [] => none
  | '\'' :: rest => some ([], rest)
  | c :: rest => if c = '\n' ∨ c = '\r' then none else cons? c (literal? rest)

def dropLineBreak : List Char → List Char
  | '\n' :: rest => rest
  | '\r' :: '\n' :: rest => rest
  | cs => cs

/-- How many quotes may stand in a row in a basic text on several lines: two of the text and the
three that end it. After an escaped backslash there may be one more. -/
def quoteLimit (afterBackslash : Bool) : Nat := if afterBackslash then 6 else 5

/-- A basic text on several lines. While `skipping`, white space after a line-ending backslash is
passed over; `afterBackslash` says that an escaped backslash stands right before. -/
def basicLines? (skipping afterBackslash : Bool) : List Char → Option (List Char × List Char)
  | [] => none
  | '"' :: rest =>
    let more := (rest.takeWhile (· = '"')).length
    if quoteLimit afterBackslash ≤ more then none
    else if 2 ≤ more then some (List.replicate (more - 2) '"', rest.drop more)
    else cons? '"' (basicLines? false false rest)
  | '\\' :: 'x' :: a :: b :: rest => do cons? (← scalar? [a, b]) (basicLines? false false rest)
  | '\\' :: 'u' :: a :: b :: c :: d :: rest => do
    cons? (← scalar? [a, b, c, d]) (basicLines? false false rest)
  | '\\' :: 'U' :: a :: b :: c :: d :: e :: f :: g :: h :: rest => do
    cons? (← scalar? [a, b, c, d, e, f, g, h]) (basicLines? false false rest)
  | '\\' :: c :: rest =>
    if endsLine (c :: rest) then basicLines? true false rest
    else do cons? (← escape? c) (basicLines? false (c = '\\') rest)
  | c :: rest =>
    if c = '\\' then none
    else if skipping && (c = ' ' || c = '\t' || c = '\r' || c = '\n') then
      basicLines? true false rest
    else cons? c (basicLines? false false rest)

def literalLines? : List Char → Option (List Char × List Char)
  | [] => none
  | '\'' :: '\'' :: '\'' :: '\'' :: '\'' :: '\'' :: _ => none
  | '\'' :: '\'' :: '\'' :: '\'' :: rest =>
    cons? '\'' (literalLines? ('\'' :: '\'' :: '\'' :: rest))
  | '\'' :: '\'' :: '\'' :: rest => some ([], rest)
  | c :: rest => cons? c (literalLines? rest)

def quotation? (cs : List Char) : Option (String × List Char) :=
  let read := match cs with
    | '"' :: '"' :: '"' :: rest => basicLines? false false (dropLineBreak rest)
    | '"' :: rest => basic? rest
    | '\'' :: '\'' :: '\'' :: rest => literalLines? (dropLineBreak rest)
    | '\'' :: rest => literal? rest
    | _ => none
  read.map fun (text, rest) => (String.ofList text, rest)

def quotedName? (cs : List Char) : Option (String × List Char) :=
  let read := match cs with
    | '"' :: rest => basic? rest
    | '\'' :: rest => literal? rest
    | _ => none
  read.map fun (text, rest) => (String.ofList text, rest)

end SlotBoard.Toml
