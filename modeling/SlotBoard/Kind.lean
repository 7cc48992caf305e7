import SlotBoard.Text.Fold

/-!
Kinds are the primitive types of variables and constants. A kind is known by its token; a project
may bring tokens of its own through aliases, so the type is open and the nine usual kinds are
constants of it.
-/
namespace SlotBoard

structure Kind where
  token : String
deriving DecidableEq, Inhabited

namespace Kind

def void : Kind := ⟨"VOID"⟩
def int : Kind := ⟨"INT"⟩
def byte : Kind := ⟨"BYTE"⟩
def short : Kind := ⟨"SHORT"⟩
def long : Kind := ⟨"LONG"⟩
def float : Kind := ⟨"FLOAT"⟩
def double : Kind := ⟨"DOUBLE"⟩
def boolean : Kind := ⟨"BOOLEAN"⟩
def unknown : Kind := ⟨"UNKNOWN"⟩

def usual : List Kind := [void, int, byte, short, long, float, double, boolean, unknown]

abbrev Aliases := List (String × Kind)

def words : List (String × Kind) :=
  [("void", void), ("int", int), ("char", byte), ("short", short), ("long", long),
    ("float", float), ("double", double)]

def primitive? : List String → Option Kind
  | [word] => words.lookup word
  | _ => none

/-- The kind of a declaration's type words: a single primitive word first, then an alias of the
words joined by blanks. -/
def ofWords (aliases : Aliases) (type : List String) : Kind :=
  ((primitive? type).or (aliases.lookup (" ".intercalate type))).getD unknown

/-- The kind of a literal, by the name of its type. No literal is void. -/
def ofLiteral (type : String) : Kind :=
  if type = "void" then unknown else (words.lookup type).getD unknown

def parse? (s : String) : Option Kind :=
  usual.find? fun kind => kind.token.toList == s.toList.map Fold.upper

/-- The kind of a result computed from two operands: theirs if they agree. -/
def shared (a b : Kind) : Kind := if a = b then a else unknown

end Kind
end SlotBoard
