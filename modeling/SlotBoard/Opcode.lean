import SlotBoard.Kind

/-!
Opcodes are the typed operations of binary items. A source operator selects one by the kind of its
result.
-/
namespace SlotBoard

structure Opcode where
  token : String
deriving DecidableEq, Inhabited

namespace Opcode

def add : Opcode := ⟨"ADD"⟩
def sub : Opcode := ⟨"SUB"⟩
def fadd32 : Opcode := ⟨"FADD32"⟩
def fadd64 : Opcode := ⟨"FADD64"⟩
def fsub32 : Opcode := ⟨"FSUB32"⟩
def fsub64 : Opcode := ⟨"FSUB64"⟩
def mul32 : Opcode := ⟨"MUL32"⟩
def mul64 : Opcode := ⟨"MUL64"⟩
def fmul32 : Opcode := ⟨"FMUL32"⟩
def fmul64 : Opcode := ⟨"FMUL64"⟩
def div32 : Opcode := ⟨"DIV32"⟩
def div64 : Opcode := ⟨"DIV64"⟩
def fdiv32 : Opcode := ⟨"FDIV32"⟩
def fdiv64 : Opcode := ⟨"FDIV64"⟩
def compEq : Opcode := ⟨"COMPEQ"⟩
def lessThan : Opcode := ⟨"LT"⟩

def unknown : Opcode := ⟨"UNKNOWN"⟩

def ofOperator? (operator : String) (kind : Kind) : Option Opcode :=
  if operator = "+" then
    some (if kind = .float then fadd32 else if kind = .double then fadd64 else add)
  else if operator = "-" then
    some (if kind = .float then fsub32 else if kind = .double then fsub64 else sub)
  else if operator = "*" then
    some (if kind = .float then fmul32 else if kind = .double then fmul64
      else if kind = .long then mul64 else mul32)
  else if operator = "/" then
    some (if kind = .float then fdiv32 else if kind = .double then fdiv64
      else if kind = .long then div64 else div32)
  else if operator = "==" then some compEq
  else if operator = "<" then some lessThan
  else none

def ofOperator (operator : String) (kind : Kind) : Opcode :=
  (ofOperator? operator kind).getD unknown

def isComparison (opcode : Opcode) : Bool := opcode = compEq || opcode = lessThan

end Opcode
end SlotBoard
