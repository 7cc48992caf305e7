import SlotBoard.Lowering.Stmt

/-!
Lowering of source units into one module. Declarations are taken in order, and a declaration
that fails is reported and left out, so lowering always finishes. A function becomes a board that
starts with an exit and an entry marker and ends with a jump to address 0.
-/
namespace SlotBoard

open Draft

/-- A module being built from source units, with the diagnostics reported so far. -/
structure Lowering where
  module : Module
  aliases : Kind.Aliases
  diagnostics : List Diagnostic := []

namespace Lowering

def start (name : String) (aliases : Kind.Aliases) : Lowering := { module := { name }, aliases }

def report (l : Lowering) (kind : DiagnosticKind) (pos : Position) (message : String) : Lowering :=
  { l with diagnostics := l.diagnostics ++ [{ kind, pos, board := "", message }] }

/-- Declare a variable at module scope. There is no code at module scope, so an initialiser is
reported. -/
def declaration (l : Lowering) (d : Decl) : Lowering :=
  let flags := {
    isPublic := !d.storage.contains "static"
    isMember := true
    globalConstant := d.quals.contains "const"
    isVolatile := d.quals.contains "volatile" }
  match l.module.declareGlobal d.name (.ofWords l.aliases d.type) flags with
  | .error _ => l.report .redeclared d.pos ("module-scope variable " ++ d.name)
  | .ok (_, m) =>
    let l := { l with module := m }
    match d.init with
    | none => l
    | some e =>
      l.report .unsupported e.pos ("initializer of module-scope variable " ++ d.name)

end Lowering

def lowerParameters (ctx : Context) (scope : String) : List Decl → Emit Unit
  | [] => return
  | p :: ps => do
    let flags := { methodParam := true, isVolatile := p.quals.contains "volatile" }
    if (← declare? ctx (some scope) p.name (.ofWords ctx.aliases p.type) flags).isNone then
      discard (Draft.report .redeclared p.pos ("parameter " ++ p.name))
    lowerParameters ctx scope ps

def FuncDef.lower (ctx : Context) (scope : String) (f : FuncDef) : Emit Unit := do
  lowerParameters ctx scope f.params
  emit ⟨.exit, []⟩
  emit ⟨.entry, []⟩
  Stmt.lowerAll ctx f.body
  emit (.jump 0)

namespace Lowering

def function (l : Lowering) (f : FuncDef) : Lowering :=
  let kind := Kind.ofWords l.aliases f.returnType
  match l.module.newBoard f.name kind with
  | .error _ => l.report .redeclared f.pos ("function " ++ f.name)
  | .ok m =>
    let ctx := {
      aliases := l.aliases
      globals := m.globals
      signatures := m.signatures
      isPrivate := f.isStatic }
    let start := { board := { name := f.name, kind }, counter := m.counter }
    let draft := ((f.lower ctx m.name).run start).2
    { l with
      module := { l.module with
        boards := l.module.boards ++ [draft.board]
        counter := draft.counter }
      diagnostics := l.diagnostics ++ draft.diagnostics }

def topLevel (l : Lowering) : TopLevel → Lowering
  | .func f => l.function f
  | .decl d => l.declaration d
  | .unknown pos kind => l.report .unsupported pos ("top-level " ++ kind)

def unit (l : Lowering) (u : SourceUnit) : Lowering := u.decls.foldl topLevel l

end Lowering

def SourceUnit.lower (name : String) (aliases : Kind.Aliases) (u : SourceUnit) :
    Lowering := (Lowering.start name aliases).unit u

end SlotBoard
