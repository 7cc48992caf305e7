import SlotBoard.Proofs.Calls
import SlotBoard.Proofs.Numbering

/-!
Lowering only appends. While a statement is lowered, jumps are filled in and sent elsewhere and values
are typed, but all of that happens to slots and values that the statement itself has written: what the
board held before stays as it was, and so do the other boards and the variables of the module. The
same holds of a declaration, and so of a source unit: the boards, the variables and the diagnostics
there were before are the first ones afterwards.
-/
namespace SlotBoard

/-- The later board is the earlier one with more values and more slots. -/
structure Board.Appends (b c : Board) : Prop where
  name : c.name = b.name
  kind : c.kind = b.kind
  values : b.values <+: c.values
  slots : b.slots <+: c.slots

namespace Lowering

def draft (l : Lowering) (b : Board) : Draft :=
  { board := b, counter := l.module.counter, diagnostics := l.diagnostics }

def put (l : Lowering) (place : Nat) (d : Draft) : Lowering :=
  { l with
    module := { l.module with boards := l.module.boards.set place d.board, counter := d.counter }
    diagnostics := d.diagnostics }

/-- Only the board at one place has changed, and that one, the diagnostics and the numbers drawn have
only been added to: one number for each new value. -/
structure AppendsAt (place : Nat) (l m : Lowering) : Prop where
  name : m.module.name = l.module.name
  aliases : m.aliases = l.aliases
  globals : m.module.globals = l.module.globals
  others : ∀ i, i ≠ place → m.module.boards[i]? = l.module.boards[i]?
  board : ∃ b c, l.module.boards[place]? = some b ∧ m.module.boards[place]? = some c ∧ b.Appends c ∧
    m.module.counter + b.values.length = l.module.counter + c.values.length
  diagnostics : l.diagnostics <+: m.diagnostics

/-- The boards, the variables of the module and the diagnostics of the earlier lowering are the first
ones of the later. -/
structure Appends (l m : Lowering) : Prop where
  name : m.module.name = l.module.name
  aliases : m.aliases = l.aliases
  globals : l.module.globals <+: m.module.globals
  boards : l.module.boards <+: m.module.boards
  diagnostics : l.diagnostics <+: m.diagnostics
  counter : l.module.counter ≤ m.module.counter

theorem Appends.refl (l : Lowering) : l.Appends l where
  name := rfl
  aliases := rfl
  globals := List.prefix_refl _
  boards := List.prefix_refl _
  diagnostics := List.prefix_refl _
  counter := Nat.le_refl _

theorem Appends.trans {l m n : Lowering} (hlm : l.Appends m) (hmn : m.Appends n) : l.Appends n where
  name := hmn.name.trans hlm.name
  aliases := hmn.aliases.trans hlm.aliases
  globals := hlm.globals.trans hmn.globals
  boards := hlm.boards.trans hmn.boards
  diagnostics := hlm.diagnostics.trans hmn.diagnostics
  counter := Nat.le_trans hlm.counter hmn.counter

theorem Takes.appends {l m : Lowering} {t : TopLevel} (h : l.Takes t m) : l.Appends m := by
  cases h with
  | refused diagnostic h => exact { Appends.refl l with diagnostics := List.prefix_append _ _ }
  | board f h =>
    exact { Appends.refl l with
      boards := List.prefix_append _ _
      diagnostics := List.prefix_append _ _
      counter := (l.finished_grows f).counter }
  | global d diagnostics h hinit =>
    exact { Appends.refl l with
      globals := List.prefix_append _ _
      diagnostics := List.prefix_append _ _
      counter := Nat.le_succ _ }

theorem unit_appends (l : Lowering) (u : SourceUnit) : l.Appends (l.unit u) := by
  have hdecls : ∀ (ts : List TopLevel) (l : Lowering), l.Appends (ts.foldl topLevel l) := by
    intro ts
    induction ts with
    | nil => exact Appends.refl
    | cons t ts ih => exact fun l => (l.topLevel_takes t).appends.trans (ih (l.topLevel t))
  exact hdecls u.decls l

end Lowering

/-- A statement draws one number for every value that it adds to the board. -/
theorem Stmt.lower_draws (ctx : Context) (s : Stmt) : Keeps Draft.Draws (s.lower ctx) :=
  (Draft.Draws.slotBlind ctx).stmt s

theorem Stmt.lower_board_appends (ctx : Context) (s : Stmt) (d : Draft) :
    d.board.Appends (d.after (s.lower ctx)).board := by
  have hgrows := s.lower_grows ctx d
  obtain ⟨code, hcode, -⟩ := s.lower_extends ctx d
  exact ⟨hgrows.name, hgrows.kind, hgrows.values, hcode ▸ List.prefix_append _ _⟩

theorem Lowering.statement_appendsAt (l : Lowering) {place : Nat} {b : Board}
    (hb : l.module.boards[place]? = some b) (ctx : Context) (s : Stmt) :
    AppendsAt place l (l.put place ((l.draft b).after (s.lower ctx))) where
  name := rfl
  aliases := rfl
  globals := rfl
  others i hi := List.getElem?_set_ne (Ne.symm hi)
  board := by
    obtain ⟨hlt, -⟩ := List.getElem?_eq_some_iff.mp hb
    obtain ⟨values, hvalues, hcounter, -⟩ := s.lower_draws ctx (l.draft b)
    refine ⟨b, _, hb, List.getElem?_set_self hlt, s.lower_board_appends ctx (l.draft b), ?_⟩
    simp only [put, hcounter, hvalues, List.length_append]
    simp only [draft]
    omega
  diagnostics := (s.lower_grows ctx (l.draft b)).diagnostics

/-- A statement that is lowered into any board of any module leaves the old values and slots of that
board, every other board and the variables of the module as they were, whatever it sees of the module,
and only appends to the board and to the diagnostics. A source unit leaves all boards, variables and
diagnostics as they were and only appends others. -/
theorem lowering_only_appends :
    (∀ (l : Lowering) (place : Nat) (b : Board), l.module.boards[place]? = some b →
      ∀ (ctx : Context) (s : Stmt),
        l.AppendsAt place (l.put place ((l.draft b).after (s.lower ctx)))) ∧
    ∀ (l : Lowering) (u : SourceUnit), l.Appends (l.unit u) :=
  ⟨fun l _ _ hb ctx s => l.statement_appendsAt hb ctx s, Lowering.unit_appends⟩

/-- A conditional return, lowered into the first of two boards, whose other branch is given up: four new
slots, one new value and one diagnostic. -/
theorem conditional_return_appends :
    let l := (Lowering.start "m" []).unit ⟨"u", [.func (callingFunction "f" "int" ["f"]),
      .func (callingFunction "g" "int" ["f"])]⟩
    let ctx := l.context (callingFunction "f" "int" [])
    let s := Stmt.ifThen {} (.call {} "g" []) (.ret {} none) (some (.expr {} (.ident {} "h")))
    ∃ b, l.module.boards[0]? = some b ∧ (b.values.length, b.slots.length) = (1, 4) ∧
      let m := l.put 0 ((l.draft b).after (s.lower ctx))
      l.AppendsAt 0 m ∧ m.diagnostics.length = 1 ∧
        (m.module.boards.map fun c => (c.values.length, c.slots.length)) = [(2, 8), (1, 4)] := by
  intro l ctx s
  have hfirst : ∃ b ∈ l.module.boards[0]?, (b.values.length, b.slots.length) = (1, 4) ∧
      let m := l.put 0 ((l.draft b).after (s.lower ctx))
      m.diagnostics.length = 1 ∧
        (m.module.boards.map fun c => (c.values.length, c.slots.length)) = [(2, 8), (1, 4)] := by
    decide +kernel
  obtain ⟨b, hb, hsizes, hdiagnostics, hboards⟩ := hfirst
  exact ⟨b, hb, hsizes, lowering_only_appends.1 l 0 b hb ctx s, hdiagnostics, hboards⟩

end SlotBoard
