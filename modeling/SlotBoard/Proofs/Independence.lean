import SlotBoard.Proofs.Calls
import SlotBoard.Proofs.Parallel

/-!
What the code of a function depends on. Two modules may have come about in different ways: their
variables and boards in any order, with any code, and with any numbers drawn. If they agree in their
interface, a function becomes the same board in both, up to numbers, and the same diagnostics are
reported.
-/
namespace SlotBoard

/-- Two lowerings that agree in what a function can see of them: the name and the type aliases, and the
variables and boards of the module, by name and by kind. -/
structure Lowering.SameInterface (l m : Lowering) : Prop where
  name : l.module.name = m.module.name
  aliases : l.aliases = m.aliases
  globals : ∀ source, (l.module.global? source).map Variable.kind =
    (m.module.global? source).map Variable.kind
  boards : ∀ name, (l.module.board? name).map Board.kind = (m.module.board? name).map Board.kind

def Module.supply (m : Module) (b : Board) : Supply := ⟨m.globals, m.counter, b.values⟩

/-- New boards of two modules with the same code: values that were drawn in the same order, from the
counter of each module on, and slots with the same addresses, operations and successors, whose operands
correspond to each other. -/
structure Board.Corresponds (m n : Module) (b c : Board) : Prop where
  name : b.name = c.name
  kind : b.kind = c.kind
  values : RedrawnFrom m.counter n.counter b.values c.values
  slots : List.Forall₂ (Slot.Alike (Value.Corresponds (m.supply b) (n.supply c))) b.slots c.slots

namespace Lowering

theorem SameInterface.board?_isSome {l m : Lowering} (h : l.SameInterface m) (name : String) :
    (l.module.board? name).isSome = (m.module.board? name).isSome := by
  have hmap := congrArg Option.isSome (h.boards name)
  rwa [Option.isSome_map, Option.isSome_map] at hmap

theorem lookup_context (l : Lowering) (f : FuncDef) (callee : String) :
    (l.context f).signatures.lookup callee =
      ((l.module.board? callee).map Board.kind).or ([(f.name, l.kindOf f)].lookup callee) := by
  change (l.module.signatures ++ [(f.name, l.kindOf f)]).lookup callee = _
  rw [List.lookup_append, Module.signatures, lookup_map Board.name Board.kind]
  rfl

def surroundings {l m : Lowering} (h : l.SameInterface m) (hl : l.Plain) (hm : m.Plain)
    (f : FuncDef) : Surroundings where
  left := l.context f
  right := m.context f
  leftFirst := l.module.counter
  rightFirst := m.module.counter
  aliases := h.aliases
  isPrivate := rfl
  globals := h.globals
  signatures callee := by
    rw [lookup_context, lookup_context, h.boards, kindOf, kindOf, h.aliases]
  leftPlain := hl
  rightPlain := hm

theorem finished_twin {l m : Lowering} (h : l.SameInterface m) (hl : l.Plain) (hm : m.Plain)
    (f : FuncDef) : (surroundings h hl hm f).Twin (l.finished f) (m.finished f) := by
  have hblank : (surroundings h hl hm f).Twin (l.blank f) (m.blank f) := {
    name := rfl
    kind := congrArg (Kind.ofWords · f.returnType) h.aliases
    values := .nil _ _
    leftCounter := rfl
    rightCounter := rfl
    slots := .nil
    diagnostics := rfl }
  have hruns := (surroundings h hl hm f).runsFunction l.module.name f _ _ hblank
  unfold finished
  rw [← h.name]
  exact hruns.twin

end Lowering

/-- In two modules with the same interface a function is lowered to corresponding boards, with the same
diagnostics: to one board each if the name of the function is new, and to none else. -/
theorem function_depends_on_interface {l m : Lowering} (h : l.SameInterface m) (hl : l.Plain)
    (hm : m.Plain) (f : FuncDef) :
    ∃ (bs cs : List Board) (ds : List Diagnostic),
      (l.function f).module.boards = l.module.boards ++ bs ∧
      (m.function f).module.boards = m.module.boards ++ cs ∧
      (l.function f).diagnostics = l.diagnostics ++ ds ∧
      (m.function f).diagnostics = m.diagnostics ++ ds ∧
      bs.map Board.name = (if (l.module.board? f.name).isSome then [] else [f.name]) ∧
      List.Forall₂ (Board.Corresponds l.module m.module) bs cs := by
  have hknown := h.board?_isSome f.name
  cases hboard : l.module.board? f.name with
  | some b =>
    rw [hboard] at hknown
    obtain ⟨c, hc⟩ := Option.isSome_iff_exists.mp hknown.symm
    rw [l.function_of_known f b hboard, m.function_of_known f c hc]
    exact ⟨[], [], _, (List.append_nil _).symm, (List.append_nil _).symm, rfl, rfl, rfl, .nil⟩
  | none =>
    rw [hboard] at hknown
    have hnew : m.module.board? f.name = none := by simpa using hknown.symm
    have htwin := Lowering.finished_twin h hl hm f
    rw [l.function_of_new f hboard, m.function_of_new f hnew]
    refine ⟨[(l.finished f).board], [(m.finished f).board], (l.finished f).diagnostics, rfl, rfl, rfl,
      ?_, ?_, .cons ?_ .nil⟩
    · rw [htwin.diagnostics]
    · exact congrArg (· :: []) (l.finished_name f)
    · exact ⟨htwin.name, htwin.kind, htwin.values, htwin.slots⟩

/-- A function that works on two variables of the module, calls another function and refers to a name
that is not declared. -/
def mixingFunction : FuncDef where
  pos := {}
  name := "f"
  returnType := ["int"]
  storage := []
  params := [⟨{}, "n", ["int"], [], [], none⟩]
  bodyPos := {}
  body :=
    [.forLoop {} none (some (.binary {} "<" (.ident {} "a") (.ident {} "n"))) none
        (.expr {} (.assign {} "+=" (.ident {} "a") (.call {} "g" [.ident {} "b"]))),
      .ret {} (some (.ident {} "c"))]

/-- Its code is the same in two modules that declare the variables in another order and have other code
and other numbers in the board of the function it calls. -/
theorem mixingFunction_depends_on_interface :
    let a : TopLevel := .decl ⟨{}, "a", ["int"], [], [], none⟩
    let b : TopLevel := .decl ⟨{}, "b", ["long"], [], [], none⟩
    let l := (Lowering.start "m" []).unit ⟨"u", [a, b, .func (callingFunction "g" "int" [])]⟩
    let m := (Lowering.start "m" []).unit ⟨"v", [.func (callingFunction "g" "int" ["g"]), b, a]⟩
    l.module.counter = 2 ∧ m.module.counter = 3 ∧ l.SameInterface m ∧
      ∃ (bs cs : List Board) (ds : List Diagnostic),
        (l.function mixingFunction).module.boards = l.module.boards ++ bs ∧
        (m.function mixingFunction).module.boards = m.module.boards ++ cs ∧
        (l.function mixingFunction).diagnostics = ds ∧ (m.function mixingFunction).diagnostics = ds ∧
        bs.map Board.name = ["f"] ∧
        List.Forall₂ (Board.Corresponds l.module m.module) bs cs := by
  intro a b l m
  have hglobals : (l.module.globals.map fun v => (v.source, v.kind)) = [("a", .int), ("b", .long)] ∧
      (m.module.globals.map fun v => (v.source, v.kind)) = [("b", .long), ("a", .int)] := by
    decide +kernel
  have hboards : (l.module.boards.map fun b => (b.name, b.kind)) =
      m.module.boards.map fun b => (b.name, b.kind) := by
    decide +kernel
  have hinterface : l.SameInterface m := {
    name := rfl
    aliases := rfl
    globals := by
      intro source
      rw [Module.global?, Module.global?, ← lookup_map Variable.source Variable.kind,
        ← lookup_map Variable.source Variable.kind, hglobals.1, hglobals.2]
      by_cases ha : source = "a"
      · subst ha
        rfl
      · by_cases hb : source = "b"
        · subst hb
          rfl
        · simp [List.lookup_cons, beq_false_of_ne ha, beq_false_of_ne hb]
    boards := by
      intro name
      rw [Module.board?, Module.board?, ← lookup_map Board.name Board.kind,
        ← lookup_map Board.name Board.kind, hboards] }
  have hplain : l.Plain ∧ m.Plain := by
    unfold Lowering.Plain
    decide +kernel
  have hnew : (l.module.board? mixingFunction.name).isSome = false := by decide +kernel
  have hquiet : l.diagnostics = [] ∧ m.diagnostics = [] := by decide +kernel
  obtain ⟨bs, cs, ds, hbs, hcs, hl, hm, hnames, hcorrespond⟩ :=
    function_depends_on_interface hinterface hplain.1 hplain.2 mixingFunction
  rw [hquiet.1, List.nil_append] at hl
  rw [hquiet.2, List.nil_append] at hm
  rw [hnew] at hnames
  exact ⟨by decide +kernel, by decide +kernel, hinterface, bs, cs, ds, hbs, hcs, hl, hm, hnames,
    hcorrespond⟩

end SlotBoard
