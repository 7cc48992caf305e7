import SlotBoard.Proofs.Region

/-!
The board of a function. A module takes a function in by lowering it in a draft of its own; the draft
starts empty, and its code is the two markers, a region and the final jump.
-/
namespace SlotBoard

namespace Lowering

def kindOf (l : Lowering) (f : FuncDef) : Kind := .ofWords l.aliases f.returnType

def context (l : Lowering) (f : FuncDef) : Context where
  aliases := l.aliases
  globals := l.module.globals
  signatures := l.module.signatures ++ [(f.name, l.kindOf f)]
  isPrivate := f.isStatic

def blank (l : Lowering) (f : FuncDef) : Draft :=
  { board := { name := f.name, kind := l.kindOf f }, counter := l.module.counter }

def finished (l : Lowering) (f : FuncDef) : Draft :=
  (l.blank f).after (f.lower (l.context f) l.module.name)

theorem finished_grows (l : Lowering) (f : FuncDef) : (l.blank f).Grows (l.finished f) :=
  (Draft.Grows.slotBlind (l.context f)).function l.module.name f (l.blank f)

theorem finished_name (l : Lowering) (f : FuncDef) : (l.finished f).board.name = f.name :=
  (l.finished_grows f).name

theorem finished_kind (l : Lowering) (f : FuncDef) : (l.finished f).board.kind = l.kindOf f :=
  (l.finished_grows f).kind

/-- The lowering of a function whose name is new adds one board. -/
theorem function_of_new (l : Lowering) (f : FuncDef) (h : l.module.board? f.name = none) :
    l.function f = { l with
      module := { l.module with
        boards := l.module.boards ++ [(l.finished f).board]
        counter := (l.finished f).counter }
      diagnostics := l.diagnostics ++ (l.finished f).diagnostics } := by
  have hsignatures : Module.signatures
      { l.module with boards := l.module.boards ++ [{ name := f.name, kind := l.kindOf f }] } =
        (l.context f).signatures := by
    simp [Module.signatures, context]
  unfold function Module.newBoard
  rw [h]
  dsimp only
  unfold kindOf at hsignatures
  rw [hsignatures]
  rfl

theorem function_of_known (l : Lowering) (f : FuncDef) (b : Board)
    (h : l.module.board? f.name = some b) :
    l.function f = l.report .redeclared f.pos ("function " ++ f.name) := by
  unfold function Module.newBoard
  rw [h]

/-- A function that is lowered without a diagnostic is new, and no step of its lowering reports. -/
theorem new_of_quiet (l : Lowering) (f : FuncDef)
    (h : (l.function f).diagnostics = l.diagnostics) :
    l.module.board? f.name = none ∧ (l.finished f).diagnostics = [] := by
  cases hboard : l.module.board? f.name with
  | some b =>
    rw [function_of_known l f b hboard] at h
    simp [report] at h
  | none =>
    rw [function_of_new l f hboard] at h
    simpa using h

def globalOf (l : Lowering) (d : Decl) : Variable :=
  .declared d.name "" l.module.name l.module.counter (.ofWords l.aliases d.type) {
    isPublic := !d.storage.contains "static"
    isMember := true
    globalConstant := d.quals.contains "const"
    isVolatile := d.quals.contains "volatile" }

/-- The lowering of a declaration whose name is new adds one variable; an initialiser is reported. -/
theorem declaration_of_new (l : Lowering) (d : Decl) (h : l.module.global? d.name = none) :
    l.declaration d = { l with
      module := { l.module with
        globals := l.module.globals ++ [l.globalOf d]
        counter := l.module.counter + 1 }
      diagnostics := l.diagnostics ++ (d.init.map fun e => {
        kind := .unsupported
        pos := e.pos
        board := ""
        message := "initializer of module-scope variable " ++ d.name }).toList } := by
  unfold declaration Module.declareGlobal
  rw [h]
  cases d.init with
  | none =>
    dsimp only [Option.map_none, Option.toList_none]
    rw [List.append_nil]
    rfl
  | some e => rfl

theorem declaration_of_known (l : Lowering) (d : Decl) (v : Variable)
    (h : l.module.global? d.name = some v) :
    l.declaration d = l.report .redeclared d.pos ("module-scope variable " ++ d.name) := by
  unfold declaration Module.declareGlobal
  rw [h]

def refuses (l : Lowering) : TopLevel → Bool
  | .func f => (l.module.board? f.name).isSome
  | .decl d => (l.module.global? d.name).isSome
  | .unknown .. => true

/-- What a declaration can do to a lowering: it is reported and left out, or it adds a board, or it
adds a variable of the module. -/
inductive Takes (l : Lowering) : TopLevel → Lowering → Prop
  | refused {t : TopLevel} (diagnostic : Diagnostic) (h : l.refuses t = true)
    (hkind : diagnostic.kind ≠ .unsupportedOperator) :
    Takes l t { l with diagnostics := l.diagnostics ++ [diagnostic] }
  | board (f : FuncDef) (h : l.module.board? f.name = none) :
    Takes l (.func f) { l with
      module := { l.module with
        boards := l.module.boards ++ [(l.finished f).board]
        counter := (l.finished f).counter }
      diagnostics := l.diagnostics ++ (l.finished f).diagnostics }
  | global (d : Decl) (diagnostics : List Diagnostic) (h : l.module.global? d.name = none)
    (hinit : diagnostics = [] ↔ d.init = none)
    (hkinds : ∀ x ∈ diagnostics, x.kind ≠ .unsupportedOperator) :
    Takes l (.decl d) { l with
      module := { l.module with
        globals := l.module.globals ++ [l.globalOf d]
        counter := l.module.counter + 1 }
      diagnostics := l.diagnostics ++ diagnostics }

theorem topLevel_takes (l : Lowering) (t : TopLevel) : l.Takes t (l.topLevel t) := by
  cases t with
  | func f =>
    rw [topLevel]
    cases hboard : l.module.board? f.name with
    | some b =>
      rw [function_of_known l f b hboard]
      exact .refused _ (by rw [refuses, hboard]; rfl) (fun h => by cases h)
    | none =>
      rw [function_of_new l f hboard]
      exact .board f hboard
  | decl d =>
    rw [topLevel]
    cases hglobal : l.module.global? d.name with
    | some v =>
      rw [declaration_of_known l d v hglobal]
      exact .refused _ (by rw [refuses, hglobal]; rfl) (fun h => by cases h)
    | none =>
      rw [declaration_of_new l d hglobal]
      refine .global d _ hglobal ?_ ?_
      · cases d.init <;> simp
      · cases d.init <;> simp
  | unknown pos kind => exact .refused _ rfl (fun h => by cases h)

def Plain (l : Lowering) : Prop := ∀ v ∈ l.module.globals, v.temp = false

theorem Takes.plain {l m : Lowering} {t : TopLevel} (h : l.Takes t m) (hl : l.Plain) : m.Plain := by
  cases h with
  | refused diagnostic h => exact hl
  | board f h => exact hl
  | global d diagnostics h hinit =>
    intro v hv
    rcases List.mem_append.mp hv with hold | hnew
    · exact hl v hold
    · rw [List.mem_singleton.mp hnew]
      rfl

/-- What holds at the start and is kept by every declaration of some units holds of the module that
is lowered from them. -/
theorem units_induction_of_mem {P : Lowering → Prop} (name : String) (aliases : Kind.Aliases)
    (units : List SourceUnit) (hstart : P (start name aliases))
    (hstep : ∀ l, ∀ t ∈ units.flatMap SourceUnit.decls, P l → P (l.topLevel t)) :
    P (units.foldl unit (start name aliases)) := by
  have hdecls : ∀ (ts : List TopLevel) (l : Lowering),
      (∀ l, ∀ t ∈ ts, P l → P (l.topLevel t)) → P l → P (ts.foldl topLevel l) := by
    intro ts
    induction ts with
    | nil => exact fun l _ h => h
    | cons t ts ih =>
      intro l hts h
      exact ih _ (fun l u hu => hts l u (.tail _ hu)) (hts l t (.head _) h)
  have hunits : ∀ (us : List SourceUnit) (l : Lowering),
      (∀ l, ∀ t ∈ us.flatMap SourceUnit.decls, P l → P (l.topLevel t)) → P l →
      P (us.foldl unit l) := by
    intro us
    induction us with
    | nil => exact fun l _ h => h
    | cons u us ih =>
      intro l hus h
      rw [List.flatMap_cons] at hus
      refine ih _ (fun l t ht => hus l t (List.mem_append_right _ ht)) ?_
      exact hdecls u.decls l (fun l t ht => hus l t (List.mem_append_left _ ht)) h
  exact hunits units _ hstep hstart

theorem units_induction {P : Lowering → Prop} (name : String) (aliases : Kind.Aliases)
    (hstart : P (start name aliases)) (hstep : ∀ l t, P l → P (l.topLevel t))
    (units : List SourceUnit) : P (units.foldl unit (start name aliases)) :=
  units_induction_of_mem name aliases units hstart fun l t _ => hstep l t

theorem plain_start (name : String) (aliases : Kind.Aliases) : (start name aliases).Plain :=
  fun _ hv => nomatch hv

theorem plain_of_units (name : String) (aliases : Kind.Aliases) (units : List SourceUnit) :
    (units.foldl unit (start name aliases)).Plain :=
  units_induction (P := Plain) name aliases (plain_start name aliases)
    (fun l t h => (l.topLevel_takes t).plain h) units

/-- Every board of a module is the finished draft of a function in one of the units. -/
theorem exists_finished_of_mem {name : String} {aliases : Kind.Aliases} {units : List SourceUnit}
    {b : Board} (hb : b ∈ (units.foldl unit (start name aliases)).module.boards) :
    ∃ (l : Lowering) (f : FuncDef), l.Plain ∧ .func f ∈ units.flatMap SourceUnit.decls ∧
      b = (l.finished f).board := by
  have hall := units_induction_of_mem (P := fun l => l.Plain ∧ ∀ b ∈ l.module.boards,
      ∃ (k : Lowering) (f : FuncDef), k.Plain ∧ .func f ∈ units.flatMap SourceUnit.decls ∧
        b = (k.finished f).board) name aliases units
    ⟨plain_start name aliases, fun _ hb => nomatch hb⟩ ?_
  · exact hall.2 b hb
  · rintro l t ht ⟨hplain, hboards⟩
    have htakes := l.topLevel_takes t
    refine ⟨htakes.plain hplain, ?_⟩
    -- a declaration adds a board at most at the end, that of the function it is
    generalize l.topLevel t = m at htakes
    cases htakes with
    | refused diagnostic h => exact hboards
    | global d diagnostics h hinit => exact hboards
    | board f h =>
      intro b hb
      rcases List.mem_append.mp hb with hold | hnew
      · exact hboards b hold
      · exact ⟨l, f, hplain, ht, List.mem_singleton.mp hnew⟩

end Lowering

theorem Board.mem_declared_iff {board : Board} {v : Variable} :
    v ∈ board.declared ↔ .var v ∈ board.values ∧ v.temp = false := by
  simp only [declared, List.mem_filter, List.mem_filterMap, Bool.not_eq_true']
  constructor
  · rintro ⟨⟨value, hmem, hvalue⟩, htemp⟩
    cases value with
    | var w =>
      obtain rfl := Option.some.inj hvalue
      exact ⟨hmem, htemp⟩
    | const c => cases hvalue
    | unset => cases hvalue
  · rintro ⟨hmem, htemp⟩
    exact ⟨⟨_, hmem, rfl⟩, htemp⟩

def Context.Plain (ctx : Context) : Prop := ∀ v ∈ ctx.globals, v.temp = false

/-- A name refers to a variable of the board or of the module, and to no temporary. -/
theorem Context.Plain.resolved {ctx : Context} (hctx : ctx.Plain) {board : Board} {name : String}
    {v : Variable}
    (h : (board.local? name).or (ctx.globals.find? fun v => v.source = name) = some v) :
    (.var v ∈ board.values ∨ v ∈ ctx.globals) ∧ v.temp = false := by
  rcases Option.or_eq_some_iff.mp h with hlocal | ⟨-, hglobal⟩
  · obtain ⟨hmem, htemp⟩ := Board.mem_declared_iff.mp (List.mem_of_find?_eq_some hlocal)
    exact ⟨Or.inl hmem, htemp⟩
  · have hmem := List.mem_of_find?_eq_some hglobal
    exact ⟨Or.inr hmem, hctx v hmem⟩

theorem lowerParameters_slots (ctx : Context) (scope : String) (params : List Decl) :
    Keeps (fun d e => e.board.slots = d.board.slots) (lowerParameters ctx scope params) := by
  refine lowerParameters_keeps ?_ ?_ ?_ ?_ scope params
  · intro d
    rfl
  · intro a b c hab hbc
    exact hbc.trans hab
  · intro pos message d
    rfl
  · intro scope source kind flags d
    rw [Draft.after_declare?]
    split
    · rfl
    · rfl

namespace FuncDef

/-- The draft in which the lowering of a function comes to its body: the parameters are declared and
the two markers are written. -/
def opened (ctx : Context) (scope : String) (f : FuncDef) (d : Draft) : Draft :=
  ((d.after (lowerParameters ctx scope f.params)).after (Draft.emit ⟨.exit, []⟩)).after
    (Draft.emit ⟨.entry, []⟩)

theorem after_lower (ctx : Context) (scope : String) (f : FuncDef) (d : Draft) :
    d.after (f.lower ctx scope) =
      ((f.opened ctx scope d).after (Stmt.lowerAll ctx f.body)).after (Draft.emit (.jump 0)) := rfl

theorem opened_slots (ctx : Context) (scope : String) (f : FuncDef) (d : Draft)
    (hd : d.board.slots = []) :
    (f.opened ctx scope d).board.slots =
      [Slot.single 0 ⟨.exit, [1]⟩, Slot.single 1 ⟨.entry, [2]⟩] := by
  have hparams : (d.after (lowerParameters ctx scope f.params)).board.slots = [] :=
    (lowerParameters_slots ctx scope f.params d).trans hd
  rw [opened, Draft.after_emit, Draft.after_emit, Draft.slots_withSlots, Draft.slots_withSlots,
    hparams]
  rfl

theorem lower_slots (ctx : Context) (scope : String) (f : FuncDef) (d : Draft)
    (hd : d.board.slots = []) {code : List Slot}
    (hcode : ((f.opened ctx scope d).after (Stmt.lowerAll ctx f.body)).board.slots =
      (f.opened ctx scope d).board.slots ++ code) :
    (d.after (f.lower ctx scope)).board.slots =
      Slot.single 0 ⟨.exit, [1]⟩ :: Slot.single 1 ⟨.entry, [2]⟩ ::
        (code ++ [Slot.single (2 + code.length) (.jump 0)]) := by
  rw [after_lower, Draft.after_emit, Draft.slots_withSlots, Slot.push_branching _ _ rfl, hcode,
    opened_slots ctx scope f d hd, List.length_append]
  rfl

/-- The code of a function is an exit marker, an entry marker, a region and a jump to address 0. -/
theorem lower_region (ctx : Context) (scope : String) (f : FuncDef) (d : Draft)
    (hd : d.board.slots = []) :
    ∃ code, Region 2 (2 + code.length) code ∧
      (d.after (f.lower ctx scope)).board.slots =
        Slot.single 0 ⟨.exit, [1]⟩ :: Slot.single 1 ⟨.entry, [2]⟩ ::
          (code ++ [Slot.single (2 + code.length) (.jump 0)]) := by
  obtain ⟨code, hcode, hregion⟩ := Stmt.lowerAll_extends ctx f.body (f.opened ctx scope d)
  refine ⟨code, ?_, lower_slots ctx scope f d hd hcode⟩
  rwa [opened_slots ctx scope f d hd] at hregion

end FuncDef
end SlotBoard
