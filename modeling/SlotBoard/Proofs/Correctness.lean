import SlotBoard.Proofs.Simulation

/-!
Lowering preserves meaning. The board of a function stops exactly if the source does, returns the
same value, and leaves the same in every variable of the module and of the function. The function
may stand anywhere in a module; what was lowered before it only matters through the variables and
signatures it left.
-/
namespace SlotBoard

variable {V : Type}

def Outcome.Same {S T : Type} (R : S → T → Prop) : Outcome S V → Outcome T V → Prop
  | finished s, finished t => R s t
  | returned x s, returned y t => x = y ∧ R s t
  | _, _ => False

def Module.Agrees (m : Module) (b : Board) (st : Valuation V) (μ : Memory V) : Prop :=
  (∀ v ∈ m.globals, μ v.name = st (.inModule v.source)) ∧
    ∀ v ∈ b.declared, μ v.name = st (.inFunction v.source)

namespace Scope

variable {σ : Scope} {st : Valuation V}

/-- Each store has a memory that agrees with it. -/
theorem Sound.exists_agrees (h : σ.Sound) (st : Valuation V) : ∃ μ, σ.Agrees st μ := by
  refine ⟨fun name => ((σ.cells.find? fun c => c.1 = name).elim (st (.inModule "")) (st ·.2)), ?_⟩
  intro c hc
  cases hfind : σ.cells.find? fun d => d.1 = c.1 with
  | none =>
    have hnot := List.find?_eq_none.mp hfind c hc
    simp at hnot
  | some d =>
    have hname : d.1 = c.1 := by simpa using List.find?_some hfind
    have heq : d = c :=
      List.inj_on_of_nodup_map h.names (List.mem_of_find?_eq_some hfind) hc hname
    simp only [hfind, Option.elim_some, heq]

theorem agrees_iff {m : Module} {b : Board} (hglobals : σ.ctx.globals = m.globals)
    (hlocals : σ.locals = b.declared) {μ : Memory V} : σ.Agrees st μ ↔ m.Agrees b st μ := by
  unfold Agrees Module.Agrees cells
  rw [hglobals, hlocals]
  simp only [List.forall_mem_append, List.forall_mem_map]

theorem Sound.parameter (h : σ.Sound) (module : String) (p : Decl) :
    (σ.parameter module p).Sound := by
  unfold Scope.parameter
  split
  · exact h
  · rename_i hnew
    refine h.add (σ.numbered_variableOf _ _ p) ?_
    intro w hw hsource
    exact hnew (List.any_eq_true.mpr ⟨w, hw, decide_eq_true hsource⟩)

end Scope

def Module.scope (m : Module) : Scope where
  ctx := { aliases := [], globals := m.globals, signatures := [], isPrivate := false }
  owner := ""
  locals := []
  counter := m.counter

namespace Lowering

theorem function_sound (l : Lowering) (f : FuncDef) (h : l.module.scope.Sound) :
    (l.function f).module.scope.Sound := by
  cases hboard : l.module.board? f.name with
  | some b =>
    rw [l.function_of_known f b hboard]
    exact h
  | none =>
    rw [l.function_of_new f hboard]
    exact h.later rfl (l.finished_grows f).counter

theorem declaration_sound (l : Lowering) (d : Decl) (h : l.module.scope.Sound) :
    (l.declaration d).module.scope.Sound := by
  unfold declaration Module.declareGlobal
  cases hglobal : l.module.global? d.name with
  | some v => exact h
  | none =>
    have hnew : ∀ c ∈ l.module.scope.cells, c.2 ≠ Place.inModule d.name := by
      intro c hc hplace
      rcases List.mem_append.mp hc with hc | hc
      · obtain ⟨w, hw, rfl⟩ := List.mem_map.mp hc
        have hother := List.find?_eq_none.mp hglobal w hw
        exact hother (by simpa using Place.inModule.inj hplace)
      · cases hc
    have hadd : ∀ v : Variable, v.name = stamp d.name l.module.name l.module.counter →
        v.source = d.name →
        ({ l.module with globals := l.module.globals ++ [v], counter := l.module.counter + 1 } :
          Module).scope.Sound := by
      intro v hname hsource
      refine h.extend ⟨d.name, l.module.name, rfl⟩ hnew ?_ rfl
      simp [Scope.cells, Module.scope, hname, hsource]
    dsimp only
    cases d.init with
    | none => exact hadd _ rfl rfl
    | some e => exact hadd _ rfl rfl

/-- In a module that is lowered from the start, no two variables share a name or a place, and their
numbers are drawn. -/
theorem sound_of_topLevels (name : String) (aliases : Kind.Aliases) (before : List TopLevel) :
    (before.foldl topLevel (.start name aliases)).module.scope.Sound := by
  have hrun : ∀ l : Lowering, l.module.scope.Sound → (before.foldl topLevel l).module.scope.Sound := by
    induction before with
    | nil => exact fun l h => h
    | cons t ts ih =>
      intro l h
      refine ih (l.topLevel t) ?_
      cases t with
      | func f => exact l.function_sound f h
      | decl d => exact l.declaration_sound d h
      | unknown pos kind => exact h
  refine hrun _ ⟨?_, List.nodup_nil, List.nodup_nil⟩
  intro c hc
  cases hc

theorem scopeOf_sound (l : Lowering) (f : FuncDef) (h : l.module.scope.Sound) :
    (l.scopeOf f).Sound := by
  have hparams : ∀ (params : List Decl) (σ : Scope), σ.Sound →
      (params.foldl (Scope.parameter l.module.name) σ).Sound := by
    intro params
    induction params with
    | nil => exact fun σ hσ => hσ
    | cons p ps ih => exact fun σ hσ => ih _ (hσ.parameter _ p)
  exact hparams f.params _ (h.later rfl (Nat.le_refl _))

end Lowering

/-- Parameters that are lowered without a report are all declared, in order. -/
theorem lowerParameters_env (ctx : Context) (module : String) (params : List Decl) (d : Draft)
    (h : d.Quiet (lowerParameters ctx module params)) :
    (params.foldl (Scope.parameter module) (d.scope ctx)).env =
      { (d.scope ctx).env with
        locals := (d.scope ctx).env.locals ++
          params.map fun p => (p.name, .ofWords ctx.aliases p.type) } := by
  induction params generalizing d with
  | nil => simp
  | cons p ps ih =>
    have hanswer := d.answer_declare? ctx (some module) p.name (.ofWords ctx.aliases p.type)
      { methodParam := true, isVolatile := p.quals.contains "volatile" }
    have hgrows := Draft.Grows.slotBlind ctx
    unfold Draft.Quiet at h
    rw [lowerParameters, Draft.after_bind, hanswer] at h
    cases hlocal : d.board.local? p.name with
    | some v =>
      rw [Draft.after_declare?, hlocal] at h
      have hreport := (hgrows.report .redeclared p.pos ("parameter " ++ p.name) d).quiet_parts
        (hgrows.parameters module ps _) h
      exact absurd hreport.1 Draft.Quiet.not_report
    | none =>
      rw [hlocal] at h
      obtain ⟨-, hquiet⟩ := (hgrows.declare _ _ _ _ d).quiet_parts (hgrows.parameters module ps _) h
      obtain ⟨-, hscope⟩ := d.declare_new ctx (some module) p.name (.ofWords ctx.aliases p.type)
        { methodParam := true, isVolatile := p.quals.contains "volatile" } hlocal
      have htail := ih _ hquiet
      rw [hscope] at htail
      rw [List.foldl_cons, d.parameter_new ctx module p hlocal]
      refine htail.trans ?_
      simp [Scope.env, Scope.add, Variable.declared]

/-- What the names in the body of a function stand for in the source, where the body starts. -/
def Lowering.envOf (l : Lowering) (f : FuncDef) : Env where
  aliases := l.aliases
  signatures := (l.context f).signatures
  globals := l.module.globals.map fun v => (v.source, v.kind)
  locals := f.params.map fun p => (p.name, .ofWords l.aliases p.type)

/-- A function that is lowered without a report: its parameters are declared and its body is laid
out. -/
theorem Lowering.quiet_function (l : Lowering) (f : FuncDef)
    (h : (l.finished f).diagnostics = []) :
    (l.blank f).Quiet (lowerParameters (l.context f) l.module.name f.params) ∧
      (f.opened (l.context f) l.module.name (l.blank f)).Quiet
        (Stmt.lowerAll (l.context f) f.body) := by
  have hgrows := Draft.Grows.slotBlind (l.context f)
  have hopened : ((l.blank f).after (lowerParameters (l.context f) l.module.name f.params)).Grows
      (f.opened (l.context f) l.module.name (l.blank f)) :=
    (hgrows.emitItem _ _).trans (hgrows.emitItem _ _)
  exact (hgrows.parameters l.module.name f.params (l.blank f)).quiet_parts
    (hopened.trans (Stmt.lowerAll_grows (l.context f) f.body _)) h

/-- Code that comes to a slot where the machine stops makes the machine stop as the source does. -/
theorem Answers.stops {I : Interpretation V} {b : Board} {τ : Scope} {limit a k : Nat}
    {μ : Memory V} {outcome : Outcome (Valuation V) V}
    (h : Answers I b τ limit a k μ (some outcome))
    (hend : ∀ μ : Memory V, b.step I k μ = .stops (.finished μ)) :
    ∃ n result, b.run I n a μ = some result ∧ outcome.Same τ.Agrees result := by
  cases outcome with
  | finished st =>
    obtain ⟨j, μ', hlead, hagrees⟩ := h
    exact ⟨1 + j, .finished μ', (hlead 1).trans (Board.run_of_stops (hend μ') 0), hagrees⟩
  | returned value st =>
    obtain ⟨j, μ', hrun, hagrees⟩ := h
    exact ⟨j, .returned value μ', hrun, rfl, hagrees⟩

/-- The machine on a board that consists of the markers, the layout of a body and the final jump. -/
theorem Board.layout_answers {I : Interpretation V} {b : Board} {σ : Scope} {body : List Stmt}
    (hslots : b.slots = Slot.single 0 ⟨.exit, [1]⟩ :: Slot.single 1 ⟨.entry, [2]⟩ ::
      (Stmt.layoutAll σ 2 (2 + Stmt.sizeAll body) body ++
        [Slot.single (2 + Stmt.sizeAll body) (.jump 0)]))
    (hplain : Stmt.arePlain body = true) (hscoped : Stmt.ScopedAll σ body) (hσ : σ.Sound)
    (limit : Nat) {st : Valuation V} {μ : Memory V} (hagrees : (Stmt.pastAll σ body).Agrees st μ) :
    Answers I b (Stmt.pastAll σ body) limit 1 (2 + Stmt.sizeAll body) μ
      (Stmt.execAll I limit σ.env st body) := by
  have hall : b.Holds 0 (Slot.single 0 ⟨.exit, [1]⟩ :: Slot.single 1 ⟨.entry, [2]⟩ ::
      (Stmt.layoutAll σ 2 (2 + Stmt.sizeAll body) body ++
        [Slot.single (2 + Stmt.sizeAll body) (.jump 0)])) := by
    intro j _
    rw [Nat.zero_add, hslots]
  have hbody := Stmt.simulatedAll I b (Stmt.sound_pastAll body σ hscoped hσ) limit body σ 2
    (2 + Stmt.sizeAll body) hplain hscoped hσ (.refl _) (by omega) (by omega) hall.tail.tail.left
    st μ hagrees
  rw [follow_end] at hbody
  have hentry : b.Leads I 1 1 μ 2 μ := .of_step (Board.step_entry hall.tail.head μ)
  exact hbody.lead hentry (Nat.le_add_right _ _)

theorem Board.layout_end {I : Interpretation V} {b : Board} {σ : Scope} {body : List Stmt}
    (hslots : b.slots = Slot.single 0 ⟨.exit, [1]⟩ :: Slot.single 1 ⟨.entry, [2]⟩ ::
      (Stmt.layoutAll σ 2 (2 + Stmt.sizeAll body) body ++
        [Slot.single (2 + Stmt.sizeAll body) (.jump 0)])) (μ : Memory V) :
    b.step I (2 + Stmt.sizeAll body) μ = .stops (.finished μ) := by
  have hlength : (Slot.single 0 ⟨.exit, [1]⟩ :: Slot.single 1 ⟨.entry, [2]⟩ ::
      Stmt.layoutAll σ 2 (2 + Stmt.sizeAll body) body).length = 2 + Stmt.sizeAll body := by
    rw [List.length_cons, List.length_cons, Stmt.length_layoutAll]
    omega
  rw [← hlength]
  refine Board.step_end ?_ μ
  rw [hlength, hslots]
  rfl

/-- The board of a function that is lowered without a report: its variables, and what the machine
does on it. -/
theorem Lowering.finished_answers (l : Lowering) (f : FuncDef) (I : Interpretation V)
    (hquiet : (l.finished f).diagnostics = []) (hplain : Stmt.arePlain f.body = true)
    (hsound : l.module.scope.Sound) :
    let τ := (l.finished f).scope (l.context f)
    τ.Sound ∧ τ.env = Stmt.declaresAll (l.envOf f) f.body ∧
      (∀ μ : Memory V,
        (l.finished f).board.step I (2 + Stmt.sizeAll f.body) μ = .stops (.finished μ)) ∧
      ∀ limit st μ, τ.Agrees st μ →
        Answers I (l.finished f).board τ limit 1 (2 + Stmt.sizeAll f.body) μ
          (Stmt.execAll I limit (l.envOf f) st f.body) := by
  intro τ
  obtain ⟨hparams, hbody⟩ := l.quiet_function f hquiet
  have henv : (l.scopeOf f).env = l.envOf f := lowerParameters_env _ _ _ _ hparams
  have hstart := l.scopeOf_sound f hsound
  obtain ⟨hscoped, hslots, hscope⟩ := l.finished_layout f hbody
  rw [show τ = _ from hscope, ← henv]
  refine ⟨Stmt.sound_pastAll f.body _ hscoped hstart, Stmt.env_pastAll f.body _ hplain,
    Board.layout_end hslots, ?_⟩
  intro limit st μ hagrees
  exact Board.layout_answers hslots hplain hscoped hstart limit hagrees

/-- Take a function that is lowered without a report after any other declarations, those of earlier
units included. Its body is structured code without a `switch`, in which assignments stand as
statements of their own and an `if` whose second branch has slots has slots in its first branch, too.
Then the board has the variables that the source declares; each store of the source has a memory that
agrees with it; and from agreeing states the machine, started at the entry marker, stops exactly if
the source does, in the same way, with the same value and with agreeing states. This holds whatever
operators, literals, conditions and calls mean. -/
theorem lowering_preserves_meaning (name : String) (aliases : Kind.Aliases)
    (before : List TopLevel) (f : FuncDef) (I : Interpretation V)
    (hquiet : ((before.foldl Lowering.topLevel (.start name aliases)).function f).diagnostics =
      (before.foldl Lowering.topLevel (.start name aliases)).diagnostics)
    (hplain : Stmt.arePlain f.body = true) :
    let l := before.foldl Lowering.topLevel (.start name aliases)
    let m := (l.function f).module
    ∃ board : Board, m.boards = l.module.boards ++ [board] ∧
      board.declared.map (fun v => (v.source, v.kind)) =
        (Stmt.declaresAll (l.envOf f) f.body).locals ∧
      ∀ st : Valuation V, (∃ μ, m.Agrees board st μ) ∧ ∀ μ, m.Agrees board st μ →
        (∀ limit outcome, Stmt.execAll I limit (l.envOf f) st f.body = some outcome →
          ∃ n result, board.run I n 1 μ = some result ∧ outcome.Same (m.Agrees board) result) ∧
        ∀ n result, board.run I n 1 μ = some result →
          ∃ limit outcome, Stmt.execAll I limit (l.envOf f) st f.body = some outcome ∧
            outcome.Same (m.Agrees board) result := by
  intro l m
  obtain ⟨hnew, hsilent⟩ := l.new_of_quiet f hquiet
  obtain ⟨hsound, henv, hend, hanswers⟩ := l.finished_answers f I hsilent hplain
    (Lowering.sound_of_topLevels name aliases before)
  have hmodule : m = { l.module with
      boards := l.module.boards ++ [(l.finished f).board], counter := (l.finished f).counter } :=
    congrArg Lowering.module (l.function_of_new f hnew)
  have hagrees : m.Agrees (l.finished f).board (V := V) =
      ((l.finished f).scope (l.context f)).Agrees := by
    funext st μ
    exact propext (Scope.agrees_iff (by rw [hmodule]; rfl) rfl).symm
  refine ⟨(l.finished f).board, by rw [hmodule], congrArg Env.locals henv, fun st => ⟨?_, ?_⟩⟩
  · rw [hagrees]
    exact hsound.exists_agrees st
  rw [hagrees]
  intro μ hμ
  have hforward : ∀ limit outcome, Stmt.execAll I limit (l.envOf f) st f.body = some outcome →
      ∃ n result, (l.finished f).board.run I n 1 μ = some result ∧
        outcome.Same ((l.finished f).scope (l.context f)).Agrees result := by
    intro limit outcome hexec
    have hanswer := hanswers limit st μ hμ
    rw [hexec] at hanswer
    exact hanswer.stops hend
  refine ⟨hforward, fun n result hrun => ?_⟩
  -- as many turns as the machine takes steps are enough for the source
  cases hexec : Stmt.execAll I n (l.envOf f) st f.body with
  | none =>
    have hanswer := hanswers n st μ hμ
    rw [hexec] at hanswer
    rw [show (l.finished f).board.run I n 1 μ = none from hanswer] at hrun
    cases hrun
  | some outcome =>
    obtain ⟨i, result', hrun', hsame⟩ := hforward n outcome hexec
    rw [Board.run_unique hrun hrun']
    exact ⟨n, outcome, hexec, hsame⟩

/-- Natural numbers with addition and comparisons, and calls that add one to their arguments. -/
def naturals : Interpretation Nat where
  operate opcode x y :=
    if opcode = .add then x + y else if opcode = .lessThan then (x.blt y).toNat
    else if opcode = .compEq then (x.beq y).toNat else 0
  literal _ text := text.toList.head?.elim 0 fun c => c.toNat - '0'.toNat
  holds x := Nat.blt 0 x
  call _ args := args.foldl Nat.add 1

def sampleModule : List TopLevel :=
  [.decl ⟨{}, "total", ["int"], [], [], none⟩, .func sampleFunction]

/-- A function that adds to a variable of the module in a loop, which it may leave early. -/
def addingFunction : FuncDef where
  pos := {}
  name := "adding"
  returnType := ["int"]
  storage := []
  params := [⟨{}, "n", ["int"], [], [], none⟩]
  bodyPos := {}
  body :=
    [.forLoop {} (some (.decl ⟨{}, "i", ["int"], [], [], some (.literal {} "int" "0")⟩))
        (some (.binary {} "<" (.ident {} "i") (.ident {} "n")))
        (some (.expr {} (.unary {} "p++" (.ident {} "i"))))
        (.block {} [.decl ⟨{}, "seen", ["int"], [], [], none⟩,
          .ifThen {} (.binary {} "==" (.ident {} "i") (.literal {} "int" "7"))
            (.ret {} (some (.ident {} "i")))
            (some (.expr {} (.assign {} "+=" (.ident {} "total") (.call {} "f" [.ident {} "i"]))))]),
      .empty {}, .ret {} (some (.ident {} "total"))]

theorem addingFunction_preserves_meaning :
    let l := sampleModule.foldl Lowering.topLevel (.start "m" [])
    let m := (l.function addingFunction).module
    let store : Valuation Nat := fun p => if p = .inFunction "n" then 3 else 0
    (l.function addingFunction).diagnostics = l.diagnostics ∧
    Stmt.arePlain addingFunction.body = true ∧
    (Stmt.execAll naturals 4 (l.envOf addingFunction) store addingFunction.body).isSome = true ∧
    ∃ board : Board, m.boards = l.module.boards ++ [board] ∧
      board.declared.map (fun v => (v.source, v.kind)) =
        (Stmt.declaresAll (l.envOf addingFunction) addingFunction.body).locals ∧
      ∀ st : Valuation Nat, (∃ μ, m.Agrees board st μ) ∧ ∀ μ, m.Agrees board st μ →
        (∀ limit outcome, Stmt.execAll naturals limit (l.envOf addingFunction) st
            addingFunction.body = some outcome →
          ∃ n result, board.run naturals n 1 μ = some result ∧
            outcome.Same (m.Agrees board) result) ∧
        ∀ n result, board.run naturals n 1 μ = some result →
          ∃ limit outcome, Stmt.execAll naturals limit (l.envOf addingFunction) st
            addingFunction.body = some outcome ∧ outcome.Same (m.Agrees board) result := by
  have hquiet : ((sampleModule.foldl Lowering.topLevel (.start "m" [])).function
      addingFunction).diagnostics =
        (sampleModule.foldl Lowering.topLevel (.start "m" [])).diagnostics := by decide +kernel
  have hplain : Stmt.arePlain addingFunction.body = true := by decide +kernel
  have hmeaning := lowering_preserves_meaning "m" [] sampleModule addingFunction naturals hquiet
    hplain
  exact ⟨hquiet, hplain, by decide +kernel, hmeaning⟩

end SlotBoard
