import SlotBoard.Proofs.Acceptance

/-!
Which programs are reported. A step of the lowering is decided by a test on the names that the function
has declared when the step starts, and by the names that the step declares; steps in a row are decided
by the tests in a row. Main statement: units are lowered without a diagnostic exactly if they are
acceptable.
-/
namespace SlotBoard

variable {α β : Type}

private theorem nodup_concat {names : List String} {name : String} (h : names.Nodup)
    (hname : name ∉ names) : (names ++ [name]).Nodup := by
  rw [List.nodup_append]
  refine ⟨h, by simp, fun a ha b hb hab => hname ?_⟩
  rwa [← List.mem_singleton.mp hb, ← hab]

private theorem filterMap_cons_append (f : α → Option β) (x : α) (xs : List α) :
    (x :: xs).filterMap f = (f x).toList ++ xs.filterMap f := by
  rw [List.filterMap_cons]
  cases f x <;> rfl

namespace Draft

theorem mem_localNames_iff {d : Draft} {name : String} :
    name ∈ d.localNames ↔ (d.board.local? name).isSome = true := by
  simp [localNames, Board.local?]

theorem declare_of_mem (d : Draft) (ctx : Context) (scope : Option String) {source : String}
    (kind : Kind) (flags : Flags) (h : source ∈ d.localNames) :
    d.after (declare? ctx scope source kind flags) = d ∧
      d.answer (declare? ctx scope source kind flags) = none := by
  obtain ⟨v, hv⟩ := Option.isSome_iff_exists.mp (mem_localNames_iff.mp h)
  rw [after_declare?, answer_declare?, hv]
  exact ⟨rfl, rfl⟩

theorem declare_of_not_mem (d : Draft) (ctx : Context) (scope : Option String) {source : String}
    (kind : Kind) (flags : Flags) (h : source ∉ d.localNames) :
    ∃ v, d.answer (declare? ctx scope source kind flags) = some v ∧
      d.Quiet (declare? ctx scope source kind flags) ∧
      (d.after (declare? ctx scope source kind flags)).localNames = d.localNames ++ [source] := by
  have hnone : d.board.local? source = none := by
    rwa [mem_localNames_iff, Bool.not_eq_true, Option.isSome_eq_false_iff, Option.isNone_iff_eq_none]
      at h
  refine ⟨_, by rw [answer_declare?, hnone], ?_, ?_⟩
  · unfold Quiet
    rw [after_declare?, hnone]
    rfl
  · have hscope := congrArg Scope.locals (d.declare_new ctx scope source kind flags hnone).2
    exact (congrArg (List.map Variable.source) hscope).trans List.map_append

end Draft

/-- A step reports nothing exactly if the names declared so far pass a test and the names it declares
are new and different. It then leaves those names declared. -/
structure Decides (step : Emit α) (p : List String → Bool) (introduced : List String) : Prop where
  grows : Keeps Draft.Grows step
  quiet_iff : ∀ d : Draft, d.localNames.Nodup →
    (d.Quiet step ↔ p d.localNames = true ∧ (d.localNames ++ introduced).Nodup)
  names : ∀ d : Draft, d.Quiet step → (d.after step).localNames = d.localNames ++ introduced

abbrev Silent (step : Emit α) : Prop := Decides step (fun _ => true) []

namespace Decides

variable {x : Emit α} {f : α → Emit β} {p q : List String → Bool}
  {introduced introduced' : List String}

theorem congr (h : Decides x p introduced) (hpq : ∀ names, q names = p names)
    (hintroduced : introduced' = introduced) : Decides x q introduced' := by
  obtain rfl : q = p := funext hpq
  exact hintroduced ▸ h

theorem silent (hgrows : Keeps Draft.Grows x) (hquiet : ∀ d : Draft, d.Quiet x)
    (hnames : ∀ d : Draft, (d.after x).localNames = d.localNames) : Silent x where
  grows := hgrows
  quiet_iff d hd := by
    rw [List.append_nil]
    exact iff_of_true (hquiet d) ⟨rfl, hd⟩
  names d _ := by rw [List.append_nil, hnames d]

theorem never (hgrows : Keeps Draft.Grows x) (hreport : ∀ d : Draft, ¬ d.Quiet x) :
    Decides x (fun _ => false) introduced where
  grows := hgrows
  quiet_iff d _ := iff_of_false (hreport d) fun h => Bool.false_ne_true h.1
  names d h := absurd h (hreport d)

theorem bind (hx : Decides x p introduced) (hf : ∀ a, Decides (f a) q introduced') :
    Decides (x >>= f) (fun names => p names && q (names ++ introduced))
      (introduced ++ introduced') where
  grows :=
    Keeps.bind (R := Draft.Grows) (fun _ _ _ => Draft.Grows.trans) hx.grows fun a => (hf a).grows
  quiet_iff d hd := by
    rw [Draft.quiet_bind_iff hx.grows fun a => (hf a).grows, Bool.and_eq_true, ← List.append_assoc]
    constructor
    · rintro ⟨hleft, hright⟩
      have hnodup := ((hx.quiet_iff d hd).mp hleft).2
      rw [← hx.names d hleft] at hnodup
      have hafter := ((hf _).quiet_iff _ hnodup).mp hright
      rw [hx.names d hleft] at hafter
      exact ⟨⟨((hx.quiet_iff d hd).mp hleft).1, hafter.1⟩, hafter.2⟩
    · rintro ⟨⟨hp, hq⟩, hnodup⟩
      -- the second step starts with the names that the first one has added
      have hnodup' := (List.nodup_append.mp hnodup).1
      have hleft := (hx.quiet_iff d hd).mpr ⟨hp, hnodup'⟩
      rw [← hx.names d hleft] at hq hnodup hnodup'
      exact ⟨hleft, ((hf _).quiet_iff _ hnodup').mpr ⟨hq, hnodup⟩⟩
  names d h := by
    obtain ⟨hleft, hright⟩ := h.bind hx.grows fun a => (hf a).grows
    rw [Draft.after_bind, (hf _).names _ hright, hx.names d hleft, List.append_assoc]

theorem after_silent (hx : Silent x) (hf : ∀ a, Decides (f a) p introduced) :
    Decides (x >>= f) p introduced :=
  (hx.bind hf).congr (fun names => by rw [List.append_nil, Bool.true_and]) rfl

theorem then_silent (hx : Decides x p introduced) (hf : ∀ a, Silent (f a)) :
    Decides (x >>= f) p introduced :=
  (hx.bind hf).congr (fun names => by rw [Bool.and_true]) (List.append_nil _).symm

theorem lastAppended {step : Emit Unit} (h : Decides step p introduced) :
    Decides (Draft.lastAppended step) p introduced :=
  ⟨h.grows, h.quiet_iff, h.names⟩

end Decides

namespace Silent

variable {x : Emit α}

/-- A step that writes slots and nothing else. -/
theorem of_slots (h : ∀ d : Draft, ∃ slots, d.after x = d.withSlots slots) : Silent x := by
  refine .silent (fun d => ?_) (fun d => ?_) fun d => ?_
  · obtain ⟨slots, hslots⟩ := h d
    rw [hslots]
    exact ⟨rfl, rfl, List.prefix_refl _, Nat.le_refl _, List.prefix_refl _⟩
  · obtain ⟨slots, hslots⟩ := h d
    unfold Draft.Quiet
    rw [hslots]
    rfl
  · obtain ⟨slots, hslots⟩ := h d
    rw [hslots]
    rfl

theorem pure (a : α) : Silent (Pure.pure a : Emit α) := of_slots fun d => ⟨d.board.slots, rfl⟩

theorem size : Silent Draft.size := of_slots fun d => ⟨d.board.slots, rfl⟩

theorem emit (item : Item) : Silent (Draft.emit item) := of_slots fun _ => ⟨_, rfl⟩

theorem placeholder : Silent Draft.placeholder := of_slots fun _ => ⟨_, rfl⟩

theorem setNext (position : Nat) (next : List Int) : Silent (Draft.setNext position next) :=
  of_slots fun _ => ⟨_, rfl⟩

theorem closeAt (slot : Option Nat) (target : Nat) : Silent (Draft.closeAt slot target) := by
  cases slot with
  | none => exact pure ()
  | some position => exact of_slots fun _ => ⟨_, rfl⟩

theorem closeLoop (tail : Option Nat) (condition : Nat) : Silent (closeLoop tail condition) := by
  cases tail with
  | none => exact emit _
  | some position => exact closeAt (some position) condition

end Silent

namespace Decides

variable {ctx : Context} {p : List String → Bool} {introduced : List String}

/-- A step on the value of an expression. -/
theorem withValue (hctx : ctx.Plain) (e : Expr) {step : Value → Emit Unit}
    (h : ∀ v, Decides (step v) p introduced) :
    Decides (withValue ctx e step)
      (fun names => e.acceptable (names ++ ctx.globalNames) && p names) introduced where
  grows := (Draft.Grows.slotBlind ctx).withValue e fun v => (h v).grows
  quiet_iff d hd := by
    rw [Bool.and_eq_true]
    constructor
    · intro hquiet
      obtain ⟨hexpr, hrest, -⟩ := withValue_quiet hquiet fun v => (h v).grows
      have hnames := e.localNames_after hexpr
      obtain ⟨hp, hnodup⟩ := ((h _).quiet_iff _ (hnames.symm ▸ hd)).mp hrest
      rw [hnames] at hp hnodup
      exact ⟨⟨(e.decided hctx d).mp hexpr, hp⟩, hnodup⟩
    · rintro ⟨⟨haccept, hp⟩, hnodup⟩
      have hexpr := (e.decided hctx d).mpr haccept
      have hnames := e.localNames_after hexpr
      rw [← hnames] at hd hp hnodup
      have hrest := ((h (e.value (d.scope ctx))).quiet_iff _ hd).mpr ⟨hp, hnodup⟩
      unfold Draft.Quiet at hrest ⊢
      rw [SlotBoard.withValue, Draft.after_bind, (e.lower_emits d hexpr).2.answer]
      exact hrest.trans hexpr
  names d hquiet := by
    obtain ⟨hexpr, hrest, hafter⟩ := withValue_quiet hquiet fun v => (h v).grows
    rw [hafter, (h _).names _ hrest, e.localNames_after hexpr]

/-- A declaration and what follows it, if a second declaration of a name is reported. -/
theorem declare (scope : Option String) (source : String) (kind : Kind) (flags : Flags)
    {f : Option Variable → Emit α} (hnew : ∀ v, Decides (f (some v)) p introduced)
    (hgrows : Keeps Draft.Grows (f none)) (hknown : ∀ d : Draft, ¬ d.Quiet (f none)) :
    Decides (Draft.declare? ctx scope source kind flags >>= f)
      (fun names => p (names ++ [source])) (source :: introduced) := by
  have hdeclare := (Draft.Grows.slotBlind ctx).declare scope source kind flags
  have hrest : ∀ v, Keeps Draft.Grows (f v) := by
    intro v
    cases v with
    | none => exact hgrows
    | some v => exact (hnew v).grows
  have hgrows := (Draft.Grows.slotBlind ctx).bind hdeclare hrest
  refine ⟨hgrows, fun d hd => ?_, fun d hquiet => ?_⟩
  · by_cases hsource : source ∈ d.localNames
    · obtain ⟨hafter, hanswer⟩ := d.declare_of_mem ctx scope kind flags hsource
      refine iff_of_false (fun h => ?_) fun h => ?_
      · rw [Draft.quiet_bind_iff hdeclare hrest, hafter, hanswer] at h
        exact hknown d h.2
      · exact (List.nodup_append.mp h.2).2.2 source hsource source List.mem_cons_self rfl
    · obtain ⟨v, hanswer, hquiet, hnames⟩ := d.declare_of_not_mem ctx scope kind flags hsource
      have hnodup : (d.localNames ++ [source]).Nodup := nodup_concat hd hsource
      rw [Draft.quiet_bind_iff hdeclare hrest, hanswer, and_iff_right hquiet,
        (hnew v).quiet_iff _ (hnames.symm ▸ hnodup), hnames, List.append_assoc]
      rfl
  · obtain ⟨-, hquiet⟩ := hquiet.bind hdeclare hrest
    by_cases hsource : source ∈ d.localNames
    · rw [(d.declare_of_mem ctx scope kind flags hsource).2] at hquiet
      exact absurd hquiet (hknown _)
    · obtain ⟨v, hanswer, -, hnames⟩ := d.declare_of_not_mem ctx scope kind flags hsource
      rw [hanswer] at hquiet
      rw [Draft.after_bind, hanswer, (hnew v).names _ hquiet, hnames, List.append_assoc]
      rfl

end Decides

theorem not_quiet_discard_report (d : Draft) (kind : DiagnosticKind) (pos : Position)
    (message : String) : ¬ d.Quiet (discard (Draft.report kind pos message)) :=
  fun h => Draft.Quiet.not_report (d := d) h

theorem Decides.report (kind : DiagnosticKind) (pos : Position) (message : String) :
    Decides (discard (Draft.report kind pos message)) (fun _ => false) [] :=
  .never (fun _ => ⟨rfl, rfl, List.prefix_refl _, Nat.le_refl _, List.prefix_append _ _⟩)
    fun d => not_quiet_discard_report d kind pos message

section Statements

variable {ctx : Context} {p q r : List String → Bool}
  {introduced introduced' introduced'' : List String}

/-- An expression whose value is written once. -/
theorem Decides.emitValue (hctx : ctx.Plain) (e : Expr) {step : Value → Emit Unit}
    (h : ∀ v, Silent (step v)) :
    Decides (SlotBoard.withValue ctx e step)
      (fun names => e.acceptable (names ++ ctx.globalNames)) [] :=
  (Decides.withValue hctx e h).congr (fun _ => (Bool.and_true _).symm) rfl

theorem Decl.decides (hctx : ctx.Plain) (x : Decl) :
    Decides (x.lower ctx)
      (fun names => x.init.all (·.acceptable (names ++ [x.name] ++ ctx.globalNames))) [x.name] := by
  have hreport := Decides.report .redeclared x.pos ("variable " ++ x.name)
  unfold Decl.lower
  refine .declare (p := fun names => x.init.all (·.acceptable (names ++ ctx.globalNames))) none
    x.name _ _ (fun v => ?_) ?_ ?_
  · dsimp only
    cases x.init with
    | none => exact Silent.pure ()
    | some e => exact .emitValue hctx e fun value => .emit _
  · exact hreport.grows
  · exact fun d => not_quiet_discard_report d _ _ _

theorem lowerReturn_decides (hctx : ctx.Plain) (value : Option Expr) :
    Decides (lowerReturn ctx value) (fun names => value.all (·.acceptable (names ++ ctx.globalNames)))
      [] := by
  cases value with
  | none => exact Silent.emit _
  | some e => exact .emitValue hctx e fun value => .emit _

theorem withHead_decides (hctx : ctx.Plain) (cond : Option Expr) {rest : Nat → Emit Unit}
    (h : ∀ head, Decides (rest head) p introduced) :
    Decides (withHead ctx cond rest)
      (fun names => cond.all (·.acceptable (names ++ ctx.globalNames)) && p names) introduced := by
  cases cond with
  | none => exact Decides.after_silent .size fun _ => .after_silent .placeholder fun _ => h _
  | some e =>
    exact .withValue hctx e fun v => .after_silent .size fun _ => .after_silent (.emit _) fun _ => h _

theorem ifThen_decides (hctx : ctx.Plain) (pos : Position) (cond : Expr) {thenBranch : Stmt}
    {elseBranch : Option Stmt} (ht : Decides (thenBranch.lower ctx) p introduced)
    (he : Decides (Stmt.lowerOption ctx elseBranch) q introduced') :
    Decides (Stmt.lower ctx (.ifThen pos cond thenBranch elseBranch))
      (fun names => cond.acceptable (names ++ ctx.globalNames) &&
        (p names && q (names ++ introduced))) (introduced ++ introduced') := by
  rw [Stmt.lower]
  refine .withValue hctx cond fun v => .after_silent .size fun head => ?_
  refine .after_silent (.emit _) fun _ => ?_
  refine ht.lastAppended.bind fun thenEnd => .after_silent .size fun elseStart => ?_
  refine he.lastAppended.then_silent fun elseEnd => ?_
  refine .after_silent (.setNext _ _) fun _ => .after_silent .size fun join => ?_
  exact .after_silent .placeholder fun _ => .after_silent (.closeAt _ _) fun _ => Silent.closeAt _ _

theorem forLoop_decides (hctx : ctx.Plain) (pos : Position) (cond : Option Expr)
    {init next : Option Stmt} {body : Stmt} (hi : Decides (Stmt.lowerOption ctx init) p introduced)
    (hb : Decides (body.lower ctx) q introduced')
    (hn : Decides (Stmt.lowerOption ctx next) r introduced'') :
    Decides (Stmt.lower ctx (.forLoop pos init cond next body))
      (fun names => p names &&
        (cond.all (·.acceptable (names ++ introduced ++ ctx.globalNames)) &&
          (q (names ++ introduced) && r (names ++ introduced ++ introduced'))))
      (introduced ++ (introduced' ++ introduced'')) := by
  rw [Stmt.lower]
  refine hi.bind fun _ => .after_silent .size fun condition => withHead_decides
    (p := fun names => q names && r (names ++ introduced')) hctx cond fun head => ?_
  refine hb.lastAppended.bind fun bodyEnd => hn.lastAppended.then_silent fun nextEnd => ?_
  refine .after_silent (.closeLoop _ _) fun _ => .after_silent .size fun join => ?_
  refine .after_silent .placeholder fun _ => ?_
  split
  · exact Silent.setNext _ _
  · exact Silent.pure ()

mutual

/-- A statement is lowered without a report exactly if it is acceptable and the names it declares are
new and different. -/
theorem Stmt.decides (hctx : ctx.Plain) : ∀ s : Stmt,
    Decides (s.lower ctx) (fun names => s.acceptable ctx.globalNames names) s.introduces
  | .block _ items => by
    rw [Stmt.lower]
    exact Stmt.decidesAll hctx items
  | .decl x => by
    rw [Stmt.lower]
    exact x.decides hctx
  | .ret _ value => by
    rw [Stmt.lower]
    exact lowerReturn_decides hctx value
  | .ifThen pos cond thenBranch elseBranch =>
    (ifThen_decides hctx pos cond (thenBranch.decides hctx) (Stmt.decidesOption hctx elseBranch)).congr
      (fun _ => Bool.and_assoc _ _ _) rfl
  | .forLoop pos init cond next body =>
    (forLoop_decides hctx pos cond (Stmt.decidesOption hctx init) (body.decides hctx)
      (Stmt.decidesOption hctx next)).congr
        (fun _ => by simp only [Stmt.acceptable, Bool.and_assoc]) (List.append_assoc _ _ _)
  | .switch _ subject body => by
    rw [Stmt.lower]
    exact .withValue hctx subject fun _ => body.decides hctx
  | .caseOf _ label stmts => by
    rw [Stmt.lower]
    refine ((Decides.emitValue hctx label fun _ => .pure ()).bind fun _ =>
      Stmt.decidesAll hctx stmts).congr (fun names => ?_) rfl
    rw [List.append_nil]
    rfl
  | .otherwise _ stmts => by
    rw [Stmt.lower]
    exact Stmt.decidesAll hctx stmts
  | .leave pos => by
    rw [Stmt.lower]
    exact .report _ _ _
  | .empty _ => by
    rw [Stmt.lower]
    exact Silent.placeholder
  | .expr _ x => by
    rw [Stmt.lower]
    exact .emitValue hctx x fun _ => .pure ()
  | .unknown pos kind => by
    rw [Stmt.lower]
    exact .report _ _ _
termination_by structural s => s

theorem Stmt.decidesAll (hctx : ctx.Plain) : ∀ ss : List Stmt,
    Decides (Stmt.lowerAll ctx ss) (fun names => Stmt.acceptableAll ctx.globalNames names ss)
      (Stmt.introducesAll ss)
  | [] => by
    rw [Stmt.lowerAll]
    exact Silent.pure ()
  | s :: ss => by
    rw [Stmt.lowerAll]
    exact (s.decides hctx).bind fun _ => Stmt.decidesAll hctx ss
termination_by structural ss => ss

theorem Stmt.decidesOption (hctx : ctx.Plain) : ∀ s : Option Stmt,
    Decides (Stmt.lowerOption ctx s) (fun names => Stmt.acceptableOption ctx.globalNames names s)
      (Stmt.introducesOption s)
  | none => by
    rw [Stmt.lowerOption]
    exact Silent.pure ()
  | some s => by
    rw [Stmt.lowerOption]
    exact s.decides hctx
termination_by structural s => s

end

theorem lowerParameters_decides (ctx : Context) (scope : String) (params : List Decl) :
    Decides (lowerParameters ctx scope params) (fun _ => true) (params.map Decl.name) := by
  induction params with
  | nil => exact Silent.pure ()
  | cons x xs ih =>
    have hreport := Decides.report .redeclared x.pos ("parameter " ++ x.name)
    refine .declare (p := fun _ => true) (some scope) x.name _ _ (fun v => ih) ?_ fun d h => ?_
    · exact Keeps.bind (R := Draft.Grows) (fun _ _ _ => Draft.Grows.trans) hreport.grows
        fun _ => ih.grows
    · exact not_quiet_discard_report d _ _ _ (h.bind hreport.grows fun _ => ih.grows).1

/-- A function is lowered without a report exactly if it is acceptable. -/
theorem FuncDef.quiet_iff (hctx : ctx.Plain) (scope : String) (f : FuncDef) (d : Draft)
    (hd : d.localNames = []) :
    d.Quiet (f.lower ctx scope) ↔ f.acceptable ctx.globalNames = true := by
  have hlower := (lowerParameters_decides ctx scope f.params).bind fun _ =>
    .after_silent (.emit ⟨.exit, []⟩) fun _ => .after_silent (.emit ⟨.entry, []⟩) fun _ =>
      (Stmt.decidesAll hctx f.body).then_silent fun _ => .emit (.jump 0)
  refine (hlower.quiet_iff d (hd ▸ List.nodup_nil)).trans ?_
  rw [hd, FuncDef.acceptable, Bool.true_and, Bool.and_eq_true, decide_eq_true_iff, and_comm]
  rfl

end Statements

namespace Lowering

def globalNames (l : Lowering) : List String := l.module.globals.map Variable.source

def boardNames (l : Lowering) : List String := l.module.boards.map Board.name

theorem mem_globalNames_iff {l : Lowering} {name : String} :
    name ∈ l.globalNames ↔ (l.module.global? name).isSome = true := by
  simp [globalNames, Module.global?]

theorem mem_boardNames_iff {l : Lowering} {name : String} :
    name ∈ l.boardNames ↔ (l.module.board? name).isSome = true := by
  simp [boardNames, Module.board?]

/-- The variables of the module are those that a program declares, and no name is declared twice. -/
structure Distinct (l : Lowering) : Prop where
  plain : l.Plain
  globals : l.globalNames.Nodup
  boards : l.boardNames.Nodup

/-- A declaration that can be taken in: it is acceptable, and its name is new. -/
structure Admits (l : Lowering) (t : TopLevel) : Prop where
  acceptable : t.acceptable l.globalNames = true
  globals : (l.globalNames ++ t.globalName?.toList).Nodup
  boards : (l.boardNames ++ t.functionName?.toList).Nodup

theorem finished_quiet_iff {l : Lowering} (h : l.Plain) (f : FuncDef) :
    (l.finished f).diagnostics = [] ↔ f.acceptable l.globalNames = true := by
  have hctx : (l.context f).Plain := h
  exact f.quiet_iff hctx l.module.name (l.blank f) rfl

theorem not_admits_of_refuses {l : Lowering} {t : TopLevel} (h : l.refuses t = true) :
    ¬ l.Admits t := by
  intro hadmits
  cases t with
  | func f =>
    have hmem : f.name ∈ l.boardNames := mem_boardNames_iff.mpr h
    exact (List.nodup_append.mp hadmits.boards).2.2 _ hmem _ List.mem_cons_self rfl
  | decl d =>
    have hmem : d.name ∈ l.globalNames := mem_globalNames_iff.mpr h
    exact (List.nodup_append.mp hadmits.globals).2.2 _ hmem _ List.mem_cons_self rfl
  | unknown pos kind => cases hadmits.acceptable

namespace Takes

variable {l m : Lowering} {t : TopLevel}

theorem diagnostics (h : l.Takes t m) : l.diagnostics <+: m.diagnostics := by
  cases h with
  | refused diagnostic h => exact List.prefix_append _ _
  | board f h => exact List.prefix_append _ _
  | global d diagnostics h hinit => exact List.prefix_append _ _

/-- A declaration adds no diagnostic exactly if the module admits it. -/
theorem quiet_iff (h : l.Takes t m) (hl : l.Distinct) :
    m.diagnostics = l.diagnostics ↔ l.Admits t := by
  cases h with
  | refused diagnostic h => exact iff_of_false (by simp) (not_admits_of_refuses h)
  | board f h =>
    rw [List.append_right_eq_self, finished_quiet_iff hl.plain]
    constructor
    · intro haccept
      refine ⟨haccept, (List.append_nil _).symm ▸ hl.globals, nodup_concat hl.boards ?_⟩
      rw [mem_boardNames_iff, h]
      exact Bool.false_ne_true
    · intro hadmits
      exact hadmits.acceptable
  | global d diagnostics h hinit =>
    rw [List.append_right_eq_self, hinit, ← Option.isNone_iff_eq_none]
    constructor
    · intro haccept
      refine ⟨haccept, nodup_concat hl.globals ?_, (List.append_nil _).symm ▸ hl.boards⟩
      rw [mem_globalNames_iff, h]
      exact Bool.false_ne_true
    · intro hadmits
      exact hadmits.acceptable

/-- A declaration that adds no diagnostic adds its name. -/
theorem names (h : l.Takes t m) (hquiet : m.diagnostics = l.diagnostics) :
    m.globalNames = l.globalNames ++ t.globalName?.toList ∧
      m.boardNames = l.boardNames ++ t.functionName?.toList := by
  cases h with
  | refused diagnostic h => simp at hquiet
  | board f h =>
    refine ⟨(List.append_nil _).symm, ?_⟩
    rw [boardNames, List.map_append, List.map_singleton, finished_name]
    rfl
  | global d diagnostics h hinit =>
    refine ⟨?_, (List.append_nil _).symm⟩
    rw [globalNames, List.map_append]
    rfl

theorem distinct (h : l.Takes t m) (hl : l.Distinct) (hquiet : m.diagnostics = l.diagnostics) :
    m.Distinct := by
  have hadmits := (h.quiet_iff hl).mp hquiet
  obtain ⟨hglobals, hboards⟩ := h.names hquiet
  exact ⟨h.plain hl.plain, hglobals.symm ▸ hadmits.globals, hboards.symm ▸ hadmits.boards⟩

end Takes

theorem diagnostics_foldl (ts : List TopLevel) (l : Lowering) :
    l.diagnostics <+: (ts.foldl topLevel l).diagnostics := by
  induction ts generalizing l with
  | nil => exact List.prefix_refl _
  | cons t ts ih => exact (l.topLevel_takes t).diagnostics.trans (ih _)

/-- Declarations in a row add no diagnostic exactly if no name is declared twice and each one is
acceptable after those before it. -/
theorem foldl_quiet_iff (ts : List TopLevel) (l : Lowering) (hl : l.Distinct) :
    (ts.foldl topLevel l).diagnostics = l.diagnostics ↔
      (l.globalNames ++ ts.filterMap TopLevel.globalName?).Nodup ∧
        (l.boardNames ++ ts.filterMap TopLevel.functionName?).Nodup ∧
        TopLevel.acceptableAll l.globalNames ts = true := by
  induction ts generalizing l with
  | nil =>
    refine iff_of_true rfl ⟨?_, ?_, rfl⟩
    · exact (List.append_nil _).symm ▸ hl.globals
    · exact (List.append_nil _).symm ▸ hl.boards
  | cons t ts ih =>
    have htakes := l.topLevel_takes t
    rw [List.foldl_cons, filterMap_cons_append, filterMap_cons_append, ← List.append_assoc,
      ← List.append_assoc, TopLevel.acceptableAll, Bool.and_eq_true]
    constructor
    · intro h
      -- both parts only add diagnostics, so neither adds any
      have hle := (diagnostics_foldl ts (l.topLevel t)).length_le
      rw [h] at hle
      have hquiet := (htakes.diagnostics.eq_of_length_le hle).symm
      obtain ⟨hglobals, hboards⟩ := htakes.names hquiet
      have hrest := (ih _ (htakes.distinct hl hquiet)).mp (h.trans hquiet.symm)
      rw [hglobals, hboards] at hrest
      exact ⟨hrest.1, hrest.2.1, ((htakes.quiet_iff hl).mp hquiet).acceptable, hrest.2.2⟩
    · rintro ⟨hg, hb, haccept, hrest⟩
      have hquiet := (htakes.quiet_iff hl).mpr
        ⟨haccept, (List.nodup_append.mp hg).1, (List.nodup_append.mp hb).1⟩
      obtain ⟨hglobals, hboards⟩ := htakes.names hquiet
      rw [← hglobals] at hg hrest
      rw [← hboards] at hb
      exact ((ih _ (htakes.distinct hl hquiet)).mpr ⟨hg, hb, hrest⟩).trans hquiet

end Lowering

/-- Units are lowered into a module without a diagnostic exactly if they are acceptable. -/
theorem no_diagnostics_iff_acceptable (name : String) (aliases : Kind.Aliases)
    (units : List SourceUnit) :
    (units.foldl Lowering.unit (.start name aliases)).diagnostics = [] ↔
      SourceUnit.acceptableAll units = true := by
  have hfold : units.foldl Lowering.unit (.start name aliases) =
      (units.flatMap SourceUnit.decls).foldl Lowering.topLevel (.start name aliases) := by
    rw [List.foldl_flatMap]
    rfl
  have hstart : (Lowering.start name aliases).Distinct :=
    ⟨(fun _ hv => nomatch hv), List.nodup_nil, List.nodup_nil⟩
  rw [hfold, SourceUnit.acceptableAll]
  refine (Lowering.foldl_quiet_iff _ _ hstart).trans ?_
  simp only [Bool.and_eq_true, decide_eq_true_iff, and_assoc]
  rfl

example : SourceUnit.acceptableAll
    [⟨"a", [.decl ⟨{}, "n", ["int"], [], [], none⟩, .func sampleFunction]⟩,
      ⟨"b", [.func { sampleFunction with name := "g" }]⟩] = true := by
  decide +kernel

end SlotBoard
