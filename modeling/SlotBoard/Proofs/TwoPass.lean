import SlotBoard.Proofs.Function
import SlotBoard.Proofs.Quiet

/-!
Lowering in one pass gives the layout of two. A body that is lowered without a report is laid out
from sizes alone: the patches of an `if` and a loop close each branch at the address where the layout
lets it continue, and no slot is patched twice or missed.
-/
namespace SlotBoard

/-- What a loop or an `if` does with its condition, if nothing is reported. -/
theorem withValue_quiet {ctx : Context} {d : Draft} {e : Expr} {step : Value → Emit Unit}
    (h : d.Quiet (withValue ctx e step)) (hstep : ∀ v, Keeps Draft.Grows (step v)) :
    d.Quiet (e.lower ctx).run ∧
      (d.after (e.lower ctx).run).Quiet (step (e.value (d.scope ctx))) ∧
      d.after (withValue ctx e step) =
        (d.after (e.lower ctx).run).after (step (e.value (d.scope ctx))) := by
  have hgrows := Draft.Grows.slotBlind ctx
  obtain ⟨he, hrest⟩ := h.bind (e.lower_grows ctx) fun answer => by
    cases answer with
    | ok v => exact hstep v
    | error fault => exact hgrows.refl
  obtain ⟨-, hemits⟩ := e.lower_emits d he
  rw [hemits.answer] at hrest
  refine ⟨he, hrest, ?_⟩
  rw [withValue, Draft.after_bind, hemits.answer]

mutual

def Stmt.Scoped (σ : Scope) : Stmt → Prop
  | .block _ items => Stmt.ScopedAll σ items
  | .decl d => (∀ v ∈ σ.locals, v.source ≠ d.name) ∧ ∀ e, d.init = some e → e.Scoped (σ.declare d)
  | .ret _ value => ∀ e, value = some e → e.Scoped σ
  | .ifThen _ cond thenBranch elseBranch =>
    cond.Scoped σ ∧ thenBranch.Scoped (σ.skip cond.draws) ∧
      Stmt.ScopedOption (thenBranch.past (σ.skip cond.draws)) elseBranch
  | .forLoop _ init cond next body =>
    let outer := Stmt.pastOption σ init
    let inner := outer.skip (cond.elim 0 Expr.draws)
    Stmt.ScopedOption σ init ∧ (∀ e, cond = some e → e.Scoped outer) ∧ body.Scoped inner ∧
      Stmt.ScopedOption (body.past inner) next
  | .switch _ subject body => subject.Scoped σ ∧ body.Scoped (σ.skip subject.draws)
  | .caseOf _ label stmts => label.Scoped σ ∧ Stmt.ScopedAll (σ.skip label.draws) stmts
  | .otherwise _ stmts => Stmt.ScopedAll σ stmts
  | .leave _ | .unknown .. | .empty _ => True
  | .expr _ x => x.Scoped σ
termination_by structural s => s

def Stmt.ScopedAll (σ : Scope) : List Stmt → Prop
  | [] => True
  | s :: ss => s.Scoped σ ∧ Stmt.ScopedAll (s.past σ) ss
termination_by structural ss => ss

def Stmt.ScopedOption (σ : Scope) : Option Stmt → Prop
  | none => True
  | some s => s.Scoped σ
termination_by structural s => s

end

/-- A step appends code to a draft and leaves a scope behind. -/
structure Draft.Lays (ctx : Context) (d : Draft) (step : Emit Unit) (code : List Slot)
    (σ : Scope) : Prop where
  slots : (d.after step).board.slots = d.board.slots ++ code
  scope : (d.after step).scope ctx = σ

/-- A statement does in a draft what the layout says, if it reports nothing. -/
def Stmt.Lays (ctx : Context) (s : Stmt) : Prop :=
  ∀ d : Draft, d.Quiet (s.lower ctx) → s.Scoped (d.scope ctx) ∧
    d.Lays ctx (s.lower ctx)
      (s.layout (d.scope ctx) d.board.slots.length (d.board.slots.length + s.size))
      (s.past (d.scope ctx))

def Stmt.LaysAll (ctx : Context) (ss : List Stmt) : Prop :=
  ∀ d : Draft, d.Quiet (Stmt.lowerAll ctx ss) → Stmt.ScopedAll (d.scope ctx) ss ∧
    d.Lays ctx (Stmt.lowerAll ctx ss)
      (Stmt.layoutAll (d.scope ctx) d.board.slots.length
        (d.board.slots.length + Stmt.sizeAll ss) ss)
      (Stmt.pastAll (d.scope ctx) ss)

def Stmt.LaysOption (ctx : Context) (s : Option Stmt) : Prop :=
  ∀ d : Draft, d.Quiet (Stmt.lowerOption ctx s) → Stmt.ScopedOption (d.scope ctx) s ∧
    d.Lays ctx (Stmt.lowerOption ctx s)
      (Stmt.layoutOption (d.scope ctx) d.board.slots.length
        (d.board.slots.length + Stmt.sizeOption s) s)
      (Stmt.pastOption (d.scope ctx) s)

namespace Draft

/-- A declaration of a new name adds one variable and no slot. -/
theorem declare_new (d : Draft) (ctx : Context) (scope : Option String) (source : String)
    (kind : Kind) (flags : Flags) (h : d.board.local? source = none) :
    (d.after (declare? ctx scope source kind flags)).board.slots = d.board.slots ∧
      (d.after (declare? ctx scope source kind flags)).scope ctx =
        (d.scope ctx).add (Variable.declared source d.board.name (scope.getD d.board.name) d.counter
          kind (flagged ctx flags)) := by
  rw [after_declare?, h]
  refine ⟨rfl, ?_⟩
  exact congrArg (Scope.mk ctx d.board.name · (d.counter + 1)) (d.board.declared_push_var _ rfl)

end Draft

namespace Stmt

variable {ctx : Context}

/-- The initialiser of a variable. -/
theorem withValue_assign {d : Draft} {e : Expr} {v : Variable}
    (h : d.Quiet (withValue ctx e fun value => Draft.emit ⟨.assign (.var v) value, []⟩)) :
    e.Scoped (d.scope ctx) ∧
      d.Lays ctx (withValue ctx e fun value => Draft.emit ⟨.assign (.var v) value, []⟩)
        (place d.board.slots.length (d.board.slots.length + (e.size + 1))
          (e.code (d.scope ctx) ++ [.assign (.var v) (e.value (d.scope ctx))]))
        ((d.scope ctx).skip e.draws) := by
  obtain ⟨he, -, hafter⟩ := withValue_quiet h fun v => (Draft.Grows.slotBlind ctx).emitItem _
  obtain ⟨hscoped, hemits⟩ := e.lower_emits d he
  have hassign : (d.after (e.lower ctx).run).Emits ctx
      (Draft.emit ⟨.assign (.var v) (e.value (d.scope ctx)), []⟩) ()
      [.assign (.var v) (e.value (d.scope ctx))] 0 := Draft.Emits.emit ctx _ rfl
  have hslots := Draft.Emits.slots_append hemits.slots hassign.slots
  rw [List.length_append, e.length_code] at hslots
  refine ⟨hscoped, ⟨hafter ▸ hslots, ?_⟩⟩
  rw [hafter, hassign.scope, hemits.scope]
  rfl

theorem Lays.decl (ctx : Context) (x : Decl) : (Stmt.decl x).Lays ctx := by
  intro d h
  have hgrows := Draft.Grows.slotBlind ctx
  have hanswer := d.answer_declare? ctx none x.name (.ofWords ctx.aliases x.type)
    { isVolatile := x.quals.contains "volatile" }
  have hnew := d.declare_new ctx none x.name (.ofWords ctx.aliases x.type)
    { isVolatile := x.quals.contains "volatile" }
  rw [Stmt.lower] at h ⊢
  unfold Decl.lower at h ⊢
  obtain ⟨-, hrest⟩ := h.bind (hgrows.declare _ _ _ _) fun v => by
    cases v with
    | none => exact hgrows.report _ _ _
    | some v =>
      dsimp only
      split
      · exact hgrows.refl
      · exact hgrows.withValue _ fun _ => hgrows.emitItem _
  rw [Stmt.layout, Stmt.past, Stmt.size, Stmt.Scoped]
  cases hlocal : d.board.local? x.name with
  | some v =>
    rw [hanswer, hlocal] at hrest
    exact absurd hrest Draft.Quiet.not_report
  | none =>
    have hfresh : ∀ v ∈ (d.scope ctx).locals, v.source ≠ x.name := by
      intro v hv
      simpa using List.find?_eq_none.mp hlocal v hv
    obtain ⟨hslots, hscope⟩ := hnew hlocal
    rw [hlocal] at hanswer
    rw [hanswer] at hrest
    generalize hstart : d.after (Draft.declare? ctx none x.name (.ofWords ctx.aliases x.type)
      { isVolatile := x.quals.contains "volatile" }) = start at hslots hscope hrest
    change start.scope ctx = (d.scope ctx).declare x at hscope
    cases hinit : x.init with
    | none =>
      refine ⟨⟨hfresh, (fun _ he => nomatch he)⟩, ⟨?_, ?_⟩⟩
      · rw [Draft.after_bind, hanswer, hstart, ← hslots]
        exact (List.append_nil _).symm
      · rw [Draft.after_bind, hanswer, hstart]
        exact hscope
    | some e =>
      rw [hinit] at hrest
      obtain ⟨hscoped, hlays⟩ := withValue_assign hrest
      rw [hscope] at hlays
      refine ⟨⟨hfresh, fun _ he => Option.some.inj he ▸ hscope ▸ hscoped⟩, ⟨?_, ?_⟩⟩
      · rw [Draft.after_bind, hanswer, hstart, ← hslots]
        exact hlays.slots
      · rw [Draft.after_bind, hanswer, hstart]
        exact hlays.scope

theorem Lays.ret (ctx : Context) (pos : Position) (value : Option Expr) :
    (Stmt.ret pos value).Lays ctx := by
  intro d h
  have hgrows := Draft.Grows.slotBlind ctx
  rw [Stmt.lower] at h ⊢
  cases value with
  | none => exact ⟨(fun _ he => nomatch he), ⟨rfl, rfl⟩⟩
  | some e =>
    obtain ⟨he, -, hafter⟩ := withValue_quiet h fun v => hgrows.emitItem _
    obtain ⟨hscoped, hemits⟩ := e.lower_emits d he
    refine ⟨fun _ hvalue => Option.some.inj hvalue ▸ hscoped, ⟨?_, ?_⟩⟩
    · rw [lowerReturn, hafter, Draft.after_emit, Draft.slots_withSlots, hemits.slots, e.length_code,
        List.length_append, length_place, e.length_code, Stmt.layout, List.append_assoc]
      rfl
    · rw [lowerReturn, hafter, Draft.after_emit, Draft.scope_withSlots, hemits.scope]
      rfl

end Stmt

namespace Headed

variable {ctx : Context} {d d₁ d₂ : Draft} {cond : Option Expr} {operation : Operation}

theorem grows_condition (h : Headed ctx d cond d₁ d₂ operation) : d.Grows d₁ := by
  cases h with
  | always => exact .refl d
  | @cond e v d₁ hv h₁ => exact h₁ ▸ e.lower_grows ctx d

theorem grows_head (h : Headed ctx d cond d₁ d₂ operation) : d₁.Grows d₂ := by
  cases h with
  | always => exact (Draft.Grows.slotBlind ctx).placeholder d
  | cond hv h₁ => exact (Draft.Grows.slotBlind ctx).emitItem _ d₁

/-- A head whose condition is lowered without a report. -/
theorem laid (h : Headed ctx d cond d₁ d₂ operation) (hquiet : d₁.diagnostics = d.diagnostics) :
    (∀ e, cond = some e → e.Scoped (d.scope ctx)) ∧
      d₁.board.slots = d.board.slots ++ place d.board.slots.length
        (d.board.slots.length + cond.elim 0 Expr.size) (cond.elim [] (·.code (d.scope ctx))) ∧
      d₂.scope ctx = (d.scope ctx).skip (cond.elim 0 Expr.draws) ∧
      ∀ head join, headSlot operation head join = loopHead (d.scope ctx) cond head join := by
  cases h with
  | always => exact ⟨(fun _ he => nomatch he), (List.append_nil _).symm, rfl, fun _ _ => rfl⟩
  | @cond e v d₁ hv h₁ =>
    subst h₁
    obtain ⟨hscoped, hemits⟩ := e.lower_emits d hquiet
    have hvalue : v = e.value (d.scope ctx) := Except.ok.inj (hv.symm.trans hemits.answer)
    have hslots := hemits.slots
    rw [e.length_code] at hslots
    refine ⟨fun _ he => Option.some.inj he ▸ hscoped, hslots, hemits.scope, fun head join => ?_⟩
    rw [hvalue]
    rfl

end Headed

namespace Stmt

variable {ctx : Context}

/-- The lowering of an `if` that reports nothing comes to both branches, and neither reports. -/
theorem ifThen_quiet {pos : Position} {cond : Expr} {thenBranch : Stmt} {elseBranch : Option Stmt}
    {d : Draft} (h : d.Quiet ((Stmt.ifThen pos cond thenBranch elseBranch).lower ctx)) :
    ∃ d₁ d₂ operation, Headed ctx d (some cond) d₁ d₂ operation ∧
      d₁.diagnostics = d.diagnostics ∧ d₂.Quiet (thenBranch.lower ctx) ∧
      (d₂.after (thenBranch.lower ctx)).Quiet (Stmt.lowerOption ctx elseBranch) := by
  unfold Draft.Quiet at h
  rcases headed_or_error ctx d (some cond) with ⟨d₁, d₂, operation, hhead⟩ | ⟨e, fault, he, hfault⟩
  · obtain ⟨ts, hts, -⟩ := thenBranch.lower_extends ctx d₂
    obtain ⟨es, hes, -⟩ := Stmt.lowerOption_extends ctx elseBranch (d₂.after (thenBranch.lower ctx))
    rw [Stmt.after_ifThen pos hhead rfl rfl hts hes rfl rfl] at h
    have hthen := thenBranch.lower_grows ctx d₂
    have helse := Stmt.lowerOption_grows ctx elseBranch (d₂.after (thenBranch.lower ctx))
    obtain ⟨hcond, h⟩ := hhead.grows_condition.quiet_parts
      (hhead.grows_head.trans (hthen.trans helse)) h
    obtain ⟨-, h⟩ := hhead.grows_head.quiet_parts (hthen.trans helse) h
    obtain ⟨hthen, helse⟩ := hthen.quiet_parts helse h
    exact ⟨d₁, d₂, operation, hhead, hcond, hthen, helse⟩
  · cases he
    rw [Stmt.after_ifThen_of_error hfault] at h
    have hanswer := (cond.lower_emits d h).2.answer
    rw [hfault] at hanswer
    exact absurd hanswer nofun

theorem Lays.ifThen {thenBranch : Stmt} {elseBranch : Option Stmt} (iht : thenBranch.Lays ctx)
    (ihe : Stmt.LaysOption ctx elseBranch) (pos : Position) (cond : Expr) :
    (Stmt.ifThen pos cond thenBranch elseBranch).Lays ctx := by
  intro d h
  obtain ⟨d₁, d₂, operation, hhead, hcond, hthen, helse⟩ := ifThen_quiet h
  obtain ⟨hscoped, hslots, hscope, hslot⟩ := hhead.laid hcond
  obtain ⟨hscopedThen, ht⟩ := iht d₂ hthen
  obtain ⟨hscopedElse, he⟩ := ihe _ helse
  have hhead₁ : d₁.board.slots.length = d.board.slots.length + cond.size := by
    rw [hslots, List.length_append, length_place, Expr.length_codeOption]
    rfl
  have hhead₂ : d₂.board.slots.length = d.board.slots.length + cond.size + 1 := by
    rw [hhead.length_slots, hhead₁]
  have helse₂ : (d₂.after (thenBranch.lower ctx)).board.slots.length =
      d.board.slots.length + cond.size + 1 + thenBranch.size := by
    rw [ht.slots, List.length_append, thenBranch.length_layout, hhead₂]
  rw [ht.scope, hscope, helse₂] at he
  rw [ht.scope, hscope] at hscopedElse
  rw [hscope] at hscopedThen ht
  rw [hhead₂] at ht
  have hend : d.board.slots.length + (Stmt.ifThen pos cond thenBranch elseBranch).size =
      d.board.slots.length + cond.size + 1 + thenBranch.size + Stmt.sizeOption elseBranch + 1 := by
    rw [Stmt.size]
    omega
  refine ⟨⟨hscoped cond rfl, hscopedThen, hscopedElse⟩, ⟨?_, ?_⟩⟩
  · rw [Stmt.after_ifThen pos hhead rfl rfl ht.slots he.slots hhead₁.symm rfl, Draft.slots_withSlots,
      hslot, thenBranch.length_layout, Stmt.length_layoutOption, thenBranch.closeLast_layout,
      Stmt.closeLast_layoutOption, hslots, List.append_assoc, hend]
    rfl
  · rw [Stmt.after_ifThen pos hhead rfl rfl ht.slots he.slots hhead₁.symm rfl, Draft.scope_withSlots,
      he.scope]
    rfl

/-- The lowering of a loop that reports nothing comes to all its parts, and none reports. -/
theorem forLoop_quiet {pos : Position} {init next : Option Stmt} {cond : Option Expr} {body : Stmt}
    {d d₀ : Draft} (h₀ : d.after (Stmt.lowerOption ctx init) = d₀)
    (h : d.Quiet ((Stmt.forLoop pos init cond next body).lower ctx)) :
    d.Quiet (Stmt.lowerOption ctx init) ∧ ∃ d₁ d₂ operation, Headed ctx d₀ cond d₁ d₂ operation ∧
      d₁.diagnostics = d₀.diagnostics ∧ d₂.Quiet (body.lower ctx) ∧
      (d₂.after (body.lower ctx)).Quiet (Stmt.lowerOption ctx next) := by
  have hinit : d.Grows d₀ := h₀ ▸ Stmt.lowerOption_grows ctx init d
  unfold Draft.Quiet at h ⊢
  rw [h₀]
  rcases headed_or_error ctx d₀ cond with ⟨d₁, d₂, operation, hhead⟩ | ⟨e, fault, rfl, hfault⟩
  · obtain ⟨bs, hbs, -⟩ := body.lower_extends ctx d₂
    obtain ⟨ns, hns, -⟩ := Stmt.lowerOption_extends ctx next (d₂.after (body.lower ctx))
    rw [Stmt.after_forLoop pos h₀ hhead rfl rfl hbs hns rfl rfl] at h
    have hbody := body.lower_grows ctx d₂
    have hnext := Stmt.lowerOption_grows ctx next (d₂.after (body.lower ctx))
    have hturn := hhead.grows_head.trans (hbody.trans hnext)
    obtain ⟨hinit, h⟩ := hinit.quiet_parts (hhead.grows_condition.trans hturn) h
    obtain ⟨hcond, h⟩ := hhead.grows_condition.quiet_parts hturn h
    obtain ⟨-, h⟩ := hhead.grows_head.quiet_parts (hbody.trans hnext) h
    obtain ⟨hbody, hnext⟩ := hbody.quiet_parts hnext h
    exact ⟨hinit, d₁, d₂, operation, hhead, hcond, hbody, hnext⟩
  · rw [Stmt.after_forLoop_of_error h₀ hfault] at h
    obtain ⟨-, h⟩ := hinit.quiet_parts (e.lower_grows ctx d₀) h
    have hanswer := (e.lower_emits d₀ h).2.answer
    rw [hfault] at hanswer
    exact absurd hanswer nofun

theorem Lays.forLoop {init next : Option Stmt} {body : Stmt} (ihi : Stmt.LaysOption ctx init)
    (ihn : Stmt.LaysOption ctx next) (ihb : body.Lays ctx) (pos : Position) (cond : Option Expr) :
    (Stmt.forLoop pos init cond next body).Lays ctx := by
  intro d h
  obtain ⟨hinit, d₁, d₂, operation, hhead, hcond, hbody, hnext⟩ := forLoop_quiet rfl h
  obtain ⟨hscopedInit, hi⟩ := ihi d hinit
  obtain ⟨hscoped, hslots, hscope, hslot⟩ := hhead.laid hcond
  obtain ⟨hscopedBody, hb⟩ := ihb d₂ hbody
  obtain ⟨hscopedNext, hn⟩ := ihn _ hnext
  have hcondition : (d.after (Stmt.lowerOption ctx init)).board.slots.length =
      d.board.slots.length + Stmt.sizeOption init := by
    rw [hi.slots, List.length_append, Stmt.length_layoutOption]
  have hhead₁ : d₁.board.slots.length =
      d.board.slots.length + Stmt.sizeOption init + cond.elim 0 Expr.size := by
    rw [hslots, List.length_append, length_place, Expr.length_codeOption, hcondition]
  have hhead₂ : d₂.board.slots.length =
      d.board.slots.length + Stmt.sizeOption init + cond.elim 0 Expr.size + 1 := by
    rw [hhead.length_slots, hhead₁]
  have hnext₂ : (d₂.after (body.lower ctx)).board.slots.length =
      d.board.slots.length + Stmt.sizeOption init + cond.elim 0 Expr.size + 1 + body.size := by
    rw [hb.slots, List.length_append, body.length_layout, hhead₂]
  rw [hb.scope, hscope, hi.scope] at hscopedNext
  rw [hb.scope, hscope, hi.scope, hnext₂] at hn
  rw [hscope, hi.scope] at hscopedBody
  rw [hscope, hi.scope, hhead₂] at hb
  rw [hi.scope] at hscoped hslots hslot
  rw [hcondition] at hslots
  have hend : d.board.slots.length + (Stmt.forLoop pos init cond next body).size =
      d.board.slots.length + Stmt.sizeOption init + cond.elim 0 Expr.size + 1 + body.size +
        Stmt.sizeOption next + (if body.size = 0 ∧ Stmt.sizeOption next = 0 then 1 else 0) + 1 := by
    rw [Stmt.size]
    omega
  refine ⟨⟨hscopedInit, hscoped, hscopedBody, hscopedNext⟩, ⟨?_, ?_⟩⟩
  · rw [Stmt.after_forLoop pos rfl hhead rfl rfl hb.slots hn.slots hhead₁.symm rfl,
      Draft.slots_withSlots, hcondition, loopBack_layout, hslot, hslots, hi.slots, hend]
    simp only [List.length_append, body.length_layout, Stmt.length_layoutOption, length_loopJump,
      Stmt.layout, List.append_assoc, Nat.add_assoc]
  · rw [Stmt.after_forLoop pos rfl hhead rfl rfl hb.slots hn.slots hhead₁.symm rfl,
      Draft.scope_withSlots, hn.scope]
    rfl

/-- Code behind the code of an expression that precedes it. -/
theorem lays_behind {d : Draft} {e : Expr} {step : Emit Unit} {code : List Slot} {σ : Scope}
    {n : Nat} (he : d.Emits ctx (e.lower ctx).run (.ok (e.value (d.scope ctx)))
      (e.code (d.scope ctx)) e.draws)
    (hstep : (d.after (e.lower ctx).run).Lays ctx step code σ) :
    ((d.after (e.lower ctx).run).after step).board.slots = d.board.slots ++
      (place d.board.slots.length (follow n (d.board.slots.length + e.size)
        (d.board.slots.length + (e.size + n))) (e.code (d.scope ctx)) ++ code) := by
  rw [hstep.slots, he.slots, e.length_code, List.append_assoc, ← Nat.add_assoc, follow_end]

mutual

/-- A statement that is lowered without a report is laid out. -/
theorem lower_lays (ctx : Context) : ∀ s : Stmt, s.Lays ctx
  | .block _ items => by
    intro d h
    rw [Stmt.lower] at h ⊢
    exact lowerAll_lays ctx items d h
  | .decl x => .decl ctx x
  | .ret pos value => .ret ctx pos value
  | .ifThen pos cond thenBranch elseBranch =>
    .ifThen (thenBranch.lower_lays ctx) (lowerOption_lays ctx elseBranch) pos cond
  | .forLoop pos init cond next body =>
    .forLoop (lowerOption_lays ctx init) (lowerOption_lays ctx next) (body.lower_lays ctx) pos cond
  | .switch _ subject body => by
    intro d h
    rw [Stmt.lower] at h ⊢
    obtain ⟨hx, hbody, hafter⟩ := withValue_quiet h fun _ => body.lower_grows ctx
    obtain ⟨hscoped, hemits⟩ := subject.lower_emits d hx
    obtain ⟨hscopedBody, hb⟩ := body.lower_lays ctx _ hbody
    rw [hemits.scope] at hscopedBody hb
    rw [hemits.size, subject.length_code, Nat.add_assoc] at hb
    refine ⟨⟨hscoped, hscopedBody⟩, ⟨?_, ?_⟩⟩
    · rw [hafter, lays_behind hemits hb]
      rfl
    · rw [hafter, hb.scope]
      rfl
  | .caseOf _ label stmts => by
    intro d h
    rw [Stmt.lower] at h ⊢
    obtain ⟨hx, hstmts⟩ := h.bind
      ((Draft.Grows.slotBlind ctx).withValue label fun _ => Draft.Grows.refl)
      fun _ => lowerAll_grows ctx stmts
    obtain ⟨hx, -, hafter⟩ := withValue_quiet hx fun _ => Draft.Grows.refl
    rw [Draft.after_pure] at hafter
    obtain ⟨hscoped, hemits⟩ := label.lower_emits d hx
    rw [hafter] at hstmts
    obtain ⟨hscopedAll, hb⟩ := lowerAll_lays ctx stmts _ hstmts
    rw [hemits.scope] at hscopedAll hb
    rw [hemits.size, label.length_code, Nat.add_assoc] at hb
    refine ⟨⟨hscoped, hscopedAll⟩, ⟨?_, ?_⟩⟩
    · rw [Draft.after_bind, hafter, lays_behind hemits hb]
      rfl
    · rw [Draft.after_bind, hafter, hb.scope]
      rfl
  | .otherwise _ stmts => by
    intro d h
    rw [Stmt.lower] at h ⊢
    exact lowerAll_lays ctx stmts d h
  | .leave pos => by
    intro d h
    rw [Stmt.lower] at h
    exact absurd h Draft.Quiet.not_report
  | .empty _ => by
    intro d h
    rw [Stmt.lower]
    exact ⟨trivial, ⟨rfl, rfl⟩⟩
  | .expr _ x => by
    intro d h
    rw [Stmt.lower] at h ⊢
    obtain ⟨hx, -, hafter⟩ := withValue_quiet h fun _ => Draft.Grows.refl
    obtain ⟨hscoped, hemits⟩ := x.lower_emits d hx
    refine ⟨hscoped, ⟨?_, ?_⟩⟩
    · rw [hafter, Draft.after_pure, hemits.slots, x.length_code]
      rfl
    · rw [hafter, Draft.after_pure, hemits.scope]
      rfl
  | .unknown pos kind => by
    intro d h
    rw [Stmt.lower] at h
    exact absurd h Draft.Quiet.not_report
termination_by structural s => s

theorem lowerAll_lays (ctx : Context) : ∀ ss : List Stmt, LaysAll ctx ss
  | [] => by
    intro d h
    rw [Stmt.lowerAll]
    exact ⟨trivial, ⟨(List.append_nil _).symm, rfl⟩⟩
  | s :: ss => by
    intro d h
    rw [Stmt.lowerAll] at h ⊢
    obtain ⟨hs, hss⟩ := h.bind (s.lower_grows ctx) fun _ => lowerAll_grows ctx ss
    obtain ⟨hscoped, hl⟩ := s.lower_lays ctx d hs
    obtain ⟨hscopedAll, hls⟩ := lowerAll_lays ctx ss _ hss
    have hsize : (d.after (s.lower ctx)).board.slots.length = d.board.slots.length + s.size := by
      rw [hl.slots, List.length_append, s.length_layout]
    rw [hl.scope] at hscopedAll hls
    rw [hsize] at hls
    refine ⟨⟨hscoped, hscopedAll⟩, ⟨?_, ?_⟩⟩
    · rw [Draft.after_bind, hls.slots, hl.slots, List.append_assoc, Stmt.layoutAll, Stmt.sizeAll,
        ← Nat.add_assoc, follow_end]
    · rw [Draft.after_bind]
      exact hls.scope
termination_by structural ss => ss

theorem lowerOption_lays (ctx : Context) : ∀ s : Option Stmt, LaysOption ctx s
  | none => by
    intro d h
    rw [Stmt.lowerOption]
    exact ⟨trivial, ⟨(List.append_nil _).symm, rfl⟩⟩
  | some s => by
    intro d h
    rw [Stmt.lowerOption] at h ⊢
    exact s.lower_lays ctx d h
termination_by structural s => s

end

end Stmt

theorem Draft.parameter_new (d : Draft) (ctx : Context) (module : String) (p : Decl)
    (hlocal : d.board.local? p.name = none) :
    (d.scope ctx).parameter module p =
      (d.scope ctx).add ((d.scope ctx).variableOf module { methodParam := true } p) := by
  refine if_neg ?_
  intro hany
  obtain ⟨v, hv, hsource⟩ := List.any_eq_true.mp hany
  exact absurd hsource (List.find?_eq_none.mp hlocal v hv)

theorem lowerParameters_scope (ctx : Context) (module : String) (params : List Decl) (d : Draft) :
    (d.after (lowerParameters ctx module params)).scope ctx =
      params.foldl (Scope.parameter module) (d.scope ctx) := by
  induction params generalizing d with
  | nil => rfl
  | cons p ps ih =>
    have hanswer := d.answer_declare? ctx (some module) p.name (.ofWords ctx.aliases p.type)
      { methodParam := true, isVolatile := p.quals.contains "volatile" }
    rw [lowerParameters, Draft.after_bind, hanswer, List.foldl_cons]
    cases hlocal : d.board.local? p.name with
    | some v =>
      have hknown : (d.scope ctx).locals.any (fun v => v.source = p.name) = true := by
        have hv := List.find?_some hlocal
        exact List.any_eq_true.mpr ⟨v, List.mem_of_find?_eq_some hlocal, hv⟩
      rw [Draft.after_declare?, hlocal, Scope.parameter, if_pos hknown]
      exact ih (d.after (Draft.report .redeclared p.pos ("parameter " ++ p.name)))
    | none =>
      obtain ⟨-, hscope⟩ := d.declare_new ctx (some module) p.name (.ofWords ctx.aliases p.type)
        { methodParam := true, isVolatile := p.quals.contains "volatile" } hlocal
      rw [d.parameter_new ctx module p hlocal]
      exact (ih _).trans (congrArg (fun σ => ps.foldl (Scope.parameter module) σ) hscope)

def Lowering.scopeOf (l : Lowering) (f : FuncDef) : Scope :=
  f.params.foldl (Scope.parameter l.module.name)
    { ctx := l.context f, owner := f.name, locals := [], counter := l.module.counter }

theorem Lowering.opened_scope (l : Lowering) (f : FuncDef) :
    (f.opened (l.context f) l.module.name (l.blank f)).scope (l.context f) = l.scopeOf f :=
  lowerParameters_scope (l.context f) l.module.name f.params (l.blank f)

/-- What the lowering of a function leaves, if its body is lowered without a report: the names in the
body are scoped, the slots are the layout, and the scope is the one past the body. -/
theorem Lowering.finished_layout (l : Lowering) (f : FuncDef)
    (hquiet : (f.opened (l.context f) l.module.name (l.blank f)).Quiet
      (Stmt.lowerAll (l.context f) f.body)) :
    Stmt.ScopedAll (l.scopeOf f) f.body ∧
      (l.finished f).board.slots = Slot.single 0 ⟨.exit, [1]⟩ :: Slot.single 1 ⟨.entry, [2]⟩ ::
        (Stmt.layoutAll (l.scopeOf f) 2 (2 + Stmt.sizeAll f.body) f.body ++
          [Slot.single (2 + Stmt.sizeAll f.body) (.jump 0)]) ∧
      (l.finished f).scope (l.context f) = Stmt.pastAll (l.scopeOf f) f.body := by
  obtain ⟨hscoped, hlays⟩ := Stmt.lowerAll_lays (l.context f) f.body _ hquiet
  have hslots := f.lower_slots (l.context f) l.module.name (l.blank f) rfl hlays.slots
  have hscope := hlays.scope
  rw [Stmt.length_layoutAll, l.opened_scope f, f.opened_slots _ _ _ rfl] at hslots
  rw [l.opened_scope f] at hscoped hscope
  exact ⟨hscoped, hslots, hscope⟩

/-- The board of a function whose body is lowered without a report: the markers, the layout of the
body from address 2 on and a jump to address 0. -/
theorem function_board_is_layout (l : Lowering) (f : FuncDef)
    (hnew : l.module.board? f.name = none)
    (hquiet : (f.opened (l.context f) l.module.name (l.blank f)).Quiet
      (Stmt.lowerAll (l.context f) f.body)) :
    ∃ board : Board, (l.function f).module.boards = l.module.boards ++ [board] ∧
      board.slots = Slot.single 0 ⟨.exit, [1]⟩ :: Slot.single 1 ⟨.entry, [2]⟩ ::
        (Stmt.layoutAll (l.scopeOf f) 2 (2 + Stmt.sizeAll f.body) f.body ++
          [Slot.single (2 + Stmt.sizeAll f.body) (.jump 0)]) := by
  obtain ⟨-, hslots, -⟩ := l.finished_layout f hquiet
  refine ⟨(l.finished f).board, ?_, hslots⟩
  rw [l.function_of_new f hnew]

/-- A function with a loop, a branch that returns and a `switch`. -/
def sampleFunction : FuncDef where
  pos := {}
  name := "f"
  returnType := ["int"]
  storage := []
  params := [⟨{}, "n", ["int"], [], [], none⟩]
  bodyPos := {}
  body :=
    [.decl ⟨{}, "s", ["int"], [], [], some (.literal {} "int" "0")⟩,
      .forLoop {} none (some (.binary {} "<" (.ident {} "s") (.ident {} "n")))
        (some (.expr {} (.unary {} "p++" (.ident {} "s"))))
        (.ifThen {} (.binary {} "==" (.ident {} "s") (.ident {} "n"))
          (.ret {} (some (.ident {} "s")))
          (some (.expr {} (.assign {} "+=" (.ident {} "s") (.call {} "f" [.ident {} "n"]))))),
      .switch {} (.ident {} "s") (.block {}
        [.caseOf {} (.literal {} "int" "1") [.expr {} (.assign {} "=" (.ident {} "s") (.ident {} "n"))],
          .otherwise {} [.empty {}]]),
      .ret {} (some (.ident {} "s"))]

theorem sampleFunction_board_is_layout :
    (Lowering.start "m" []).module.board? sampleFunction.name = none ∧
    (sampleFunction.opened ((Lowering.start "m" []).context sampleFunction) "m"
      ((Lowering.start "m" []).blank sampleFunction)).Quiet
        (Stmt.lowerAll ((Lowering.start "m" []).context sampleFunction) sampleFunction.body) ∧
    ∃ board : Board, ((Lowering.start "m" []).function sampleFunction).module.boards = [board] ∧
      board.slots = Slot.single 0 ⟨.exit, [1]⟩ :: Slot.single 1 ⟨.entry, [2]⟩ ::
        (Stmt.layoutAll ((Lowering.start "m" []).scopeOf sampleFunction) 2
          (2 + Stmt.sizeAll sampleFunction.body) sampleFunction.body ++
          [Slot.single (2 + Stmt.sizeAll sampleFunction.body) (.jump 0)]) := by
  have hquiet : (sampleFunction.opened ((Lowering.start "m" []).context sampleFunction) "m"
      ((Lowering.start "m" []).blank sampleFunction)).Quiet
        (Stmt.lowerAll ((Lowering.start "m" []).context sampleFunction) sampleFunction.body) := by
    decide +kernel
  exact ⟨rfl, hquiet, function_board_is_layout _ _ rfl hquiet⟩

end SlotBoard
