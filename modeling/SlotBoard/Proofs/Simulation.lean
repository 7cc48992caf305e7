import SlotBoard.Proofs.Agreement

/-!
The machine follows the source. The code of a statement, wherever it stands on a board, takes the
machine from its first address to the address where it continues, if the statement runs to its end,
and stops with the same value if the statement returns. If the source reaches its limit, the machine
has not stopped within as many steps, because each turn of a loop takes a step at least.
-/
namespace SlotBoard

variable {V : Type} {I : Interpretation V} {b : Board} {τ : Scope}
variable {st : Valuation V} {μ μ' : Memory V}

/-- What the machine does from address `a` on for an outcome of the source, if the code continues at
`k`. -/
def Answers (I : Interpretation V) (b : Board) (τ : Scope) (limit a k : Nat) (μ : Memory V) :
    Option (Outcome (Valuation V) V) → Prop
  | some (.finished st) => ∃ j μ', b.Leads I j a μ k μ' ∧ τ.Agrees st μ'
  | some (.returned value st) =>
    ∃ j μ', b.run I j a μ = some (.returned value μ') ∧ τ.Agrees st μ'
  | none => b.run I limit a μ = none

namespace Answers

variable {limit a m k : Nat} {outcome : Option (Outcome (Valuation V) V)}

theorem finished (h : τ.Agrees st μ) : Answers I b τ limit k k μ (some (.finished st)) :=
  ⟨0, μ, .refl k μ, h⟩

/-- Steps may come first; they count for the limit. -/
theorem lead {j limit' : Nat} (h : Answers I b τ limit m k μ' outcome)
    (hlead : b.Leads I j a μ m μ') (hle : limit' ≤ limit + j) :
    Answers I b τ limit' a k μ outcome := by
  match outcome with
  | some (.finished st) =>
    obtain ⟨i, μ'', hrest, hagrees⟩ := h
    exact ⟨i + j, μ'', hlead.trans hrest, hagrees⟩
  | some (.returned value st) =>
    obtain ⟨i, μ'', hrest, hagrees⟩ := h
    exact ⟨i + j, μ'', (hlead i).trans hrest, hagrees⟩
  | none => exact Board.run_none_of_le hle ((hlead limit).trans h)

theorem sequel (h : Answers I b τ limit a m μ outcome)
    {rest : Valuation V → Option (Outcome (Valuation V) V)}
    (hrest : ∀ st μ, τ.Agrees st μ → Answers I b τ limit m k μ (rest st)) :
    Answers I b τ limit a k μ (SlotBoard.sequel outcome rest) := by
  match outcome with
  | some (.finished st) =>
    obtain ⟨j, μ', hlead, hagrees⟩ := h
    exact (hrest st μ' hagrees).lead hlead (Nat.le_add_right _ _)
  | some (.returned value st) => exact h
  | none => exact h

/-- Steps that keep the memory may come last. -/
theorem extend {j : Nat} (h : Answers I b τ limit a m μ outcome)
    (hlast : ∀ μ, b.Leads I j m μ k μ) : Answers I b τ limit a k μ outcome := by
  match outcome with
  | some (.finished st) =>
    obtain ⟨i, μ', hlead, hagrees⟩ := h
    exact ⟨j + i, μ', hlead.trans (hlast μ'), hagrees⟩
  | some (.returned value st) => exact h
  | none => exact h

/-- A loop, given how the machine decides at its head and what it does in a turn. The induction is on
the turns that are allowed; a turn takes a step at least, so the machine needs as many steps. -/
theorem iterate {head : Nat} {holds : Valuation V → Bool}
    {turn : Valuation V → Option (Outcome (Valuation V) V)}
    (hdecide : ∀ st μ, τ.Agrees st μ → ∃ j μ', 0 < j ∧ τ.Agrees st μ' ∧
      b.Leads I j head μ (if holds st then m else k) μ')
    (hturn : ∀ st μ, τ.Agrees st μ → Answers I b τ limit m head μ (turn st))
    {n : Nat} (hn : n ≤ limit) (hagrees : τ.Agrees st μ) :
    Answers I b τ n head k μ (SlotBoard.iterate holds turn n st) := by
  induction n generalizing st μ with
  | zero => rfl
  | succ n ih =>
    rw [SlotBoard.iterate]
    obtain ⟨j, μ', hj, hagrees', hlead⟩ := hdecide st μ hagrees
    cases hholds : holds st with
    | false =>
      rw [hholds] at hlead
      exact ⟨j, μ', hlead, hagrees'⟩
    | true =>
      rw [hholds] at hlead
      have hbody : Answers I b τ n m head μ' (turn st) :=
        (hturn st μ' hagrees').lead (.refl m μ') (by omega)
      have hrest := hbody.sequel fun st μ hagrees => ih (by omega) hagrees
      exact hrest.lead hlead (by omega)

end Answers

/-- The code of an expression takes the machine to where it continues and computes the value on the
way. -/
theorem Expr.leads {e : Expr} {σ : Scope} {a k : Nat} (hpure : e.isPure = true)
    (hscoped : e.Scoped σ) (hσ : σ.Sound) (hbefore : (σ.skip e.draws).Before τ) (hk : 0 < k)
    (hcode : b.Holds a (place a k (e.code σ))) (hagrees : τ.Agrees st μ) :
    ∃ μ', b.Leads I e.size (follow e.size a k) μ k μ' ∧ τ.Agrees st μ' ∧
      (e.value σ).read I μ' = e.eval I σ.env st := by
  have hearlier : σ.Agrees st μ := hagrees.earlier ((Scope.Before.skip σ _).trans hbefore)
  have hyields := e.code_yields (I := I) σ μ hpure hscoped hσ hearlier
  have hleads := Board.Leads.place (I := I) (e.code_computes σ) hk hcode μ
  rw [e.length_code] at hleads
  exact ⟨_, hleads, hagrees.frame hσ hbefore hyields.frame, hyields.read⟩

theorem follow_add (m n a k : Nat) : follow (m + n) a k = follow m a (follow n (a + m) k) := by
  unfold follow
  split
  · rw [if_pos (by omega), if_pos (by omega)]
  · by_cases hm : m = 0
    · rw [if_pos hm, if_neg (by omega), hm, Nat.add_zero]
    · rw [if_neg hm]

theorem Board.Leads.jump {a k : Nat} (hk : 0 < k)
    (hslot : b.slots[a]? = some (Slot.single a (.jump k))) (μ : Memory V) : b.Leads I 1 a μ k μ :=
  .of_step (Board.step_goesOn rfl hk hslot μ)

/-- The head of a loop takes the machine into the loop if the condition holds or there is none, else
to the join. -/
theorem loopHead_leads {cond : Option Expr} {σ : Scope} {a join : Nat}
    (hpure : cond.all Expr.isPure = true) (hscoped : ∀ e, cond = some e → e.Scoped σ) (hσ : σ.Sound)
    (hbefore : (σ.skip (cond.elim 0 Expr.draws)).Before τ) (ha : 0 < a)
    (hcode : b.Holds a (place a (a + cond.elim 0 Expr.size) (cond.elim [] (·.code σ))))
    (hslot : b.slots[a + cond.elim 0 Expr.size]? =
      some (loopHead σ cond (a + cond.elim 0 Expr.size) join)) (hagrees : τ.Agrees st μ) :
    ∃ j μ', 0 < j ∧ τ.Agrees st μ' ∧ b.Leads I j a μ
      (if cond.all fun e => I.holds (e.eval I σ.env st) then a + cond.elim 0 Expr.size + 1 else join)
      μ' := by
  cases cond with
  | none => exact ⟨1, μ, Nat.one_pos, hagrees, .jump (Nat.succ_pos _) hslot μ⟩
  | some e =>
    obtain ⟨μ', hleads, hagrees', hread⟩ := Expr.leads (I := I) hpure (hscoped e rfl) hσ hbefore
      (Nat.add_pos_left ha _) hcode hagrees
    have hjump := Board.step_jumpIfTrue (I := I) hslot μ'
    rw [hread] at hjump
    have hdecide := hleads.trans (.of_step hjump)
    simp only [Option.elim_some, follow_end] at hdecide
    exact ⟨_, μ', by omega, hagrees', hdecide⟩

/-- From the slot behind its head a loop goes to its body, to its update, or back at once if it has
neither. -/
theorem loopJump_leads {m n a condition : Nat} (hcondition : 0 < condition)
    (hcode : b.Holds (a + m + n) (loopJump (m + n) (a + m + n) condition)) :
    ∃ j, ∀ μ : Memory V,
      b.Leads I j a μ (follow m a (follow n (a + m) condition)) μ := by
  unfold follow
  by_cases hm : m = 0
  · by_cases hn : n = 0
    · subst hm hn
      exact ⟨1, fun μ => .jump hcondition hcode.head μ⟩
    · rw [if_pos hm, if_neg hn, hm]
      exact ⟨0, fun μ => .refl a μ⟩
  · rw [if_neg hm]
    exact ⟨0, fun μ => .refl a μ⟩

namespace Stmt

/-- The code of a statement, wherever it stands on the board, does what the statement does. -/
def Simulated (I : Interpretation V) (b : Board) (τ : Scope) (limit : Nat) (s : Stmt) : Prop :=
  ∀ (σ : Scope) (a k : Nat), s.isPlain = true → s.Scoped σ → σ.Sound → (s.past σ).Before τ →
    0 < a → 0 < k → b.Holds a (s.layout σ a k) → ∀ st μ, τ.Agrees st μ →
    Answers I b τ limit (follow s.size a k) k μ (s.exec I limit σ.env st)

def SimulatedAll (I : Interpretation V) (b : Board) (τ : Scope) (limit : Nat) (ss : List Stmt) :
    Prop :=
  ∀ (σ : Scope) (a k : Nat), Stmt.arePlain ss = true → Stmt.ScopedAll σ ss → σ.Sound →
    (Stmt.pastAll σ ss).Before τ → 0 < a → 0 < k → b.Holds a (Stmt.layoutAll σ a k ss) →
    ∀ st μ, τ.Agrees st μ →
    Answers I b τ limit (follow (Stmt.sizeAll ss) a k) k μ (Stmt.execAll I limit σ.env st ss)

def SimulatedOption (I : Interpretation V) (b : Board) (τ : Scope) (limit : Nat)
    (s : Option Stmt) : Prop :=
  ∀ (σ : Scope) (a k : Nat), Stmt.isPlainOption s = true → Stmt.ScopedOption σ s → σ.Sound →
    (Stmt.pastOption σ s).Before τ → 0 < a → 0 < k → b.Holds a (Stmt.layoutOption σ a k s) →
    ∀ st μ, τ.Agrees st μ →
    Answers I b τ limit (follow (Stmt.sizeOption s) a k) k μ (Stmt.execOption I limit σ.env st s)

namespace Simulated

variable {limit : Nat}

theorem decl (hτ : τ.Sound) (d : Decl) : (Stmt.decl d).Simulated I b τ limit := by
  intro σ a k hplain hscoped hσ hbefore ha hk hcode st μ hagrees
  obtain ⟨hnew, hinit⟩ := hscoped
  have hdeclared : (σ.declare d).Sound := hσ.add (σ.numbered_variableOf _ _ d) hnew
  rw [Stmt.past] at hbefore
  rw [Stmt.layout] at hcode
  rw [Stmt.size, Stmt.exec]
  rw [Stmt.isPlain] at hplain
  cases hvalue : d.init with
  | none => exact .finished hagrees
  | some e =>
    rw [hvalue] at hplain hbefore hcode
    have hearlier : (σ.declare d).Agrees st μ :=
      hagrees.earlier ((Scope.Before.skip _ _).trans hbefore)
    have hyields := e.code_yields (I := I) _ μ hplain (hinit e hvalue) hdeclared hearlier
    have hcomputes : ∀ operation ∈ e.code (σ.declare d) ++
        [.assign (.var (σ.variableOf σ.owner {} d)) (e.value (σ.declare d))],
        operation.computes = true := by
      intro operation hoperation
      rcases List.mem_append.mp hoperation with hoperation | hoperation
      · exact e.code_computes _ operation hoperation
      · rw [List.mem_singleton.mp hoperation]
        rfl
    have hleads := Board.Leads.place (I := I) hcomputes hk hcode μ
    rw [List.length_append, e.length_code] at hleads
    have hcell : ((σ.variableOf σ.owner {} d).name, .inFunction d.name) ∈ (σ.declare d).cells := by
      refine List.mem_append_right _ (List.mem_map.mpr ⟨σ.variableOf σ.owner {} d, ?_, rfl⟩)
      exact List.mem_append_right _ (List.mem_singleton_self _)
    have hstored := hagrees.assign hdeclared hτ hbefore hyields
      (hbefore.cells (σ := (σ.declare d).skip _) hcell)
    rw [σ.env_declare] at hstored
    exact ⟨_, _, hleads, hstored⟩

theorem ret (pos : Position) (value : Option Expr) :
    (Stmt.ret pos value).Simulated I b τ limit := by
  intro σ a k hplain hscoped hσ hbefore ha hk hcode st μ hagrees
  cases value with
  | none =>
    have hstop := Board.step_ret (I := I) hcode.head μ
    exact ⟨1, μ, Board.run_of_stops hstop 0, hagrees⟩
  | some e =>
    obtain ⟨μ', hleads, hagrees', hread⟩ := Expr.leads (I := I) hplain (hscoped e rfl) hσ hbefore
      (by omega) hcode.left hagrees
    rw [follow_end] at hleads
    have hslot := hcode.right
    rw [length_place, e.length_code] at hslot
    have hstop := Board.step_ret (I := I) hslot.head μ'
    rw [Option.map_some, hread] at hstop
    exact ⟨1 + e.size, μ', (hleads 1).trans (Board.run_of_stops hstop 0), hagrees'⟩

theorem empty (pos : Position) : (Stmt.empty pos).Simulated I b τ limit := by
  intro σ a k hplain hscoped hσ hbefore ha hk hcode st μ hagrees
  exact ⟨1, μ, .jump hk hcode.head μ, hagrees⟩

theorem expr (hτ : τ.Sound) (pos : Position) (e : Expr) :
    (Stmt.expr pos e).Simulated I b τ limit := by
  intro σ a k hplain hscoped hσ hbefore ha hk hcode st μ hagrees
  have hleads := Board.Leads.place (I := I) (e.code_computes σ) hk hcode μ
  rw [e.length_code] at hleads
  exact ⟨_, _, hleads, hagrees.action hσ hτ hplain hscoped hbefore⟩

theorem ifThen (pos : Position) (cond : Expr) {thenBranch : Stmt} {elseBranch : Option Stmt}
    (hthen : thenBranch.Simulated I b τ limit) (helse : SimulatedOption I b τ limit elseBranch) :
    (Stmt.ifThen pos cond thenBranch elseBranch).Simulated I b τ limit := by
  intro σ a k hplain hscoped hσ hbefore ha hk hcode st μ hagrees
  simp only [Stmt.isPlain, Bool.and_eq_true, Bool.or_eq_true, decide_eq_true_eq] at hplain
  obtain ⟨⟨⟨hcond, hthenPlain⟩, helsePlain⟩, hbalance⟩ := hplain
  obtain ⟨hcondScoped, hthenScoped, helseScoped⟩ := hscoped
  have hthenBefore := (Stmt.before_pastOption elseBranch _).trans hbefore
  have hthenSound := thenBranch.sound_past _ hthenScoped (hσ.skip cond.draws)
  -- the parts of the code and where they stand
  rw [Stmt.layout] at hcode
  have hhead := hcode.right
  rw [length_place, cond.length_code] at hhead
  have helseCode := hhead.tail.right
  rw [Stmt.length_layout] at helseCode
  have hjoin := helseCode.right
  rw [Stmt.length_layoutOption] at hjoin
  have hlast : ∀ μ, b.Leads I 1
      (a + cond.size + 1 + thenBranch.size + Stmt.sizeOption elseBranch) μ k μ :=
    fun μ => .jump hk hjoin.head μ
  obtain ⟨μ₁, hleads, hagrees₁, hread⟩ := Expr.leads (I := I) hcond hcondScoped hσ
    ((thenBranch.before_past _).trans hthenBefore) (by omega) hcode.left hagrees
  rw [follow_end] at hleads
  have hjump := Board.step_jumpIfTrue (I := I) hhead.head μ₁
  rw [hread] at hjump
  have hdecide := hleads.trans (.of_step hjump)
  have hstart : follow (Stmt.ifThen pos cond thenBranch elseBranch).size a k = a :=
    if_neg (Nat.succ_ne_zero _)
  rw [hstart, Stmt.exec]
  cases hholds : I.holds (cond.eval I σ.env st) with
  | true =>
    rw [hholds, if_pos rfl] at hdecide
    rw [if_pos rfl]
    have hbranch := hthen _ _ _ hthenPlain hthenScoped (hσ.skip _) hthenBefore (by omega) (by omega)
      hhead.tail.left st μ₁ hagrees₁
    have hentry : follow thenBranch.size (a + cond.size + 1)
        (a + cond.size + 1 + thenBranch.size + Stmt.sizeOption elseBranch) = a + cond.size + 1 := by
      unfold follow
      split <;> omega
    rw [hentry] at hbranch
    exact (hbranch.extend hlast).lead hdecide (Nat.le_add_right _ _)
  | false =>
    rw [hholds, if_neg (by simp)] at hdecide
    rw [if_neg (by simp)]
    have hbranch := helse _ _ _ helsePlain helseScoped hthenSound hbefore (by omega) (by omega)
      helseCode.left st μ₁ hagrees₁
    rw [follow_end, thenBranch.env_past _ hthenPlain, Scope.env_skip] at hbranch
    exact (hbranch.extend hlast).lead hdecide (Nat.le_add_right _ _)

theorem forLoop (pos : Position) (cond : Option Expr) {init next : Option Stmt} {body : Stmt}
    (hinit : SimulatedOption I b τ limit init) (hbody : body.Simulated I b τ limit)
    (hnext : SimulatedOption I b τ limit next) :
    (Stmt.forLoop pos init cond next body).Simulated I b τ limit := by
  intro σ a k hplain hscoped hσ hbefore ha hk hcode st μ hagrees
  simp only [Stmt.isPlain, Bool.and_eq_true] at hplain
  obtain ⟨⟨⟨hinitPlain, hcond⟩, hbodyPlain⟩, hnextPlain⟩ := hplain
  obtain ⟨hinitScoped, hcondScoped, hbodyScoped, hnextScoped⟩ := hscoped
  have houter := Stmt.sound_pastOption init σ hinitScoped hσ
  have hbodySound := body.sound_past _ hbodyScoped (houter.skip _)
  have hbodyBefore := (Stmt.before_pastOption next _).trans hbefore
  have hinnerBefore := (body.before_past _).trans hbodyBefore
  have henv := Stmt.env_pastOption init σ hinitPlain
  -- the parts of the code and where they stand
  rw [Stmt.layout] at hcode
  have hcondition := hcode.right
  rw [Stmt.length_layoutOption] at hcondition
  have hhead := hcondition.right
  rw [length_place, Expr.length_codeOption] at hhead
  have hnextCode := hhead.tail.right
  rw [Stmt.length_layout] at hnextCode
  have hback := hnextCode.right
  rw [Stmt.length_layoutOption] at hback
  have hjoin := hback.right
  rw [length_loopJump] at hjoin
  have hstart : follow (Stmt.forLoop pos init cond next body).size a k = a :=
    if_neg (Nat.succ_ne_zero _)
  have hfirst := hinit _ _ _ hinitPlain hinitScoped hσ
    ((Scope.Before.skip _ _).trans hinnerBefore) ha (by omega) hcode.left st μ hagrees
  rw [follow_end] at hfirst
  rw [hstart, Stmt.exec]
  refine hfirst.sequel fun st μ hagrees => ?_
  have hdecide := fun st μ (hagrees : τ.Agrees st μ) => loopHead_leads (I := I) hcond hcondScoped
    houter hinnerBefore (by omega) hcondition.left hhead.head hagrees
  obtain ⟨j, hturn⟩ := loopJump_leads (I := I) (by omega) hback.left
  rw [henv] at hdecide
  refine (Answers.iterate hdecide ?_ (Nat.le_refl limit) hagrees).extend
    fun μ => .jump hk hjoin.head μ
  intro st μ hagrees
  have hround := hbody _ _ _ hbodyPlain hbodyScoped (houter.skip _) hbodyBefore (by omega)
    (by unfold follow; split <;> omega) hhead.tail.left st μ hagrees
  have hupdate := hnext _ _ _ hnextPlain hnextScoped hbodySound hbefore (by omega) (by omega)
    hnextCode.left
  rw [Scope.env_skip, henv] at hround
  rw [body.env_past _ hbodyPlain, Scope.env_skip, henv] at hupdate
  exact (hround.sequel hupdate).lead (hturn μ) (Nat.le_add_right _ _)

end Simulated

mutual

theorem simulated (I : Interpretation V) (b : Board) (hτ : τ.Sound) (limit : Nat) :
    ∀ s : Stmt, s.Simulated I b τ limit
  | .block _ items => simulatedAll I b hτ limit items
  | .decl d => .decl hτ d
  | .ret pos value => .ret pos value
  | .ifThen pos cond thenBranch elseBranch =>
    .ifThen pos cond (simulated I b hτ limit thenBranch) (simulatedOption I b hτ limit elseBranch)
  | .forLoop pos init cond next body =>
    .forLoop pos cond (simulatedOption I b hτ limit init) (simulated I b hτ limit body)
      (simulatedOption I b hτ limit next)
  | .empty pos => .empty pos
  | .expr pos e => .expr hτ pos e
  | .switch .. | .caseOf .. | .otherwise .. | .leave _ | .unknown .. =>
    fun _ _ _ hplain => nomatch hplain
termination_by structural s => s

theorem simulatedAll (I : Interpretation V) (b : Board) (hτ : τ.Sound) (limit : Nat) :
    ∀ ss : List Stmt, SimulatedAll I b τ limit ss
  | [] => fun _ _ _ _ _ _ _ _ _ _ _ _ hagrees => .finished hagrees
  | s :: ss => by
    intro σ a k hplain hscoped hσ hbefore ha hk hcode st μ hagrees
    obtain ⟨hs, hss⟩ := Bool.and_eq_true_iff.mp hplain
    have hsBefore := (Stmt.before_pastAll ss _).trans hbefore
    rw [Stmt.layoutAll] at hcode
    have hrest := hcode.right
    rw [Stmt.length_layout] at hrest
    have hcontinue : 0 < follow (Stmt.sizeAll ss) (a + s.size) k := by
      unfold follow
      split <;> omega
    have hfirst := simulated I b hτ limit s σ _ _ hs hscoped.1 hσ hsBefore ha hcontinue hcode.left
      st μ hagrees
    rw [← follow_add] at hfirst
    rw [Stmt.execAll, Stmt.sizeAll, ← s.env_past σ hs]
    exact hfirst.sequel (simulatedAll I b hτ limit ss _ _ _ hss hscoped.2
      (s.sound_past σ hscoped.1 hσ) hbefore (by omega) hk hrest)
termination_by structural ss => ss

theorem simulatedOption (I : Interpretation V) (b : Board) (hτ : τ.Sound) (limit : Nat) :
    ∀ s : Option Stmt, SimulatedOption I b τ limit s
  | none => fun _ _ _ _ _ _ _ _ _ _ _ _ hagrees => .finished hagrees
  | some s => simulated I b hτ limit s
termination_by structural s => s

end
end Stmt

end SlotBoard
