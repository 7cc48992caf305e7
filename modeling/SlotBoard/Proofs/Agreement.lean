import SlotBoard.Proofs.Names

/-!
Stores and memories that agree. A scope pairs the internal name of each of its variables with the
place of the variable in the source; a store and a memory agree if paired entries hold the same.
The code of an expression without assignments keeps the agreement and computes the expression's
value: it writes only temporaries, and these have numbers of their own.
-/
namespace SlotBoard

variable {V : Type} {I : Interpretation V} {st : Valuation V} {μ μ' : Memory V}

theorem lookup_kinds (vs : List Variable) (name : String) :
    (vs.map fun v => (v.source, v.kind)).lookup name =
      (vs.find? fun v => v.source = name).map (·.kind) := by
  induction vs with
  | nil => rfl
  | cons v vs ih =>
    rw [List.map_cons, List.find?_cons]
    by_cases hname : v.source = name
    · simp [hname]
    · have hne : (name == v.source) = false := by
        simpa using fun h => hname h.symm
      rw [List.lookup_cons, hne]
      simpa [hname] using ih

namespace Scope

variable {σ τ : Scope}

def env (σ : Scope) : Env where
  aliases := σ.ctx.aliases
  signatures := σ.ctx.signatures
  globals := σ.ctx.globals.map fun v => (v.source, v.kind)
  locals := σ.locals.map fun v => (v.source, v.kind)

@[simp] theorem env_skip (σ : Scope) (n : Nat) : (σ.skip n).env = σ.env := rfl

def cells (σ : Scope) : List (String × Place) :=
  σ.ctx.globals.map (fun v => (v.name, .inModule v.source)) ++
    σ.locals.map fun v => (v.name, .inFunction v.source)

/-- A variable is where the source has it and of the kind that the source gives it. -/
theorem resolve?_cell {name : String} {v : Variable} (h : σ.resolve? name = some v) :
    (v.name, σ.env.place name) ∈ σ.cells ∧ σ.env.kindOf name = v.kind := by
  have hlocals : σ.env.locals.lookup name =
      (σ.locals.find? fun v => v.source = name).map (·.kind) := lookup_kinds _ _
  have hglobals : σ.env.globals.lookup name =
      (σ.ctx.globals.find? fun v => v.source = name).map (·.kind) := lookup_kinds _ _
  unfold resolve? at h
  unfold Env.place Env.kindOf
  rw [hlocals, hglobals]
  cases hlocal : σ.locals.find? fun v => v.source = name with
  | some w =>
    rw [hlocal, Option.some_or, Option.some.injEq] at h
    subst h
    have hsource : w.source = name := by simpa using List.find?_some hlocal
    refine ⟨List.mem_append_right _ ?_, rfl⟩
    rw [← hsource]
    exact List.mem_map_of_mem (List.mem_of_find?_eq_some hlocal)
  | none =>
    rw [hlocal, Option.none_or] at h
    rw [h]
    have hsource : v.source = name := by simpa using List.find?_some h
    refine ⟨List.mem_append_left _ ?_, rfl⟩
    rw [← hsource]
    exact List.mem_map_of_mem (List.mem_of_find?_eq_some h)

/-- The variables of a scope have numbers that are drawn by now, and no two share a name or a
place. -/
structure Sound (σ : Scope) : Prop where
  below : ∀ c ∈ σ.cells, ∃ n, n < σ.counter ∧ Numbered n c.1
  names : (σ.cells.map Prod.fst).Nodup
  places : (σ.cells.map Prod.snd).Nodup

namespace Sound

theorem later (h : σ.Sound) (hcells : τ.cells = σ.cells) (hcounter : σ.counter ≤ τ.counter) :
    τ.Sound := by
  refine ⟨?_, hcells ▸ h.names, hcells ▸ h.places⟩
  intro c hc
  obtain ⟨m, hm, hname⟩ := h.below c (hcells ▸ hc)
  exact ⟨m, Nat.lt_of_lt_of_le hm hcounter, hname⟩

theorem skip (h : σ.Sound) (n : Nat) : (σ.skip n).Sound := h.later rfl (Nat.le_add_right _ _)

/-- One more variable may take the next number, if its place is new. -/
theorem extend (h : σ.Sound) {name : String} {place : Place} (hname : Numbered σ.counter name)
    (hplace : ∀ c ∈ σ.cells, c.2 ≠ place) (hcells : τ.cells = σ.cells ++ [(name, place)])
    (hcounter : τ.counter = σ.counter + 1) : τ.Sound := by
  refine ⟨?_, ?_, ?_⟩
  · intro c hc
    rw [hcells] at hc
    rw [hcounter]
    rcases List.mem_append.mp hc with hc | hc
    · obtain ⟨m, hm, hnumber⟩ := h.below c hc
      exact ⟨m, Nat.lt_succ_of_lt hm, hnumber⟩
    · rw [List.mem_singleton.mp hc]
      exact ⟨σ.counter, Nat.lt_succ_self _, hname⟩
  · rw [hcells, List.map_append]
    refine h.names.append (List.nodup_singleton _) ?_
    intro x hold hfresh
    obtain ⟨c, hc, rfl⟩ := List.mem_map.mp hold
    obtain ⟨m, hm, hnumber⟩ := h.below c hc
    have hsame : c.1 = name := List.mem_singleton.mp hfresh
    rw [hsame] at hnumber
    have heq := hnumber.unique hname
    omega
  · rw [hcells, List.map_append]
    refine h.places.append (List.nodup_singleton _) ?_
    intro x hold hfresh
    obtain ⟨c, hc, rfl⟩ := List.mem_map.mp hold
    exact hplace c hc (List.mem_singleton.mp hfresh)

theorem add (h : σ.Sound) {v : Variable} (hname : Numbered σ.counter v.name)
    (hnew : ∀ w ∈ σ.locals, w.source ≠ v.source) : (σ.add v).Sound := by
  have hcells : (σ.add v).cells = σ.cells ++ [(v.name, .inFunction v.source)] := by
    simp [cells, Scope.add]
  refine h.extend hname ?_ hcells rfl
  intro c hc hplace
  rcases List.mem_append.mp hc with hc | hc
  · obtain ⟨w, -, rfl⟩ := List.mem_map.mp hc
    cases hplace
  · obtain ⟨w, hw, rfl⟩ := List.mem_map.mp hc
    exact hnew w hw (Place.inFunction.inj hplace)

end Sound

theorem Before.cells (h : σ.Before τ) {c : String × Place} (hc : c ∈ σ.cells) : c ∈ τ.cells := by
  unfold Scope.cells at hc ⊢
  rw [h.ctx]
  rcases List.mem_append.mp hc with hc | hc
  · exact List.mem_append_left _ hc
  · exact List.mem_append_right _ (List.map_subset _ h.locals.subset hc)

/-- Numbers that are drawn between two scopes are not those of a variable of a later one. -/
theorem Before.apart {n : Nat} (h : (σ.skip n).Before τ) (hσ : σ.Sound) {c : String × Place}
    (hc : c ∈ τ.cells) :
    ∃ m, Numbered m c.1 ∧ (m < σ.counter ∨ σ.counter + n ≤ m) := by
  have hold : ∀ c ∈ σ.cells, ∃ m, Numbered m c.1 ∧ (m < σ.counter ∨ σ.counter + n ≤ m) := by
    intro c hc
    obtain ⟨m, hm, hname⟩ := hσ.below c hc
    exact ⟨m, hname, Or.inl hm⟩
  rcases List.mem_append.mp hc with hc | hc
  · rw [h.ctx] at hc
    exact hold c (List.mem_append_left _ hc)
  · obtain ⟨v, hv, rfl⟩ := List.mem_map.mp hc
    rcases h.later v hv with hv | ⟨m, hm, hname⟩
    · exact hold _ (List.mem_append_right _ (List.mem_map_of_mem hv))
    · exact ⟨m, hname, Or.inr hm⟩

def Agrees (σ : Scope) (st : Valuation V) (μ : Memory V) : Prop := ∀ c ∈ σ.cells, μ c.1 = st c.2

namespace Agrees

theorem earlier (h : τ.Agrees st μ) (hbefore : σ.Before τ) : σ.Agrees st μ :=
  fun c hc => h c (hbefore.cells hc)

theorem update (h : σ.Agrees st μ) (hσ : σ.Sound) {name : String} {place : Place}
    (hcell : (name, place) ∈ σ.cells) (x : V) :
    σ.Agrees (Function.update st place x) (Function.update μ name x) := by
  intro c hc
  by_cases hname : c.1 = name
  · have heq : c = (name, place) := List.inj_on_of_nodup_map hσ.names hc hcell hname
    rw [heq, Function.update_self, Function.update_self]
  · have hplace : c.2 ≠ place := by
      intro hplace
      exact hname (congrArg Prod.fst (List.inj_on_of_nodup_map hσ.places hc hcell hplace))
    rw [Function.update_of_ne hname, Function.update_of_ne hplace]
    exact h c hc

/-- Code that has drawn the numbers it writes keeps the agreement, also with respect to variables
that are declared later. -/
theorem frame {n : Nat} (h : τ.Agrees st μ) (hσ : σ.Sound) (hbefore : (σ.skip n).Before τ)
    (hframe : Frame σ.counter (σ.counter + n) μ μ') : τ.Agrees st μ' := by
  intro c hc
  obtain ⟨m, hname, hm⟩ := hbefore.apart hσ hc
  rw [hframe.at_number hname hm]
  exact h c hc

end Agrees
end Scope

/-- A value that later code does not write: its name, if it has one, has a number below `n`. -/
def Value.Settled (n : Nat) : Value → Prop
  | .var v => ∃ m, m < n ∧ Numbered m v.name
  | .const _ => True
  | .unset => False

namespace Value.Settled

variable {m n : Nat} {value : Value}

theorem mono (h : value.Settled m) (hle : m ≤ n) : value.Settled n := by
  cases value with
  | var v =>
    obtain ⟨i, hi, hname⟩ := h
    exact ⟨i, Nat.lt_of_lt_of_le hi hle, hname⟩
  | const c => trivial
  | unset => exact h

theorem read_frame (h : value.Settled m) (hframe : Frame m n μ μ') :
    value.read I μ' = value.read I μ := by
  cases value with
  | var v =>
    obtain ⟨i, hi, hname⟩ := h
    exact hframe.at_number hname (Or.inl hi)
  | const c => rfl
  | unset => exact h.elim

end Value.Settled

theorem applyAll_append (I : Interpretation V) (μ : Memory V) (xs ys : List Operation) :
    applyAll I μ (xs ++ ys) = applyAll I (applyAll I μ xs) ys := List.foldl_append

/-- Operations compute values: they write only the `n` names they draw, and afterwards the values
stand for what they should. -/
structure Yields (I : Interpretation V) (σ : Scope) (μ : Memory V) (operations : List Operation)
    (n : Nat) (values : List Value) (results : List V) : Prop where
  frame : Frame σ.counter (σ.counter + n) μ (applyAll I μ operations)
  settled : ∀ value ∈ values, value.Settled (σ.counter + n)
  reads : values.map (·.read I (applyAll I μ operations)) = results

namespace Yields

variable {σ : Scope} {xs ys : List Operation} {m n : Nat} {us vs : List Value} {as bs : List V}

theorem read {u : Value} {a : V} (h : Yields I σ μ xs n [u] [a]) : u.read I (applyAll I μ xs) = a :=
  (List.cons.inj h.reads).1

/-- Values that are computed first still stand for the same when more are computed. -/
theorem append (h : Yields I σ μ xs m us as)
    (h' : Yields I (σ.skip m) (applyAll I μ xs) ys n vs bs) :
    Yields I σ μ (xs ++ ys) (m + n) (us ++ vs) (as ++ bs) := by
  have hcounter : (σ.skip m).counter + n = σ.counter + (m + n) := Nat.add_assoc _ _ _
  have hframe := h'.frame
  rw [hcounter] at hframe
  refine ⟨?_, ?_, ?_⟩
  · rw [applyAll_append]
    exact h.frame.trans hframe (Nat.le_add_right _ _) (by omega)
  · intro value hvalue
    rcases List.mem_append.mp hvalue with hvalue | hvalue
    · exact (h.settled value hvalue).mono (by omega)
    · exact hcounter ▸ h'.settled value hvalue
  · rw [applyAll_append, List.map_append, h'.reads, ← h.reads]
    congr 1
    refine List.map_congr_left fun value hvalue => ?_
    exact (h.settled value hvalue).read_frame hframe

/-- An operation that writes what it computes from such values into a temporary. -/
theorem store (h : Yields I σ μ xs n us as) {operation : Operation} {v : Variable} {x : V}
    (hname : Numbered (σ.counter + n) v.name)
    (hwrites : operation.apply I (applyAll I μ xs) = Function.update (applyAll I μ xs) v.name x) :
    Yields I σ μ (xs ++ [operation]) (n + 1) [.var v] [x] := by
  have happly : applyAll I μ (xs ++ [operation]) = Function.update (applyAll I μ xs) v.name x := by
    rw [applyAll_append, ← hwrites]
    rfl
  refine ⟨?_, ?_, ?_⟩
  · rw [happly]
    exact h.frame.trans (.update hname _ x) (Nat.le_add_right _ _) (Nat.le_succ _)
  · intro value hvalue
    rw [List.mem_singleton.mp hvalue]
    exact ⟨σ.counter + n, Nat.lt_succ_self _, hname⟩
  · rw [happly]
    simp [Value.read]

end Yields

/-- The value of an expression has the kind that the source gives the expression. -/
theorem Expr.value_kind : ∀ (e : Expr) (σ : Scope), e.isPure = true → e.Scoped σ →
    (e.value σ).kind = e.kind σ.env
  | .ident _ name, σ, _, hscoped => by
    obtain ⟨v, hv⟩ := hscoped
    rw [Expr.value, Expr.kind, hv, (Scope.resolve?_cell hv).2]
    rfl
  | .literal .., _, _, _ => rfl
  | .binary _ operator left right, σ, hpure, hscoped => by
    obtain ⟨hright, hleft⟩ := Bool.and_eq_true_iff.mp hpure
    have hr := right.value_kind σ hright hscoped.1
    have hl := left.value_kind (σ.skip right.draws) hleft hscoped.2
    change _ = left.kind σ.env at hl
    rw [Expr.kind, ← hl, ← hr]
    rfl
  | .call .., _, _, _ => rfl
  | .assign .., _, hpure, _ | .unary .., _, hpure, _ | .unknown .., _, hpure, _ => nomatch hpure

mutual

/-- The code of an expression without assignments computes its value. -/
theorem Expr.code_yields : ∀ (e : Expr) (σ : Scope) (μ : Memory V), e.isPure = true → e.Scoped σ →
    σ.Sound → σ.Agrees st μ →
    Yields I σ μ (e.code σ) e.draws [e.value σ] [e.eval I σ.env st]
  | .ident _ name, σ, μ, _, hscoped, hsound, hagrees => by
    obtain ⟨v, hv⟩ := hscoped
    have hcell := (Scope.resolve?_cell hv).1
    rw [Expr.value, hv]
    refine ⟨Frame.refl _ _ _, ?_, ?_⟩
    · intro value hvalue
      rw [List.mem_singleton.mp hvalue]
      exact hsound.below _ hcell
    · exact congrArg (fun x => [x]) (hagrees _ hcell)
  | .literal .., σ, μ, _, _, _, _ => by
    refine ⟨Frame.refl _ _ _, ?_, rfl⟩
    intro value hvalue
    rw [List.mem_singleton.mp hvalue]
    trivial
  | .binary _ operator left right, σ, μ, hpure, hscoped, hsound, hagrees => by
    obtain ⟨hright, hleft⟩ := Bool.and_eq_true_iff.mp hpure
    have hr := right.code_yields σ μ hright hscoped.1 hsound hagrees
    have hbetween : (σ.skip right.draws).Agrees st (applyAll I μ (right.code σ)) :=
      Scope.Agrees.frame (τ := σ.skip right.draws) hagrees hsound (.refl _) hr.frame
    have hl := left.code_yields (σ.skip right.draws) _ hleft hscoped.2 (hsound.skip _) hbetween
    have hboth := hr.append hl
    have hreads := hboth.reads
    simp only [List.cons_append, List.nil_append, List.map_cons, List.map_nil, List.cons.injEq,
      and_true] at hreads
    obtain ⟨hreadr, hreadl⟩ := hreads
    refine hboth.store ((σ.skip _).numbered_temporary "binary_op" _) ?_
    have hkinds : Env.opcode operator (left.kind σ.env) (right.kind σ.env) =
        .ofOperator operator
          (.shared (left.value (σ.skip right.draws)).kind (right.value σ).kind) := by
      rw [right.value_kind σ hright hscoped.1, left.value_kind _ hleft hscoped.2]
      rfl
    rw [Scope.computation, Operation.apply, hreadr, hreadl, ← hkinds]
    rfl
  | .call _ callee args, σ, μ, hpure, hscoped, hsound, hagrees => by
    have hargs := Expr.codeAll_yields args σ μ hpure hscoped hsound hagrees
    refine hargs.store ((σ.skip _).numbered_temporary "call" _) ?_
    rw [Operation.apply, hargs.reads]
    rfl
  | .assign .., _, _, hpure, _, _, _ | .unary .., _, _, hpure, _, _, _
  | .unknown .., _, _, hpure, _, _, _ => nomatch hpure
termination_by structural e => e

theorem Expr.codeAll_yields : ∀ (es : List Expr) (σ : Scope) (μ : Memory V),
    Expr.arePure es = true → Expr.ScopedAll σ es → σ.Sound → σ.Agrees st μ →
    Yields I σ μ (Expr.codeAll σ es) (Expr.drawsAll es) (Expr.valueAll σ es)
      (Expr.evalAll I σ.env st es)
  | [], σ, μ, _, _, _, _ => ⟨Frame.refl _ _ _, (fun _ h => nomatch h), rfl⟩
  | e :: es, σ, μ, hpure, hscoped, hsound, hagrees => by
    obtain ⟨he, hes⟩ := Bool.and_eq_true_iff.mp hpure
    have hhead := e.code_yields σ μ he hscoped.1 hsound hagrees
    have hbetween : (σ.skip e.draws).Agrees st (applyAll I μ (e.code σ)) :=
      Scope.Agrees.frame (τ := σ.skip e.draws) hagrees hsound (.refl _) hhead.frame
    exact hhead.append
      (Expr.codeAll_yields es (σ.skip e.draws) _ hes hscoped.2 (hsound.skip _) hbetween)
termination_by structural es => es

end

namespace Scope.Agrees

variable {σ τ : Scope}

/-- A computed value is stored in a variable. -/
theorem assign {operations : List Operation} {n : Nat} {value : Value} {x : V} {v : Variable}
    {place : Place} (h : τ.Agrees st μ) (hσ : σ.Sound) (hτ : τ.Sound)
    (hbefore : (σ.skip n).Before τ) (hyields : Yields I σ μ operations n [value] [x])
    (hcell : (v.name, place) ∈ τ.cells) :
    τ.Agrees (Function.update st place x)
      (applyAll I μ (operations ++ [.assign (.var v) value])) := by
  have hstored : applyAll I μ (operations ++ [.assign (.var v) value]) =
      Function.update (applyAll I μ operations) v.name x := by
    rw [applyAll_append, ← hyields.read]
    rfl
  rw [hstored]
  exact (h.frame hσ hbefore hyields.frame).update hτ hcell x

/-- An assignment to a variable, also one with an operator. -/
theorem assignment {operations : List Operation} {n : Nat} {operator : String} {value : Value}
    {x : V} {v : Variable} {place : Place} (h : τ.Agrees st μ) (hσ : σ.Sound) (hτ : τ.Sound)
    (hbefore : (σ.skip (n + if operator = "=" then 0 else 1)).Before τ)
    (hyields : Yields I σ μ operations n [value] [x]) (hcell : (v.name, place) ∈ σ.cells) :
    τ.Agrees
      (Function.update st place
        (if operator = "=" then x
        else I.operate (Env.opcode (compoundOperator operator) v.kind value.kind) (st place) x))
      (applyAll I μ (operations ++ (σ.skip n).assignment operator v value)) := by
  have hlater : (v.name, place) ∈ τ.cells := hbefore.cells hcell
  unfold Scope.assignment
  by_cases hplain : operator = "="
  · rw [if_pos hplain] at hbefore
    rw [if_pos hplain, if_pos hplain]
    exact h.assign hσ hτ hbefore hyields hlater
  · rw [if_neg hplain] at hbefore
    rw [if_neg hplain, if_neg hplain, List.append_cons]
    refine h.assign hσ hτ hbefore ?_ hlater
    refine hyields.store ((σ.skip n).numbered_temporary "binary_op" _) ?_
    -- the variable still holds what it held before the value was computed
    have hread : applyAll I μ operations v.name = st place :=
      h.frame hσ ((Before.skip _ 1).trans hbefore) hyields.frame _ hlater
    rw [Scope.computation, Operation.apply, hyields.read, Value.read, hread]
    rfl

/-- The code of an expression that stands as a statement does to the memory what the expression does
to the store. -/
theorem action (h : τ.Agrees st μ) (hσ : σ.Sound) (hτ : τ.Sound) {e : Expr}
    (haction : e.isAction = true) (hscoped : e.Scoped σ) (hbefore : (σ.skip e.draws).Before τ) :
    τ.Agrees (e.effect I σ.env st) (applyAll I μ (e.code σ)) := by
  have hagrees : σ.Agrees st μ := h.earlier ((Before.skip σ _).trans hbefore)
  have hpure : e.isPure = true → τ.Agrees st (applyAll I μ (e.code σ)) := fun hpure =>
    h.frame hσ hbefore (e.code_yields σ μ hpure hscoped hσ hagrees).frame
  match e with
  | .ident .. | .literal .. | .binary .. | .call .. => exact hpure haction
  | .assign _ operator (.ident pos name) value =>
    obtain ⟨hvalue, v, hv⟩ := hscoped
    obtain ⟨hcell, hkind⟩ := resolve?_cell (σ := σ) hv
    have hyields := value.code_yields (I := I) σ μ haction hvalue hσ hagrees
    have htarget : (Expr.value (σ.skip value.draws) (.ident pos name)).target = v := by
      rw [Expr.value, hv]
      rfl
    have hstored := h.assignment hσ hτ hbefore hyields hcell
    rw [Expr.effect, Expr.code, htarget, hkind, ← value.value_kind σ haction hvalue]
    rw [Expr.code, List.append_nil]
    exact hstored
  | .unary _ operator (.ident _ name) =>
    obtain ⟨v, hv⟩ := hscoped
    obtain ⟨hcell, hkind⟩ := resolve?_cell hv
    have hstored := h.update hτ (hbefore.cells hcell)
      (I.operate (Env.opcode ((stepOperator? operator).getD operator) v.kind .int)
        (st (σ.env.place name)) (I.literal .int "1"))
    rw [Expr.effect, hkind, Expr.code, Expr.value, hv, ← hagrees _ hcell]
    rw [← hagrees _ hcell] at hstored
    exact hstored

end Scope.Agrees

mutual

/-- The scope after a statement is sound, if the statement declares no name twice. -/
theorem Stmt.sound_past : ∀ (s : Stmt) (σ : Scope), s.Scoped σ → σ.Sound → (s.past σ).Sound
  | .block _ items, σ, hscoped, hσ => Stmt.sound_pastAll items σ hscoped hσ
  | .decl d, σ, hscoped, hσ => (hσ.add (σ.numbered_variableOf _ _ d) hscoped.1).skip _
  | .ret .., _, _, hσ | .expr .., _, _, hσ => hσ.skip _
  | .ifThen _ _ thenBranch elseBranch, _, hscoped, hσ =>
    Stmt.sound_pastOption elseBranch _ hscoped.2.2
      (thenBranch.sound_past _ hscoped.2.1 (hσ.skip _))
  | .forLoop _ init _ next body, σ, hscoped, hσ =>
    Stmt.sound_pastOption next _ hscoped.2.2.2
      (body.sound_past _ hscoped.2.2.1 ((Stmt.sound_pastOption init σ hscoped.1 hσ).skip _))
  | .switch _ _ body, _, hscoped, hσ => body.sound_past _ hscoped.2 (hσ.skip _)
  | .caseOf _ _ stmts, _, hscoped, hσ => Stmt.sound_pastAll stmts _ hscoped.2 (hσ.skip _)
  | .otherwise _ stmts, σ, hscoped, hσ => Stmt.sound_pastAll stmts σ hscoped hσ
  | .leave _, _, _, hσ | .unknown .., _, _, hσ | .empty _, _, _, hσ => hσ
termination_by structural s => s

theorem Stmt.sound_pastAll : ∀ (ss : List Stmt) (σ : Scope), Stmt.ScopedAll σ ss → σ.Sound →
    (Stmt.pastAll σ ss).Sound
  | [], _, _, hσ => hσ
  | s :: ss, σ, hscoped, hσ =>
    Stmt.sound_pastAll ss _ hscoped.2 (s.sound_past σ hscoped.1 hσ)
termination_by structural ss => ss

theorem Stmt.sound_pastOption : ∀ (s : Option Stmt) (σ : Scope), Stmt.ScopedOption σ s → σ.Sound →
    (Stmt.pastOption σ s).Sound
  | none, _, _, hσ => hσ
  | some s, σ, hscoped, hσ => s.sound_past σ hscoped hσ
termination_by structural s => s

end

theorem Scope.env_declare (σ : Scope) (d : Decl) : (σ.declare d).env = σ.env.declare d := by
  simp [Scope.env, Scope.declare, Scope.add, Env.declare, Scope.variableOf, Variable.declared]

mutual

/-- A statement declares in the source what it declares in the scope. -/
theorem Stmt.env_past : ∀ (s : Stmt) (σ : Scope), s.isPlain = true →
    (s.past σ).env = s.declares σ.env
  | .block _ items, σ, hplain => Stmt.env_pastAll items σ hplain
  | .decl d, σ, _ => σ.env_declare d
  | .ret .., _, _ | .expr .., _, _ | .empty _, _, _ => rfl
  | .ifThen _ cond thenBranch elseBranch, σ, hplain => by
    simp only [Stmt.isPlain, Bool.and_eq_true] at hplain
    rw [Stmt.past, Stmt.declares, Stmt.env_pastOption elseBranch _ hplain.1.2,
      thenBranch.env_past _ hplain.1.1.2]
    rfl
  | .forLoop _ init cond next body, σ, hplain => by
    simp only [Stmt.isPlain, Bool.and_eq_true] at hplain
    have hinit := Stmt.env_pastOption init σ hplain.1.1.1
    rw [Stmt.past, Stmt.declares, Stmt.env_pastOption next _ hplain.2,
      body.env_past _ hplain.1.2, ← hinit]
    rfl
  | .switch .., _, hplain | .caseOf .., _, hplain | .otherwise .., _, hplain
  | .leave _, _, hplain | .unknown .., _, hplain => nomatch hplain
termination_by structural s => s

theorem Stmt.env_pastAll : ∀ (ss : List Stmt) (σ : Scope), Stmt.arePlain ss = true →
    (Stmt.pastAll σ ss).env = Stmt.declaresAll σ.env ss
  | [], _, _ => rfl
  | s :: ss, σ, hplain => by
    obtain ⟨hs, hss⟩ := Bool.and_eq_true_iff.mp hplain
    rw [Stmt.pastAll, Stmt.declaresAll, Stmt.env_pastAll ss _ hss, s.env_past σ hs]
termination_by structural ss => ss

theorem Stmt.env_pastOption : ∀ (s : Option Stmt) (σ : Scope), Stmt.isPlainOption s = true →
    (Stmt.pastOption σ s).env = Stmt.declaresOption σ.env s
  | none, _, _ => rfl
  | some s, σ, hplain => s.env_past σ hplain
termination_by structural s => s

end

end SlotBoard
