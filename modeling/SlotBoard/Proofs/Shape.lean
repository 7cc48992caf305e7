import SlotBoard.Document.Shape
import SlotBoard.Proofs.Outcome

/-!
Source units written back as node trees. Every construct has its node: its kind, its position and the
fields it has. A tree that is written for a unit reads as that unit, provided that the names and
operators a document must have are not empty and that an unknown construct is of no kind known at its
place; and these are exactly the units that trees can be read as. That no construct lacks a part it
cannot do without is in the types of the syntax.
-/
namespace SlotBoard

namespace Node

def headAt (kind : String) (pos : Position) : NodeHead :=
  { kind, line := pos.line, column := pos.column }

mutual

/-- The node of an expression. The type of a literal is kept as a single word. -/
def ofExpr : Expr → Node
  | .assign pos operator target value =>
    { toNodeHead := { headAt "Assignment" pos with op := operator },
      lvalue := some (ofExpr target), rvalue := some (ofExpr value) }
  | .unary pos operator operand =>
    { toNodeHead := { headAt "UnaryOp" pos with op := operator }, expr := some (ofExpr operand) }
  | .binary pos operator left right =>
    { toNodeHead := { headAt "BinaryOp" pos with op := operator },
      left := some (ofExpr left), right := some (ofExpr right) }
  | .ident pos name => { toNodeHead := { headAt "ID" pos with name } }
  | .literal pos type value => { toNodeHead := { headAt "Constant" pos with type := [type], value } }
  | .call pos callee args =>
    { toNodeHead := { headAt "FuncCall" pos with name := callee }, args := ofExprs args }
  | .unknown pos kind => { toNodeHead := headAt kind pos }
termination_by structural x => x

def ofExprs : List Expr → List (Option Node)
  | [] => []
  | x :: xs => some (ofExpr x) :: ofExprs xs
termination_by structural xs => xs

end

def ofDecl (d : Decl) : Node :=
  { toNodeHead := { headAt "Decl" d.pos with
      name := d.name, type := d.type, quals := d.quals, storage := d.storage },
    init := d.init.map ofExpr }

mutual

/-- The node of a statement. An expression that stands as a statement gets a node of its own around
it. -/
def ofStmt : Stmt → Node
  | .block pos items => { toNodeHead := headAt "Compound" pos, items := ofStmts items }
  | .decl d => ofDecl d
  | .ret pos value => { toNodeHead := headAt "Return" pos, expr := value.map ofExpr }
  | .ifThen pos cond thenBranch elseBranch =>
    { toNodeHead := headAt "If" pos, cond := some (ofExpr cond), ifTrue := some (ofStmt thenBranch),
      ifFalse := ofStmt? elseBranch }
  | .forLoop pos init cond next body =>
    { toNodeHead := headAt "For" pos, init := ofStmt? init, cond := cond.map ofExpr,
      next := ofStmt? next, stmt := some (ofStmt body) }
  | .switch pos subject body =>
    { toNodeHead := headAt "Switch" pos, cond := some (ofExpr subject), stmt := some (ofStmt body) }
  | .caseOf pos label stmts =>
    { toNodeHead := headAt "Case" pos, expr := some (ofExpr label), stmts := ofStmts stmts }
  | .otherwise pos stmts => { toNodeHead := headAt "Default" pos, stmts := ofStmts stmts }
  | .leave pos => { toNodeHead := headAt "Break" pos }
  | .empty pos => { toNodeHead := headAt "EmptyStatement" pos }
  | .expr pos x => { toNodeHead := headAt "ExprStmt" pos, expr := some (ofExpr x) }
  | .unknown pos kind => { toNodeHead := headAt kind pos }
termination_by structural s => s

def ofStmts : List Stmt → List (Option Node)
  | [] => []
  | s :: ss => some (ofStmt s) :: ofStmts ss
termination_by structural ss => ss

def ofStmt? : Option Stmt → Option Node
  | none => none
  | some s => some (ofStmt s)
termination_by structural s => s

end

def ofFuncDef (f : FuncDef) : Node :=
  { toNodeHead := { headAt "FuncDef" f.pos with
      name := f.name, type := f.returnType, storage := f.storage },
    params := f.params.map fun d => some (ofDecl d),
    body := some { toNodeHead := headAt "Compound" f.bodyPos, items := ofStmts f.body } }

def ofTopLevel : TopLevel → Node
  | .func f => ofFuncDef f
  | .decl d => ofDecl d
  | .unknown pos kind => { toNodeHead := headAt kind pos }

def ofUnit (u : SourceUnit) : Node :=
  { kind := "FileAST", ext := u.decls.map fun t => some (ofTopLevel t) }

def statementKinds : List String :=
  ["Compound", "Decl", "Return", "If", "For", "Switch", "Case", "Default", "Break",
    "EmptyStatement", "ExprStmt"]

end Node

mutual

/-- Whether a document can hold an expression: its names and the operators of its assignments are not
empty, and what is unknown in it is of no expression's kind. -/
def Expr.writable : Expr → Bool
  | .assign _ operator target value => operator ≠ "" && target.writable && value.writable
  | .unary _ _ operand => operand.writable
  | .binary _ _ left right => left.writable && right.writable
  | .ident _ name => name ≠ ""
  | .literal .. => true
  | .call _ callee args => callee ≠ "" && Expr.writableAll args
  | .unknown _ kind => !Node.isExpr kind
termination_by structural x => x

def Expr.writableAll : List Expr → Bool
  | [] => true
  | x :: xs => x.writable && Expr.writableAll xs
termination_by structural xs => xs

end

def Decl.writable (d : Decl) : Bool := d.name ≠ "" && d.init.all Expr.writable

mutual

/-- Whether a document can hold a statement. What is unknown in it is of no statement's kind, and
being an expression counts as one. -/
def Stmt.writable : Stmt → Bool
  | .block _ items => Stmt.writableAll items
  | .decl d => d.writable
  | .ret _ value => value.all Expr.writable
  | .ifThen _ cond thenBranch elseBranch =>
    cond.writable && thenBranch.writable && Stmt.writableOption elseBranch
  | .forLoop _ init cond next body =>
    Stmt.writableOption init && cond.all Expr.writable && Stmt.writableOption next && body.writable
  | .switch _ subject body => subject.writable && body.writable
  | .caseOf _ label stmts => label.writable && Stmt.writableAll stmts
  | .otherwise _ stmts => Stmt.writableAll stmts
  | .leave _ | .empty _ => true
  | .expr _ x => x.writable
  | .unknown _ kind => !Node.statementKinds.contains kind && !Node.isExpr kind
termination_by structural s => s

def Stmt.writableAll : List Stmt → Bool
  | [] => true
  | s :: ss => s.writable && Stmt.writableAll ss
termination_by structural ss => ss

def Stmt.writableOption : Option Stmt → Bool
  | none => true
  | some s => s.writable
termination_by structural s => s

end

def FuncDef.writable (f : FuncDef) : Bool :=
  f.name ≠ "" && f.params.all Decl.writable && Stmt.writableAll f.body

def TopLevel.writable : TopLevel → Bool
  | .func f => f.writable
  | .decl d => d.writable
  | .unknown _ kind => kind ≠ "FuncDef" && kind ≠ "Decl"

def SourceUnit.writable (u : SourceUnit) : Bool := u.decls.all TopLevel.writable

namespace Node

mutual

theorem toExpr_ofExpr : (x : Expr) → x.writable = true → (ofExpr x).toExpr = .ok x
  | .assign pos operator target value, h => by
    simp only [Expr.writable, Bool.and_eq_true, decide_eq_true_eq] at h
    obtain ⟨⟨hoperator, htarget⟩, hvalue⟩ := h
    simp only [ofExpr, headAt]
    unfold toExpr
    simp only
    rw [toExpr_ofExpr target htarget, toExpr_ofExpr value hvalue, if_neg hoperator]
    rfl
  | .unary pos operator operand, h => by
    simp only [Expr.writable] at h
    simp only [ofExpr, headAt]
    unfold toExpr
    simp only
    rw [toExpr_ofExpr operand h]
    rfl
  | .binary pos operator left right, h => by
    simp only [Expr.writable, Bool.and_eq_true] at h
    simp only [ofExpr, headAt]
    unfold toExpr
    simp only
    rw [toExpr_ofExpr left h.1, toExpr_ofExpr right h.2]
    rfl
  | .ident pos name, h => by
    simp only [Expr.writable, decide_eq_true_eq] at h
    simp only [ofExpr, headAt]
    unfold toExpr
    simp only
    rw [if_neg h]
    rfl
  | .literal pos type value, _ => by
    simp only [ofExpr, headAt]
    unfold toExpr
    simp [NodeHead.pos]
  | .call pos callee args, h => by
    simp only [Expr.writable, Bool.and_eq_true, decide_eq_true_eq] at h
    simp only [ofExpr, headAt]
    unfold toExpr
    simp only
    rw [if_neg h.1, toArguments_ofExprs _ args h.2]
    rfl
  | .unknown pos kind, h => by
    simp only [Expr.writable, isExpr, Bool.not_eq_true', List.contains_eq_mem,
      decide_eq_false_iff_not, List.mem_cons, List.not_mem_nil, or_false, not_or] at h
    simp only [ofExpr, headAt]
    unfold toExpr
    simp only
    split
    all_goals first
      | rfl
      | simp_all
termination_by structural x => x

theorem toArguments_ofExprs (head : NodeHead) : (xs : List Expr) → Expr.writableAll xs = true →
    toArguments head (ofExprs xs) = .ok xs
  | [], _ => rfl
  | x :: xs, h => by
    simp only [Expr.writableAll, Bool.and_eq_true] at h
    simp only [ofExprs, toArguments]
    rw [toExpr_ofExpr x h.1, toArguments_ofExprs head xs h.2]
    rfl
termination_by structural xs => xs

end

theorem toExpr?_map_ofExpr {x : Option Expr} (h : x.all Expr.writable = true) :
    toExpr? (x.map ofExpr) = .ok x := by
  cases x with
  | none => rfl
  | some y =>
    rw [Option.map_some, toExpr?, toExpr_ofExpr y h]
    rfl

theorem toDecl_ofDecl {d : Decl} (h : d.writable = true) : (ofDecl d).toDecl = .ok d := by
  simp only [Decl.writable, Bool.and_eq_true, decide_eq_true_eq] at h
  have hname : (ofDecl d).name ≠ "" := h.1
  have hinit : toExpr? (ofDecl d).init = .ok d.init := toExpr?_map_ofExpr h.2
  rw [toDecl, if_neg hname, hinit]
  rfl

mutual

theorem toStmt_ofStmt : (s : Stmt) → s.writable = true → (ofStmt s).toStmt = .ok s
  | .block pos items, h => by
    simp only [Stmt.writable] at h
    simp only [ofStmt, headAt]
    unfold toStmt
    simp only
    rw [toStmts_ofStmts _ items h]
    rfl
  | .decl d, h => by
    simp only [Stmt.writable] at h
    have hd := toDecl_ofDecl h
    simp only [ofDecl, headAt] at hd
    simp only [ofStmt, ofDecl, headAt]
    unfold toStmt
    simp only
    rw [hd]
    rfl
  | .ret pos value, h => by
    simp only [Stmt.writable] at h
    simp only [ofStmt, headAt]
    unfold toStmt
    simp only
    rw [toExpr?_map_ofExpr h]
    rfl
  | .ifThen pos cond thenBranch elseBranch, h => by
    simp only [Stmt.writable, Bool.and_eq_true] at h
    simp only [ofStmt, headAt]
    unfold toStmt
    simp only
    rw [toExpr_ofExpr cond h.1.1, toStmt_ofStmt thenBranch h.1.2, toStmt?_ofStmt? elseBranch h.2]
    rfl
  | .forLoop pos init cond next body, h => by
    simp only [Stmt.writable, Bool.and_eq_true] at h
    obtain ⟨⟨⟨hinit, hcond⟩, hnext⟩, hbody⟩ := h
    simp only [ofStmt, headAt]
    unfold toStmt
    simp only
    rw [toStmt?_ofStmt? init hinit, toExpr?_map_ofExpr hcond, toStmt?_ofStmt? next hnext,
      toStmt_ofStmt body hbody]
    rfl
  | .switch pos subject body, h => by
    simp only [Stmt.writable, Bool.and_eq_true] at h
    simp only [ofStmt, headAt]
    unfold toStmt
    simp only
    rw [toExpr_ofExpr subject h.1, toStmt_ofStmt body h.2]
    rfl
  | .caseOf pos label stmts, h => by
    simp only [Stmt.writable, Bool.and_eq_true] at h
    simp only [ofStmt, headAt]
    unfold toStmt
    simp only
    rw [toExpr_ofExpr label h.1, toStmts_ofStmts _ stmts h.2]
    rfl
  | .otherwise pos stmts, h => by
    simp only [Stmt.writable] at h
    simp only [ofStmt, headAt]
    unfold toStmt
    simp only
    rw [toStmts_ofStmts _ stmts h]
    rfl
  | .leave pos, _ => rfl
  | .empty pos, _ => rfl
  | .expr pos x, h => by
    simp only [Stmt.writable] at h
    simp only [ofStmt, headAt]
    unfold toStmt
    simp only
    rw [toExpr_ofExpr x h]
    rfl
  | .unknown pos kind, h => by
    simp only [Stmt.writable, Bool.and_eq_true, Bool.not_eq_true', List.contains_eq_mem,
      decide_eq_false_iff_not, statementKinds, List.mem_cons, List.not_mem_nil, or_false,
      not_or] at h
    simp only [ofStmt, headAt]
    unfold toStmt
    simp only
    split
    all_goals first
      | (rw [if_neg (by simp [h.2])]; rfl)
      | simp_all
termination_by structural s => s

theorem toStmts_ofStmts (head : NodeHead) : (ss : List Stmt) → Stmt.writableAll ss = true →
    toStmts head (ofStmts ss) = .ok ss
  | [], _ => rfl
  | s :: ss, h => by
    simp only [Stmt.writableAll, Bool.and_eq_true] at h
    simp only [ofStmts, toStmts]
    rw [toStmt_ofStmt s h.1, toStmts_ofStmts head ss h.2]
    rfl
termination_by structural ss => ss

theorem toStmt?_ofStmt? : (s : Option Stmt) → Stmt.writableOption s = true →
    toStmt? (ofStmt? s) = .ok s
  | none, _ => rfl
  | some s, h => by
    simp only [Stmt.writableOption] at h
    simp only [ofStmt?, toStmt?]
    rw [toStmt_ofStmt s h]
    rfl
termination_by structural s => s

end

theorem toParameters_ofDecl (head : NodeHead) {ds : List Decl} (h : ds.all Decl.writable = true) :
    toParameters head (ds.map fun d => some (ofDecl d)) = .ok ds := by
  induction ds with
  | nil => rfl
  | cons d ds ih =>
    rw [List.all_cons, Bool.and_eq_true] at h
    have hkind : ¬(ofDecl d).kind ≠ "Decl" := fun hne => hne rfl
    rw [List.map_cons, toParameters, if_neg hkind, toDecl_ofDecl h.1, ih h.2]
    rfl

theorem toFuncDef_ofFuncDef {f : FuncDef} (h : f.writable = true) :
    (ofFuncDef f).toFuncDef = .ok f := by
  simp only [FuncDef.writable, Bool.and_eq_true, decide_eq_true_eq] at h
  obtain ⟨⟨hname, hparams⟩, hbody⟩ := h
  have hname : (ofFuncDef f).name ≠ "" := hname
  have hparams : toParameters (ofFuncDef f).toNodeHead (ofFuncDef f).params = .ok f.params :=
    toParameters_ofDecl _ hparams
  have hbody : toStmts (headAt "Compound" f.bodyPos) (ofStmts f.body) = .ok f.body :=
    toStmts_ofStmts _ _ hbody
  rw [toFuncDef, if_neg hname, hparams]
  simp only [ofFuncDef]
  rw [hbody]
  rfl

theorem toTopLevel_ofTopLevel {t : TopLevel} (h : t.writable = true) :
    toTopLevel (some (ofTopLevel t)) = .ok t := by
  cases t with
  | func f =>
    have hkind : (ofFuncDef f).kind = "FuncDef" := rfl
    rw [ofTopLevel, toTopLevel, hkind, toFuncDef_ofFuncDef h]
    rfl
  | decl d =>
    have hkind : (ofDecl d).kind = "Decl" := rfl
    rw [ofTopLevel, toTopLevel, hkind, toDecl_ofDecl h]
    rfl
  | unknown pos kind =>
    simp only [TopLevel.writable, Bool.and_eq_true, decide_eq_true_eq] at h
    simp only [toTopLevel, ofTopLevel, headAt]
    split
    · exact absurd rfl h.1
    · exact absurd rfl h.2
    · rfl

theorem toUnit_ofUnit {u : SourceUnit} (h : u.writable = true) :
    (ofUnit u).toUnit u.name = .ok u := by
  have hdecls : (u.decls.map fun t => some (ofTopLevel t)).mapM toTopLevel = .ok u.decls :=
    mapM_map_pure fun t ht => toTopLevel_ofTopLevel (List.all_eq_true.mp h t ht)
  have hkind : ¬(ofUnit u).kind ≠ "FileAST" := fun hne => hne rfl
  have hext : (ofUnit u).ext.mapM toTopLevel = .ok u.decls := hdecls
  rw [toUnit, if_neg hkind, hext]
  rfl

end Node

def Expr.Readable (x : Expr) : Prop := ∃ n : Node, n.toExpr = .ok x

def Stmt.Readable (s : Stmt) : Prop := ∃ n : Node, n.toStmt = .ok s

namespace Node

theorem readable_of_toArguments {head : NodeHead} {nodes : List (Option Node)} {xs : List Expr}
    (h : toArguments head nodes = .ok xs) : ∀ x ∈ xs, x.Readable := by
  induction nodes generalizing xs with
  | nil =>
    cases h
    simp
  | cons node nodes ih =>
    cases node with
    | none => cases h
    | some n =>
      obtain ⟨y, hy, h⟩ := bind_eq_ok h
      obtain ⟨ys, hys, h⟩ := bind_eq_ok h
      cases h
      exact List.forall_mem_cons.mpr ⟨⟨n, hy⟩, ih hys⟩

theorem readable_of_toStmts {head : NodeHead} {nodes : List (Option Node)} {ss : List Stmt}
    (h : toStmts head nodes = .ok ss) : ∀ s ∈ ss, s.Readable := by
  induction nodes generalizing ss with
  | nil =>
    cases h
    simp
  | cons node nodes ih =>
    cases node with
    | none => cases h
    | some n =>
      obtain ⟨t, ht, h⟩ := bind_eq_ok h
      obtain ⟨ts, hts, h⟩ := bind_eq_ok h
      cases h
      exact List.forall_mem_cons.mpr ⟨⟨n, ht⟩, ih hts⟩

theorem readable_of_toExpr? {node : Option Node} {x : Option Expr} (h : toExpr? node = .ok x) :
    ∀ y ∈ x, y.Readable := by
  cases node with
  | none =>
    cases h
    simp
  | some n =>
    cases hn : n.toExpr with
    | error e =>
      rw [toExpr?, hn] at h
      cases h
    | ok y =>
      rw [toExpr?, hn] at h
      cases h
      simpa using ⟨n, hn⟩

theorem readable_of_toStmt? {node : Option Node} {s : Option Stmt} (h : toStmt? node = .ok s) :
    ∀ t ∈ s, t.Readable := by
  cases node with
  | none =>
    cases h
    simp
  | some n =>
    obtain ⟨t, ht, h⟩ := bind_eq_ok h
    cases h
    simpa using ⟨n, ht⟩

end Node

def Expr.PartsReadable : Expr → Prop
  | .assign _ operator target value => operator ≠ "" ∧ target.Readable ∧ value.Readable
  | .unary _ _ operand => operand.Readable
  | .binary _ _ left right => left.Readable ∧ right.Readable
  | .ident _ name => name ≠ ""
  | .literal .. => True
  | .call _ callee args => callee ≠ "" ∧ ∀ a ∈ args, a.Readable
  | .unknown _ kind => Node.isExpr kind = false

theorem Expr.Readable.parts {x : Expr} (h : x.Readable) : x.PartsReadable := by
  obtain ⟨⟨head, _, _, _, _, _, _, _, expr, left, right, lvalue, rvalue, _, _, _, _, args, _⟩, h⟩ := h
  unfold Node.toExpr at h
  split at h
  · split at h
    · rename_i l r
      obtain ⟨target, htarget, h⟩ := bind_eq_ok h
      obtain ⟨value, hvalue, h⟩ := bind_eq_ok h
      cases h
      refine ⟨?_, ⟨l, htarget⟩, ⟨r, hvalue⟩⟩
      split
      · decide
      · assumption
    · cases h
  · split at h
    · rename_i operand
      obtain ⟨value, hvalue, h⟩ := bind_eq_ok h
      cases h
      exact ⟨operand, hvalue⟩
    · cases h
  · split at h
    · rename_i l r
      obtain ⟨a, ha, h⟩ := bind_eq_ok h
      obtain ⟨b, hb, h⟩ := bind_eq_ok h
      cases h
      exact ⟨⟨l, ha⟩, ⟨r, hb⟩⟩
    · cases h
  · split at h
    · cases h
    · cases h
      assumption
  · cases h
    trivial
  · split at h
    · cases h
    · obtain ⟨values, hvalues, h⟩ := bind_eq_ok h
      cases h
      exact ⟨by assumption, Node.readable_of_toArguments hvalues⟩
  · cases h
    simp only [PartsReadable, Node.isExpr, List.contains_eq_mem, List.mem_cons, List.not_mem_nil, or_false,
      decide_eq_false_iff_not, not_or]
    exact ⟨‹_›, ‹_›, ‹_›, ‹_›, ‹_›, ‹_›⟩

def Stmt.PartsReadable : Stmt → Prop
  | .block _ items => ∀ s ∈ items, s.Readable
  | .decl d => d.name ≠ "" ∧ ∀ x ∈ d.init, x.Readable
  | .ret _ value => ∀ x ∈ value, x.Readable
  | .ifThen _ cond thenBranch elseBranch =>
    cond.Readable ∧ thenBranch.Readable ∧ ∀ s ∈ elseBranch, s.Readable
  | .forLoop _ init cond next body =>
    (∀ s ∈ init, s.Readable) ∧ (∀ x ∈ cond, x.Readable) ∧ (∀ s ∈ next, s.Readable) ∧ body.Readable
  | .switch _ subject body => subject.Readable ∧ body.Readable
  | .caseOf _ label stmts => label.Readable ∧ ∀ s ∈ stmts, s.Readable
  | .otherwise _ stmts => ∀ s ∈ stmts, s.Readable
  | .leave _ | .empty _ => True
  | .expr _ x => x.Readable
  | .unknown _ kind => Node.statementKinds.contains kind = false ∧ Node.isExpr kind = false

theorem Node.readable_of_toDecl {n : Node} {d : Decl} (h : n.toDecl = .ok d) :
    d.name ≠ "" ∧ ∀ x ∈ d.init, x.Readable := by
  unfold toDecl at h
  split at h
  · cases h
  · obtain ⟨init, hinit, h⟩ := bind_eq_ok h
    cases h
    exact ⟨by assumption, readable_of_toExpr? hinit⟩

theorem Stmt.Readable.parts {s : Stmt} (h : s.Readable) : s.PartsReadable := by
  obtain ⟨⟨head, init, _, cond, ifTrue, ifFalse, next, stmt, expr, _, _, _, _, _, _, items, stmts,
    _, _⟩, h⟩ := h
  unfold Node.toStmt at h
  split at h
  · obtain ⟨ss, hss, h⟩ := bind_eq_ok h
    cases h
    exact Node.readable_of_toStmts hss
  · obtain ⟨d, hd, h⟩ := bind_eq_ok h
    cases h
    exact Node.readable_of_toDecl hd
  · obtain ⟨x, hx, h⟩ := bind_eq_ok h
    cases h
    exact Node.readable_of_toExpr? hx
  · split at h
    · rename_i c t
      obtain ⟨x, hx, h⟩ := bind_eq_ok h
      obtain ⟨s, hs, h⟩ := bind_eq_ok h
      obtain ⟨e, he, h⟩ := bind_eq_ok h
      cases h
      exact ⟨⟨c, hx⟩, ⟨t, hs⟩, Node.readable_of_toStmt? he⟩
    · cases h
  · split at h
    · rename_i b
      obtain ⟨i, hi, h⟩ := bind_eq_ok h
      obtain ⟨x, hx, h⟩ := bind_eq_ok h
      obtain ⟨n, hn, h⟩ := bind_eq_ok h
      obtain ⟨s, hs, h⟩ := bind_eq_ok h
      cases h
      exact ⟨Node.readable_of_toStmt? hi, Node.readable_of_toExpr? hx, Node.readable_of_toStmt? hn,
        ⟨b, hs⟩⟩
    · cases h
  · split at h
    · rename_i c b
      obtain ⟨x, hx, h⟩ := bind_eq_ok h
      obtain ⟨s, hs, h⟩ := bind_eq_ok h
      cases h
      exact ⟨⟨c, hx⟩, ⟨b, hs⟩⟩
    · cases h
  · split at h
    · rename_i l
      obtain ⟨x, hx, h⟩ := bind_eq_ok h
      obtain ⟨ss, hss, h⟩ := bind_eq_ok h
      cases h
      exact ⟨⟨l, hx⟩, Node.readable_of_toStmts hss⟩
    · cases h
  · obtain ⟨ss, hss, h⟩ := bind_eq_ok h
    cases h
    exact Node.readable_of_toStmts hss
  · cases h
    trivial
  · cases h
    trivial
  · split at h
    · rename_i n
      obtain ⟨x, hx, h⟩ := bind_eq_ok h
      cases h
      exact ⟨n, hx⟩
    · cases h
  · split at h
    · obtain ⟨x, hx, h⟩ := bind_eq_ok h
      cases h
      exact ⟨_, hx⟩
    · cases h
      rename_i hexpr
      refine ⟨?_, by simpa using hexpr⟩
      simp only [Node.statementKinds, List.contains_eq_mem, List.mem_cons, List.not_mem_nil,
        or_false, decide_eq_false_iff_not, not_or]
      exact ⟨‹_›, ‹_›, ‹_›, ‹_›, ‹_›, ‹_›, ‹_›, ‹_›, ‹_›, ‹_›, ‹_›⟩

mutual

theorem Expr.Readable.writable : (x : Expr) → x.Readable → x.writable = true
  | .assign _ operator target value, h => by
    obtain ⟨hoperator, htarget, hvalue⟩ := h.parts
    simp [Expr.writable, hoperator, Expr.Readable.writable target htarget,
      Expr.Readable.writable value hvalue]
  | .unary _ _ operand, h => by
    simpa only [Expr.writable] using Expr.Readable.writable operand h.parts
  | .binary _ _ left right, h => by
    obtain ⟨hleft, hright⟩ := h.parts
    simp [Expr.writable, Expr.Readable.writable left hleft, Expr.Readable.writable right hright]
  | .ident _ name, h => by
    have hname : name ≠ "" := h.parts
    simp [Expr.writable, hname]
  | .literal .., _ => rfl
  | .call _ callee args, h => by
    obtain ⟨hcallee, hargs⟩ := h.parts
    simp [Expr.writable, hcallee, Expr.Readable.writableAll args hargs]
  | .unknown _ kind, h => by
    have hkind : Node.isExpr kind = false := h.parts
    simp [Expr.writable, hkind]
termination_by structural x => x

theorem Expr.Readable.writableAll : (xs : List Expr) → (∀ x ∈ xs, x.Readable) →
    Expr.writableAll xs = true
  | [], _ => rfl
  | x :: xs, h => by
    obtain ⟨hx, hxs⟩ := List.forall_mem_cons.mp h
    simp [Expr.writableAll, Expr.Readable.writable x hx, Expr.Readable.writableAll xs hxs]
termination_by structural xs => xs

end

theorem Expr.all_writable {x : Option Expr} (h : ∀ y ∈ x, y.Readable) :
    x.all Expr.writable = true := by
  cases x with
  | none => rfl
  | some y => exact (h y rfl).writable y

theorem Decl.writable_of_parts {d : Decl} (h : d.name ≠ "" ∧ ∀ x ∈ d.init, x.Readable) :
    d.writable = true := by
  simp only [Decl.writable, Bool.and_eq_true, decide_eq_true_eq]
  exact ⟨h.1, Expr.all_writable h.2⟩

mutual

theorem Stmt.Readable.writable : (s : Stmt) → s.Readable → s.writable = true
  | .block _ items, h => by
    simpa only [Stmt.writable] using Stmt.Readable.writableAll items h.parts
  | .decl d, h => by simpa only [Stmt.writable] using Decl.writable_of_parts h.parts
  | .ret _ value, h => by simpa only [Stmt.writable] using Expr.all_writable h.parts
  | .ifThen _ cond thenBranch elseBranch, h => by
    obtain ⟨hcond, hthen, helse⟩ := h.parts
    simp only [Stmt.writable, Bool.and_eq_true]
    exact ⟨⟨hcond.writable cond, Stmt.Readable.writable thenBranch hthen⟩,
      Stmt.Readable.writableOption elseBranch helse⟩
  | .forLoop _ init cond next body, h => by
    obtain ⟨hinit, hcond, hnext, hbody⟩ := h.parts
    simp only [Stmt.writable, Bool.and_eq_true]
    exact ⟨⟨⟨Stmt.Readable.writableOption init hinit, Expr.all_writable hcond⟩,
      Stmt.Readable.writableOption next hnext⟩, Stmt.Readable.writable body hbody⟩
  | .switch _ subject body, h => by
    obtain ⟨hsubject, hbody⟩ := h.parts
    simp only [Stmt.writable, Bool.and_eq_true]
    exact ⟨hsubject.writable subject, Stmt.Readable.writable body hbody⟩
  | .caseOf _ label stmts, h => by
    obtain ⟨hlabel, hstmts⟩ := h.parts
    simp only [Stmt.writable, Bool.and_eq_true]
    exact ⟨hlabel.writable label, Stmt.Readable.writableAll stmts hstmts⟩
  | .otherwise _ stmts, h => by
    simpa only [Stmt.writable] using Stmt.Readable.writableAll stmts h.parts
  | .leave _, _ => rfl
  | .empty _, _ => rfl
  | .expr _ x, h => by
    have hx : x.Readable := h.parts
    simpa only [Stmt.writable] using hx.writable x
  | .unknown _ kind, h => by
    obtain ⟨hstatement, hexpr⟩ := h.parts
    simp only [Stmt.writable, hstatement, hexpr, Bool.not_false, Bool.and_self]
termination_by structural s => s

theorem Stmt.Readable.writableAll : (ss : List Stmt) → (∀ s ∈ ss, s.Readable) →
    Stmt.writableAll ss = true
  | [], _ => rfl
  | s :: ss, h => by
    obtain ⟨hs, hss⟩ := List.forall_mem_cons.mp h
    simp only [Stmt.writableAll, Bool.and_eq_true]
    exact ⟨Stmt.Readable.writable s hs, Stmt.Readable.writableAll ss hss⟩
termination_by structural ss => ss

theorem Stmt.Readable.writableOption : (s : Option Stmt) → (∀ t ∈ s, t.Readable) →
    Stmt.writableOption s = true
  | none, _ => rfl
  | some s, h => by simpa only [Stmt.writableOption] using Stmt.Readable.writable s (h s rfl)
termination_by structural s => s

end

namespace Node

theorem writable_of_toParameters {head : NodeHead} {nodes : List (Option Node)} {ds : List Decl}
    (h : toParameters head nodes = .ok ds) : ds.all Decl.writable = true := by
  induction nodes generalizing ds with
  | nil =>
    cases h
    rfl
  | cons node nodes ih =>
    cases node with
    | none => cases h
    | some n =>
      unfold toParameters at h
      split at h
      · cases h
      · obtain ⟨d, hd, h⟩ := bind_eq_ok h
        obtain ⟨ds', hds, h⟩ := bind_eq_ok h
        cases h
        rw [List.all_cons, Bool.and_eq_true]
        exact ⟨Decl.writable_of_parts (readable_of_toDecl hd), ih hds⟩

theorem writable_of_toFuncDef {n : Node} {f : FuncDef} (h : n.toFuncDef = .ok f) :
    f.writable = true := by
  unfold toFuncDef at h
  split at h
  · cases h
  · rename_i hname
    obtain ⟨params, hparams, h⟩ := bind_eq_ok h
    split at h
    · cases h
    · rename_i body hbody
      split at h
      · cases h
      · obtain ⟨stmts, hstmts, h⟩ := bind_eq_ok h
        cases h
        simp only [FuncDef.writable, Bool.and_eq_true, decide_eq_true_eq]
        exact ⟨⟨hname, writable_of_toParameters hparams⟩,
          Stmt.Readable.writableAll _ (readable_of_toStmts hstmts)⟩

theorem writable_of_toTopLevel {node : Option Node} {t : TopLevel} (h : toTopLevel node = .ok t) :
    t.writable = true := by
  cases node with
  | none => cases h
  | some n =>
    dsimp only [toTopLevel] at h
    split at h
    · obtain ⟨f, hf, h⟩ := bind_eq_ok h
      cases h
      exact writable_of_toFuncDef hf
    · obtain ⟨d, hd, h⟩ := bind_eq_ok h
      cases h
      exact Decl.writable_of_parts (readable_of_toDecl hd)
    · cases h
      rename_i hfunc hdecl
      simp only [TopLevel.writable, Bool.and_eq_true, decide_eq_true_eq]
      exact ⟨hfunc, hdecl⟩

theorem writable_of_toUnit {n : Node} {name : String} {u : SourceUnit}
    (h : n.toUnit name = .ok u) : u.writable = true ∧ u.name = name := by
  unfold toUnit at h
  split at h
  · cases h
  · obtain ⟨decls, hdecls, h⟩ := bind_eq_ok h
    cases h
    refine ⟨List.all_eq_true.mpr fun t ht => ?_, rfl⟩
    obtain ⟨node, -, hnode⟩ := exists_mem_of_mapM hdecls t ht
    exact writable_of_toTopLevel hnode

end Node

/-- A unit whose names and assignment operators are not empty, and in which nothing unknown is of a
kind known at its place, is what the node tree written for it reads as. Every unit that any node tree
reads as is of this sort, so that it is again what the tree written for it reads as. -/
theorem written_unit_reads_back :
    (∀ u : SourceUnit, u.writable = true → (Node.ofUnit u).toUnit u.name = .ok u) ∧
      ∀ (n : Node) (name : String) (u : SourceUnit), n.toUnit name = .ok u →
        u.writable = true ∧ (Node.ofUnit u).toUnit name = .ok u := by
  refine ⟨fun u h => Node.toUnit_ofUnit h, fun n name u h => ?_⟩
  obtain ⟨hu, rfl⟩ := Node.writable_of_toUnit h
  exact ⟨hu, Node.toUnit_ofUnit hu⟩

/-- A function in whose body an assignment without an operator stands as a statement, next to a
construct of an unknown kind. -/
def bareAssignmentTree : Node :=
  let body : Node :=
    { kind := "Compound", items := [
        some { kind := "Assignment", line := 2, column := 3, lvalue := some { kind := "ID", name := "a" },
               rvalue := some { kind := "Constant", type := ["unsigned", "int"], value := "1" } },
        some { kind := "Goto", name := "end" }] }
  { kind := "FileAST", ext := [
      some { kind := "FuncDef", name := "f", type := ["void"], body := some body,
             params := [some { kind := "Decl", name := "a", type := ["int"] }] }] }

def bareAssignmentUnit : SourceUnit :=
  let body : List Stmt := [
    .expr ⟨2, 3⟩ (.assign ⟨2, 3⟩ "=" (.ident ⟨0, 0⟩ "a") (.literal ⟨0, 0⟩ "unsigned int" "1")),
    .unknown ⟨0, 0⟩ "Goto"]
  { name := "demo"
    decls := [.func {
      pos := {}, name := "f", returnType := ["void"], storage := [], bodyPos := {}, body
      params := [{ pos := {}, name := "a", type := ["int"], quals := [], storage := [],
                   init := none }] }] }

theorem bareAssignmentTree_reads_back :
    bareAssignmentTree.toUnit "demo" = .ok bareAssignmentUnit ∧
      bareAssignmentUnit.writable = true ∧
      (Node.ofUnit bareAssignmentUnit).toUnit "demo" = .ok bareAssignmentUnit := by
  have hread : bareAssignmentTree.toUnit "demo" = .ok bareAssignmentUnit := by rfl
  exact ⟨hread, written_unit_reads_back.2 _ _ _ hread⟩

end SlotBoard
