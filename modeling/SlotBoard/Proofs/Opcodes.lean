import SlotBoard.Proofs.Calls
import SlotBoard.Proofs.Dominance
import SlotBoard.Proofs.SymbolTable

/-!
Opcodes and kinds. The opcode of an item is chosen when the item is emitted, by the kinds that its
operands have at that moment. The finished module tells the same: looked up by name there, the operands
have the kinds that the opcode was chosen by, and the result has the kind that follows. So an opcode
that is made for one kind works on that kind only.
-/
namespace SlotBoard

namespace Opcode

def kind? (opcode : Opcode) : Option Kind :=
  if opcode ∈ [fadd32, fsub32, fmul32, fdiv32] then some .float
  else if opcode ∈ [fadd64, fsub64, fmul64, fdiv64] then some .double
  else if opcode ∈ [mul64, div64] then some .long
  else none

theorem kind?_ne_unknown (opcode : Opcode) : opcode.kind? ≠ some .unknown := by
  unfold kind?
  split_ifs <;> decide

theorem kind?_of_isComparison {opcode : Opcode} (h : opcode.isComparison = true) :
    opcode.kind? = none := by
  simp only [isComparison, Bool.or_eq_true, decide_eq_true_eq] at h
  rcases h with rfl | rfl
  · decide
  · decide

/-- A choice by kind, one case of which is an opcode made for that kind. -/
theorem kind?_ite {kind special : Kind} {a b : Opcode} (ha : a.kind? = some special)
    (hb : b.kind? = none ∨ b.kind? = some kind) :
    (if kind = special then a else b).kind? = none ∨
      (if kind = special then a else b).kind? = some kind := by
  split
  · rename_i heq
    exact Or.inr (heq ▸ ha)
  · exact hb

/-- An opcode that is chosen by a kind is made for that kind or for no kind in particular. -/
theorem kind?_ofOperator (operator : String) (kind : Kind) :
    (ofOperator operator kind).kind? = none ∨ (ofOperator operator kind).kind? = some kind := by
  unfold ofOperator ofOperator?
  by_cases hadd : operator = "+"
  · rw [if_pos hadd]
    exact kind?_ite (by decide) (kind?_ite (by decide) (Or.inl (by decide)))
  by_cases hsub : operator = "-"
  · rw [if_neg hadd, if_pos hsub]
    exact kind?_ite (by decide) (kind?_ite (by decide) (Or.inl (by decide)))
  by_cases hmul : operator = "*"
  · rw [if_neg hadd, if_neg hsub, if_pos hmul]
    exact kind?_ite (by decide) (kind?_ite (by decide) (kind?_ite (by decide) (Or.inl (by decide))))
  by_cases hdiv : operator = "/"
  · rw [if_neg hadd, if_neg hsub, if_neg hmul, if_pos hdiv]
    exact kind?_ite (by decide) (kind?_ite (by decide) (kind?_ite (by decide) (Or.inl (by decide))))
  -- comparisons, and operators without an opcode, do not look at the kind
  · rw [if_neg hadd, if_neg hsub, if_neg hmul, if_neg hdiv]
    left
    split_ifs <;> decide

end Opcode

/-- Operands share a known kind only if both have it. -/
theorem Kind.eq_of_shared {a b kind : Kind} (h : shared a b = kind) (hkind : kind ≠ .unknown) :
    a = kind ∧ b = kind := by
  unfold shared at h
  split at h
  · rename_i heq
    exact ⟨h, heq ▸ h⟩
  · exact absurd h.symm hkind

namespace Opcode

/-- The operands of an opcode that is made for a kind have that kind, and so has the result. -/
theorem operands_of_kind? {operator : String} {a b kind : Kind}
    (h : (ofOperator operator (.shared a b)).kind? = some kind) :
    a = kind ∧ b = kind ∧ (ofOperator operator (.shared a b)).isComparison = false := by
  have hshared : Kind.shared a b = kind := by
    rcases kind?_ofOperator operator (.shared a b) with hnone | hsome
    · cases hnone.symm.trans h
    · exact Option.some.inj (hsome.symm.trans h)
  have hknown : kind ≠ .unknown := by
    rintro rfl
    exact kind?_ne_unknown _ h
  obtain ⟨ha, hb⟩ := Kind.eq_of_shared hshared hknown
  refine ⟨ha, hb, ?_⟩
  rw [← Bool.not_eq_true]
  intro hcomparison
  cases (kind?_of_isComparison hcomparison).symm.trans h

end Opcode

def Module.kindOf? (m : Module) (board : Board) (name : String) : Option Kind :=
  ((board.values ++ m.globals.map Value.var).find? fun v => v.name = name).map Value.kind

/-- The names of a board and those at module scope are all different. -/
theorem Module.Counted.nodup_in_scope {m : Module} (h : m.Counted) {board : Board}
    (hboard : board ∈ m.boards) :
    ((board.values ++ m.globals.map Value.var).map Value.name).Nodup := by
  obtain ⟨i, hi⟩ := List.mem_iff_getElem?.mp hboard
  have hnames : m.nameLists[i + 1]? = some (board.values.map Value.name) := by
    rw [nameLists, List.getElem?_cons_succ, List.getElem?_map, hi]
    rfl
  have hglobals : (m.globals.map Value.var).map Value.name = m.globals.map Variable.name := by
    rw [List.map_map]
    rfl
  have hnodup := (List.nodup_flatten.mp h.names_nodup).1
  rw [List.map_append, hglobals]
  refine List.nodup_append'.mpr ⟨hnodup _ (List.mem_of_getElem? hnames), hnodup _ (.head _), ?_⟩
  exact fun name hname => h.apart (j := 0) (by omega) hnames rfl hname

theorem Module.Counted.kindOf?_eq {m : Module} (h : m.Counted) {board : Board}
    (hboard : board ∈ m.boards) {v : Value} (hv : m.Knows board v) :
    m.kindOf? board v.name = some v.kind := by
  have hmem : v ∈ board.values ++ m.globals.map .var := by
    rcases hv with hv | ⟨g, hg, rfl⟩
    · exact List.mem_append_left _ hv
    · exact List.mem_append_right _ (List.mem_map_of_mem hg)
  rw [kindOf?, (find?_key_eq_some (h.nodup_in_scope hboard)).mpr ⟨hmem, rfl⟩]
  rfl

/-- Whatever is lowered, and whatever is reported on the way: the opcode of every item is that of some
operator for the kind that the operands share in the finished module. The item is a step by the number
one of its left operand, or its result is a temporary of its board, a truth value if the opcode compares
and of the operands' kind otherwise. An opcode that is made for a kind has operands and a result of that
kind. -/
theorem opcodes_agree_with_kinds (name : String) (aliases : Kind.Aliases) (units : List SourceUnit) :
    let m := (units.foldl Lowering.unit (.start name aliases)).module
    ∀ b ∈ m.boards, ∀ opcode left right result, .binary opcode left right result ∈ b.operations →
      ∃ operator kl kr, m.kindOf? b left.name = some kl ∧ m.kindOf? b right.name = some kr ∧
        opcode = .ofOperator operator (.shared kl kr) ∧
        ((left = .var result ∧ ∃ one, right = .const one ∧ one.kind = .int ∧ one.literal = "1") ∨
          (.var result ∈ b.values ∧ result.temp = true ∧ m.kindOf? b result.name =
            some (if opcode.isComparison then .boolean else .shared kl kr))) ∧
        ∀ kind, opcode.kind? = some kind →
          kl = kind ∧ kr = kind ∧ m.kindOf? b result.name = some kind := by
  intro m b hb opcode left right result hx
  have hcounted : m.Counted := Lowering.counted_of_units name aliases units
  obtain ⟨blocks, hblocks⟩ := Lowering.blocked_of_units name aliases units b hb
  obtain ⟨front, hfits⟩ := hblocks.exists_fits hx
  have hkl := hcounted.kindOf?_eq hb (hfits.reads left (.head _)).known
  have hkr := hcounted.kindOf?_eq hb (hfits.reads right (.tail _ (.head _))).known
  have hresult := (hfits.writes (.var result) (.head _)).1
  have hkind := hcounted.kindOf?_eq hb hresult
  obtain ⟨l, f, -, -, rfl⟩ := Lowering.exists_finished_of_mem hb
  rcases l.finished_emits f hx with hemits | hcontrol
  · cases hemits with
    | binary operator _ _ _ htemp hresultKind =>
      have hvalue : .var result ∈ (l.finished f).board.values := by
        rcases hresult with hvalue | ⟨g, hg, heq⟩
        · exact hvalue
        · obtain rfl : result = g := Value.var.inj heq
          cases htemp.symm.trans (Lowering.plain_of_units name aliases units result hg)
      have hresultKind := hkind.trans (congrArg some hresultKind)
      refine ⟨operator, left.kind, right.kind, hkl, hkr, rfl, Or.inr ⟨hvalue, htemp, hresultKind⟩,
        fun kind hspecial => ?_⟩
      obtain ⟨hl, hr, hcomparison⟩ := Opcode.operands_of_kind? hspecial
      refine ⟨hl, hr, hresultKind.trans (congrArg some ?_)⟩
      rw [hcomparison, if_neg Bool.false_ne_true, hl, hr, Kind.shared, if_pos rfl]
    | step operator _ one hone hliteral =>
      refine ⟨operator, result.kind, one.kind, hkl, hkr, rfl, Or.inl ⟨rfl, one, rfl, hone, hliteral⟩,
        fun kind hspecial => ?_⟩
      obtain ⟨hl, hr, -⟩ := Opcode.operands_of_kind? hspecial
      exact ⟨hl, hr, hkind.trans (congrArg some hl)⟩
  · cases hcontrol

/-- `void f(float x, int n) { n++; x *= x; }` -/
def squaringFunction : FuncDef where
  pos := {}
  name := "f"
  returnType := ["void"]
  storage := []
  params := [⟨{}, "x", ["float"], [], [], none⟩, ⟨{}, "n", ["int"], [], [], none⟩]
  bodyPos := {}
  body := [.expr {} (.unary {} "p++" (.ident {} "n")),
    .expr {} (.assign {} "*=" (.ident {} "x") (.ident {} "x"))]

theorem squaringFunction_multiplies_floats :
    let m := ([⟨"u", [.func squaringFunction]⟩].foldl Lowering.unit (.start "m" [])).module
    let b := ((Lowering.start "m" []).finished squaringFunction).board
    let x := Variable.declared "x" "f" "m" 0 .float { methodParam := true }
    let square := Variable.temporary "binary_op" "f" 3 .float {}
    b ∈ m.boards ∧ .binary .fmul32 (.var x) (.var x) square ∈ b.operations ∧
      m.kindOf? b x.name = some .float ∧ m.kindOf? b square.name = some .float := by
  intro m b x square
  have hb : b ∈ m.boards := by decide +kernel
  have hx : .binary .fmul32 (.var x) (.var x) square ∈ b.operations := by decide +kernel
  obtain ⟨operator, kl, kr, hkl, -, -, -, hspecial⟩ :=
    opcodes_agree_with_kinds "m" [] [⟨"u", [.func squaringFunction]⟩] b hb _ _ _ _ hx
  obtain ⟨rfl, -, hsquare⟩ := hspecial .float (by decide)
  exact ⟨hb, hx, hkl, hsquare⟩

end SlotBoard
