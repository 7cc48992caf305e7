import SlotBoard.Proofs.Function

/-!
The kinds of the results of calls. A call is typed when it is lowered, by the boards there are at that
moment: those of the functions before the calling one, and its own. So its result has the kind of the
callee if the callee is defined no later than the caller. A function that is defined later is taken
for one from outside, and the result is unknown unless the function's own kind is.
-/
namespace SlotBoard

theorem Board.operations_modifySlot (board : Board) (position : Nat) {f : Slot → Slot}
    (hf : ∀ slot, (f slot).operations = slot.operations) :
    (board.modifySlot position f).operations = board.operations := by
  have hmap : ∀ (slots : List Slot) (i : Nat),
      (slots.modify i f).flatMap Slot.operations = slots.flatMap Slot.operations := by
    intro slots
    induction slots with
    | nil => intro i; cases i <;> rfl
    | cons slot slots ih =>
      intro i
      cases i with
      | zero => rw [List.modify_zero_cons, List.flatMap_cons, List.flatMap_cons, hf]
      | succ i => rw [List.modify_succ_cons, List.flatMap_cons, List.flatMap_cons, ih]
  exact hmap board.slots position

namespace Draft

theorem operations_after_emit (d : Draft) (item : Item) :
    (d.after (emit item)).board.operations = d.board.operations ++ [item.operation] := by
  have hpush : (Slot.push { address := .index d.board.slots.length } item).operations =
      [item.operation] := by
    unfold Slot.push
    dsimp only
    split <;> rfl
  have hslots : (d.after (emit item)).board.operations =
      (d.board.slots ++ [Slot.push { address := .index d.board.slots.length } item]).flatMap
        Slot.operations := rfl
  rw [hslots, List.flatMap_append, List.flatMap_singleton, hpush]
  rfl

/-- Every operation of the later draft was there before, or the lowering of an expression may emit it,
or it only says where control goes. -/
def Emitted (ctx : Context) (d e : Draft) : Prop :=
  ∀ x ∈ e.board.operations, x ∈ d.board.operations ∨ ctx.Emits x ∨ x.computes = false

namespace Emitted

variable {ctx : Context}

theorem of_eq {d e : Draft} (h : e.board.operations = d.board.operations) : d.Emitted ctx e := by
  intro x hx
  rw [h] at hx
  exact Or.inl hx

theorem trans {a b c : Draft} (hab : a.Emitted ctx b) (hbc : b.Emitted ctx c) : a.Emitted ctx c := by
  intro x hx
  rcases hbc x hx with hb | hnew
  · exact hab x hb
  · exact Or.inr hnew

theorem emit (d : Draft) {item : Item}
    (h : ctx.Emits item.operation ∨ item.operation.computes = false) :
    d.Emitted ctx (d.after (Draft.emit item)) := by
  intro x hx
  rw [operations_after_emit] at hx
  rcases List.mem_append.mp hx with hold | hnew
  · exact Or.inl hold
  · rw [List.mem_singleton.mp hnew]
    exact Or.inr h

theorem admitsExprs (ctx : Context) : AdmitsExprs ctx (Emitted ctx) where
  refl _ := of_eq rfl
  trans := trans
  temporary _ _ _ := of_eq rfl
  constant _ _ _ := of_eq rfl
  report _ _ _ _ := of_eq rfl
  emit _ h d := emit d (Or.inl h)

theorem patchBlind (ctx : Context) : PatchBlind ctx (Emitted ctx) where
  toComposes := (admitsExprs ctx).toComposes
  report _ _ _ _ _ := of_eq rfl
  assign target value _ d := emit d (Or.inl (.assign target value))
  declare scope source kind flags d := by
    rw [after_declare?]
    split
    · exact of_eq rfl
    · exact of_eq rfl
  control _ h d := emit d (Or.inr h)
  patch position f hf d := of_eq (d.board.operations_modifySlot position hf)

end Emitted
end Draft

/-- The operations of a finished function are those that its context lets it emit, and those that only
say where control goes. -/
theorem Lowering.finished_emits (l : Lowering) (f : FuncDef) {x : Operation}
    (hx : x ∈ (l.finished f).board.operations) : (l.context f).Emits x ∨ x.computes = false := by
  have hfunction := (Draft.Emitted.patchBlind (l.context f)).function l.module.name f
    (fun e _ => e.lower_keeps (Draft.Emitted.admitsExprs _)) (l.blank f)
  rcases hfunction x hx with hblank | hnew
  · cases hblank
  · exact hnew

/-- The kind of what a call gives, as far as some boards can tell: that of the board of the callee's
name, and unknown if there is none. -/
def resultKind (boards : List Board) (callee : String) : Kind :=
  ((boards.find? fun b => b.name = callee).map Board.kind).getD .unknown

/-- A name and a kind for each entry of a list: the kind of a name is that of the first entry with it. -/
theorem lookup_map {α : Type} (nameOf : α → String) (kindOf : α → Kind) (xs : List α)
    (name : String) :
    (xs.map fun x => (nameOf x, kindOf x)).lookup name =
      (xs.find? fun x => nameOf x = name).map kindOf := by
  induction xs with
  | nil => rfl
  | cons x xs ih =>
    rw [List.map_cons, List.lookup_cons, List.find?_cons]
    by_cases hname : nameOf x = name
    · simp [hname]
    · have hne : (name == nameOf x) = false := by
        rw [beq_eq_false_iff_ne]
        exact fun h => hname h.symm
      simp only [hne, hname, decide_false]
      exact ih

def Module.CallsTyped (m : Module) : Prop :=
  ∀ (i : Nat) (b : Board), m.boards[i]? = some b → ∀ callee args result,
    .call callee args result ∈ b.operations →
      result.kind = resultKind (m.boards.take (i + 1)) callee

namespace Lowering

/-- The calls of a finished function are typed by the boards before it and by its own. -/
theorem finished_call_kind (l : Lowering) (f : FuncDef) {callee : String} {args : List Value}
    {result : Variable} (h : .call callee args result ∈ (l.finished f).board.operations) :
    result.kind = resultKind (l.module.boards ++ [(l.finished f).board]) callee := by
  have hsignatures : (l.context f).signatures =
      (l.module.boards ++ [(l.finished f).board]).map fun b => (b.name, b.kind) := by
    rw [List.map_append, List.map_singleton, finished_name, finished_kind]
    rfl
  rcases l.finished_emits f h with hemits | hcontrol
  · cases hemits with
    | call _ _ _ _ hkind => rw [hkind, hsignatures, lookup_map Board.name Board.kind, resultKind]
  · cases hcontrol

theorem Takes.callsTyped {l m : Lowering} {t : TopLevel} (h : l.Takes t m)
    (hl : l.module.CallsTyped) : m.module.CallsTyped := by
  cases h with
  | refused diagnostic h => exact hl
  | global d diagnostics h hinit => exact hl
  | board f h =>
    intro i b hb callee args result hcall
    by_cases hi : i < l.module.boards.length
    · have hold : l.module.boards[i]? = some b := by
        rwa [List.getElem?_append_left hi] at hb
      rw [List.take_append_of_le_length (by omega)]
      exact hl i b hold callee args result hcall
    · rw [List.getElem?_append_right (by omega)] at hb
      obtain ⟨hlt, rfl⟩ := List.getElem?_eq_some_iff.mp hb
      have hlast : i - l.module.boards.length = 0 := by
        rw [List.length_singleton] at hlt
        omega
      simp only [hlast, List.getElem_cons_zero] at hcall
      rw [List.take_of_length_le (by rw [List.length_append, List.length_singleton]; omega)]
      exact l.finished_call_kind f hcall

theorem callsTyped_of_units (name : String) (aliases : Kind.Aliases) (units : List SourceUnit) :
    (units.foldl unit (start name aliases)).module.CallsTyped := by
  refine units_induction (P := fun l => l.module.CallsTyped) name aliases ?_ ?_ units
  · intro i b hb
    cases hb
  · exact fun l t h => (l.topLevel_takes t).callsTyped h

end Lowering

/-- The first boards tell the kind of a call that all of them tell, exactly if the callee is one of the
first or its kind is unknown. -/
theorem resultKind_take_iff (boards : List Board) (n : Nat) (callee : String) :
    resultKind (boards.take n) callee = resultKind boards callee ↔
      ∀ c, boards.find? (fun b => b.name = callee) = some c →
        (∃ j < n, boards[j]? = some c) ∨ c.kind = .unknown := by
  have hsplit : boards.find? (fun b => b.name = callee) =
      ((boards.take n).find? fun b => b.name = callee).or
        ((boards.drop n).find? fun b => b.name = callee) := by
    rw [← List.find?_append, List.take_append_drop]
  unfold resultKind
  rw [hsplit]
  cases hfront : (boards.take n).find? fun b => b.name = callee with
  | some b =>
    obtain ⟨j, hj⟩ := List.getElem?_of_mem (List.mem_of_find?_eq_some hfront)
    have hlt : j < n := by
      have hlength := (List.getElem?_eq_some_iff.mp hj).1
      rw [List.length_take] at hlength
      omega
    rw [List.getElem?_take_of_lt hlt] at hj
    constructor
    · intro _ c hc
      obtain rfl := Option.some.inj hc
      exact Or.inl ⟨j, hlt, hj⟩
    · exact fun _ => rfl
  | none =>
    cases hback : (boards.drop n).find? fun b => b.name = callee with
    | none => simp
    | some c =>
      constructor
      · intro hkind d hd
        obtain rfl := Option.some.inj hd
        exact Or.inr hkind.symm
      · intro h
        rcases h c rfl with ⟨j, hlt, hj⟩ | hkind
        · have hmem : c ∈ boards.take n := by
            apply List.mem_of_getElem? (i := j)
            rw [List.getElem?_take_of_lt hlt, hj]
          have hname := List.find?_eq_none.mp hfront c hmem
          exact absurd (List.find?_some hback) hname
        · exact hkind.symm

/-- The result of a call has the kind that the boards up to the calling one tell. That is the kind the
finished module tells, exactly if the callee's board, should there be one, stands no later than the
calling one or is of unknown kind itself. -/
theorem call_kind_is_callee_kind_iff (name : String) (aliases : Kind.Aliases)
    (units : List SourceUnit) :
    let m := (units.foldl Lowering.unit (.start name aliases)).module
    ∀ (i : Nat) (b : Board), m.boards[i]? = some b → ∀ callee args result,
      .call callee args result ∈ b.operations →
        result.kind = resultKind (m.boards.take (i + 1)) callee ∧
        (result.kind = resultKind m.boards callee ↔
          ∀ c, m.board? callee = some c → (∃ j ≤ i, m.boards[j]? = some c) ∨ c.kind = .unknown) := by
  intro m i b hb callee args result hcall
  have hkind : result.kind = resultKind (m.boards.take (i + 1)) callee :=
    Lowering.callsTyped_of_units name aliases units i b hb callee args result hcall
  refine ⟨hkind, ?_⟩
  rw [hkind, resultKind_take_iff]
  simp only [Nat.lt_succ_iff]
  rfl

def callingFunction (name type : String) (callees : List String) : FuncDef where
  pos := {}
  name := name
  returnType := [type]
  storage := []
  params := []
  bodyPos := {}
  body := callees.map fun callee => .expr {} (.call {} callee [])

/-- A call to a function of an earlier unit and one of a function to itself. -/
theorem earlier_and_own_calls_have_callee_kind :
    let units : List SourceUnit := [⟨"u", [.func (callingFunction "g" "int" [])]⟩,
      ⟨"v", [.func (callingFunction "f" "long" ["g", "f"])]⟩]
    let m := (units.foldl Lowering.unit (.start "m" [])).module
    let s := Variable.temporary "call" "f" 0 .int {}
    let t := Variable.temporary "call" "f" 1 .long {}
    ∃ b, m.boards[1]? = some b ∧ .call "g" [] s ∈ b.operations ∧ .call "f" [] t ∈ b.operations ∧
      s.kind = resultKind m.boards "g" ∧ t.kind = resultKind m.boards "f" := by
  intro units m s t
  obtain ⟨b, hb⟩ : ∃ b, m.boards[1]? = some b :=
    ⟨((Lowering.start "m" []).unit ⟨"u", [.func (callingFunction "g" "int" [])]⟩).finished
      (callingFunction "f" "long" ["g", "f"]) |>.board, by decide +kernel⟩
  have hcalls : ∀ c ∈ m.boards[1]?, .call "g" [] s ∈ c.operations ∧ .call "f" [] t ∈ c.operations := by
    decide +kernel
  obtain ⟨hg, hf⟩ := hcalls b hb
  have hboards : ∀ callee ∈ ["g", "f"], ∀ c ∈ m.board? callee, ∃ j ∈ [0, 1], m.boards[j]? = some c := by
    decide +kernel
  have hplaces : ∀ callee ∈ ["g", "f"], ∀ c, m.board? callee = some c →
      (∃ j ≤ 1, m.boards[j]? = some c) ∨ c.kind = .unknown := by
    intro callee hcallee c hc
    obtain ⟨j, hj, hplace⟩ := hboards callee hcallee c hc
    refine Or.inl ⟨j, ?_, hplace⟩
    simp only [List.mem_cons, List.not_mem_nil, or_false] at hj
    omega
  refine ⟨b, hb, hg, hf, ?_, ?_⟩
  · exact (call_kind_is_callee_kind_iff "m" [] units 1 b hb "g" [] s hg).2.mpr (hplaces "g" (by simp))
  · exact (call_kind_is_callee_kind_iff "m" [] units 1 b hb "f" [] t hf).2.mpr (hplaces "f" (by simp))

/-- A call to a function that is defined later: the module has a board of the callee's name, of kind
`int`, but the result is unknown. -/
theorem forward_call_has_unknown_kind :
    let units : List SourceUnit := [⟨"u", [.func (callingFunction "f" "void" ["g"]),
      .func (callingFunction "g" "int" [])]⟩]
    let m := (units.foldl Lowering.unit (.start "m" [])).module
    let t := Variable.temporary "call" "f" 0 .unknown {}
    (∃ b ∈ m.boards[0]?, .call "g" [] t ∈ b.operations) ∧ resultKind m.boards "g" = .int ∧
      t.kind ≠ resultKind m.boards "g" := by
  decide +kernel

end SlotBoard
