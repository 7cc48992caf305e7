import SlotBoard.Proofs.Operands
import SlotBoard.Proofs.SymbolTable

/-!
Modules that are built step by step. As long as no slot is relabelled, a step lets the module grow:
values are added to what has room for them, boards are added empty, and every slot that is new or
changed has its position for an address and works on values of the module. So in a module that was
built this way variables name their owner, constants are named after their board, and addresses are
positions.
-/
namespace SlotBoard

def Item.operands (item : Item) : List Value := item.operation.reads ++ item.operation.writes

/-- A value made for a board: a variable names it as its owner, and a constant is named after it. -/
def Value.MadeFor (owner : String) : Value → Prop
  | var v => v.owner = owner
  | const c => ∃ n, c.name = stamp "constant" owner n
  | unset => True

/-- A slot whose address is its position and whose items work on known values. -/
structure Slot.SitsAt (known : List Value) (i : Nat) (slot : Slot) : Prop where
  address : slot.address = .index i
  operands : ∀ item ∈ slot.items, item.operands ⊆ known

theorem Slot.SitsAt.mono {known known' : List Value} (h : known ⊆ known') {i : Nat} {slot : Slot}
    (hslot : slot.SitsAt known i) : slot.SitsAt known' i where
  address := hslot.address
  operands item hitem := List.Subset.trans (hslot.operands item hitem) h

/-- What a step can make of a board. -/
structure Board.Grows (known : List Value) (b c : Board) : Prop where
  name : c.name = b.name
  values : ∃ added, c.values = b.values ++ added ∧ ∀ v ∈ added, v.MadeFor b.name
  slots : ∀ (i : Nat) (slot : Slot), c.slots[i]? = some slot →
    b.slots[i]? = some slot ∨ slot.SitsAt known i

namespace Board.Grows

variable {known : List Value}

theorem refl (b : Board) : b.Grows known b where
  name := rfl
  values := ⟨[], by simp⟩
  slots _ _ h := .inl h

theorem pushValue (b : Board) {v : Value} (h : v.MadeFor b.name) : b.Grows known (b.pushValue v) where
  name := rfl
  values := ⟨[v], rfl, by simpa using h⟩
  slots _ _ h := .inl h

/-- One more slot at the end. -/
theorem addSlot (b : Board) {slot : Slot} (h : slot.SitsAt known b.slots.length) :
    b.Grows known { b with slots := b.slots ++ [slot] } where
  name := rfl
  values := ⟨[], by simp⟩
  slots i s hs := by
    by_cases hi : i < b.slots.length
    · rw [List.getElem?_append_left hi] at hs
      exact .inl hs
    · rw [List.getElem?_append_right (by omega)] at hs
      obtain ⟨hlength, rfl⟩ := List.getElem?_eq_some_iff.mp hs
      simp only [List.length_singleton] at hlength
      obtain rfl : i = b.slots.length := by omega
      exact .inr (by simpa using h)

/-- Another slot in the place of one. -/
theorem replace (b : Board) {position : Nat} {slot : Slot} (h : slot.SitsAt known position) :
    b.Grows known (b.modifySlot position fun _ => slot) where
  name := rfl
  values := ⟨[], by simp [Board.modifySlot]⟩
  slots i s hs := by
    rw [Board.modifySlot, List.getElem?_modify] at hs
    split at hs
    · rename_i hi
      subst hi
      obtain ⟨old, -, rfl⟩ := Option.map_eq_some_iff.mp hs
      exact .inr h
    · exact .inl (by simpa using hs)

end Board.Grows

namespace Module

def values (m : Module) : List Value := m.globals.map .var ++ m.boards.flatMap Board.values

/-- What a step can make of a module. -/
structure Grows (m m' : Module) : Prop where
  globals : ∃ added, m'.globals = m.globals ++ added ∧ ∀ v ∈ added, v.owner = ""
  boards : ∀ c ∈ m'.boards, (c.values = [] ∧ c.slots = []) ∨ ∃ b ∈ m.boards, b.Grows m.values c
  values : m.values ⊆ m'.values

/-- Variables name their owners, constants are named after their boards, and slots sit at their
addresses. -/
structure Built (m : Module) : Prop where
  globals : ∀ v ∈ m.globals, v.owner = ""
  values : ∀ b ∈ m.boards, ∀ v ∈ b.values, v.MadeFor b.name
  slots : ∀ b ∈ m.boards, ∀ (i : Nat) (slot : Slot), b.slots[i]? = some slot →
    slot.SitsAt m.values i

variable {m m' : Module}

theorem Built.empty (name : String) : Built { name } where
  globals _ h := absurd h List.not_mem_nil
  values _ h := absurd h List.not_mem_nil
  slots _ h := absurd h List.not_mem_nil

theorem Built.grow (h : m.Built) (hgrows : m.Grows m') : m'.Built where
  globals v hv := by
    obtain ⟨added, hadded, howner⟩ := hgrows.globals
    rw [hadded] at hv
    rcases List.mem_append.mp hv with hold | hnew
    · exact h.globals v hold
    · exact howner v hnew
  values c hc v hv := by
    rcases hgrows.boards c hc with ⟨hvalues, -⟩ | ⟨b, hb, hgrow⟩
    · rw [hvalues] at hv
      exact absurd hv List.not_mem_nil
    · obtain ⟨added, hadded, hmade⟩ := hgrow.values
      rw [hadded] at hv
      rw [hgrow.name]
      rcases List.mem_append.mp hv with hold | hnew
      · exact h.values b hb v hold
      · exact hmade v hnew
  slots c hc i slot hslot := by
    rcases hgrows.boards c hc with ⟨-, hslots⟩ | ⟨b, hb, hgrow⟩
    · simp [hslots] at hslot
    · rcases hgrow.slots i slot hslot with hold | hnew
      · exact (h.slots b hb i slot hold).mono hgrows.values
      · exact hnew.mono hgrows.values

namespace Grows

theorem refl (m : Module) : m.Grows m where
  globals := ⟨[], by simp⟩
  boards b hb := .inr ⟨b, hb, .refl b⟩
  values := List.Subset.refl _

theorem recount (m : Module) (n : Nat) : m.Grows { m with counter := n } where
  globals := ⟨[], by simp⟩
  boards b hb := .inr ⟨b, hb, .refl b⟩
  values := List.Subset.refl _

theorem addGlobal (m : Module) {v : Variable} (h : v.owner = "") (n : Nat) :
    m.Grows { m with globals := m.globals ++ [v], counter := n } where
  globals := ⟨[v], rfl, by simpa using h⟩
  boards b hb := .inr ⟨b, hb, .refl b⟩
  values w hw := by
    rw [Module.values, List.map_append, List.append_assoc]
    rcases List.mem_append.mp hw with hglobal | hboard
    · exact List.mem_append_left _ hglobal
    · exact List.mem_append_right _ (List.mem_append_right _ hboard)

theorem addBoard (m : Module) (name : String) (kind : Kind) :
    m.Grows { m with boards := m.boards ++ [{ name, kind }] } where
  globals := ⟨[], by simp⟩
  boards c hc := by
    rcases List.mem_append.mp hc with hold | hnew
    · exact .inr ⟨c, hold, .refl c⟩
    · rw [List.mem_singleton.mp hnew]
      exact .inl ⟨rfl, rfl⟩
  values w hw := by simpa [Module.values] using hw

theorem modifyBoard (m : Module) (name : String) {f : Board → Board}
    (h : ∀ b ∈ m.boards, b.name = name → b.Grows m.values (f b)) (n : Nat) :
    m.Grows { m.modifyBoard name f with counter := n } where
  globals := ⟨[], by simp [Module.modifyBoard]⟩
  boards c hc := by
    obtain ⟨b, hb, rfl⟩ := List.mem_map.mp hc
    refine .inr ⟨b, hb, ?_⟩
    split
    · rename_i hname
      exact h b hb hname
    · exact .refl b
  values w hw := by
    rcases List.mem_append.mp hw with hglobal | hboard
    · exact List.mem_append_left _ hglobal
    · obtain ⟨b, hb, hw⟩ := List.mem_flatMap.mp hboard
      refine List.mem_append_right _ (List.mem_flatMap.mpr ⟨_, List.mem_map_of_mem hb, ?_⟩)
      split
      · rename_i hname
        obtain ⟨added, hadded, -⟩ := (h b hb hname).values
        rw [hadded]
        exact List.mem_append_left _ hw
      · exact hw

theorem addValue (m : Module) {name : String} {v : Value} (h : v.MadeFor name) (n : Nat) :
    m.Grows { m.modifyBoard name (·.pushValue v) with counter := n } :=
  modifyBoard m name (fun b _ hname => .pushValue b (hname ▸ h)) n

end Grows

theorem operand?_mem {board : Board} (hboard : board ∈ m.boards) {name : String} {v : Value}
    (h : m.operand? board name = some v) : v ∈ m.values := by
  rcases Option.or_eq_some_iff.mp h with hlocal | ⟨-, hglobal⟩
  · have hmem := List.mem_of_find?_eq_some hlocal
    exact List.mem_append_right _ (List.mem_flatMap.mpr ⟨board, hboard, hmem⟩)
  · obtain ⟨g, hg, rfl⟩ := Option.map_eq_some_iff.mp hglobal
    exact List.mem_append_left _ (List.mem_map_of_mem (List.mem_of_find?_eq_some hg))

theorem result?_mem {board : Board} (hboard : board ∈ m.boards) {name : String} {v : Variable}
    (h : m.result? board name = some v) : .var v ∈ m.values := by
  obtain ⟨w, hw, hv⟩ := Option.bind_eq_some_iff.mp h
  cases w with
  | var w =>
    cases hv
    exact operand?_mem hboard hw
  | const | unset => cases hv

theorem operands_mem {board : Board} (hboard : board ∈ m.boards) {names : List String}
    {vs : List Value} (h : names.mapM (m.operand? board) = some vs) : vs ⊆ m.values := by
  induction names generalizing vs with
  | nil =>
    cases h
    exact List.nil_subset _
  | cons name names ih =>
    rw [List.mapM_cons] at h
    obtain ⟨v, hv, h⟩ := Option.bind_eq_some_iff.mp h
    obtain ⟨rest, hrest, h⟩ := Option.bind_eq_some_iff.mp h
    cases h
    exact List.cons_subset.mpr ⟨operand?_mem hboard hv, ih hrest⟩

/-- The item that a plan describes works on values of the module. -/
theorem item?_operands {board : Board} (hboard : board ∈ m.boards) {plan : ItemPlan} {item : Item}
    (h : m.item? board plan = some item) : item.operands ⊆ m.values := by
  cases plan with
  | assign target source =>
    obtain ⟨t, ht, h⟩ := Option.bind_eq_some_iff.mp h
    obtain ⟨s, hs, h⟩ := Option.bind_eq_some_iff.mp h
    cases h
    simp [Item.operands, Operation.reads, Operation.writes, operand?_mem hboard ht,
      operand?_mem hboard hs]
  | binary opcode left right result =>
    obtain ⟨l, hl, h⟩ := Option.bind_eq_some_iff.mp h
    obtain ⟨r, hr, h⟩ := Option.bind_eq_some_iff.mp h
    obtain ⟨w, hw, h⟩ := Option.bind_eq_some_iff.mp h
    cases h
    simp [Item.operands, Operation.reads, Operation.writes, operand?_mem hboard hl,
      operand?_mem hboard hr, result?_mem hboard hw]
  | call callee args result =>
    obtain ⟨vs, hvs, h⟩ := Option.bind_eq_some_iff.mp h
    obtain ⟨w, hw, h⟩ := Option.bind_eq_some_iff.mp h
    cases h
    simp [Item.operands, Operation.reads, Operation.writes, operands_mem hboard hvs,
      result?_mem hboard hw]
  | ret value =>
    cases value with
    | none =>
      cases h
      exact List.nil_subset _
    | some name =>
      obtain ⟨v, hv, h⟩ := Option.bind_eq_some_iff.mp h
      cases h
      simp [Item.ret, Item.operands, Operation.reads, Operation.writes, operand?_mem hboard hv]
  | jumpIfTrue cond =>
    obtain ⟨v, hv, h⟩ := Option.bind_eq_some_iff.mp h
    cases h
    simp [Item.jumpIfTrue, Item.operands, Operation.reads, Operation.writes, operand?_mem hboard hv]
  | select key cases targets =>
    obtain ⟨v, hv, h⟩ := Option.bind_eq_some_iff.mp h
    obtain ⟨vs, hvs, h⟩ := Option.bind_eq_some_iff.mp h
    cases h
    simp [Item.operands, Operation.reads, Operation.writes, operand?_mem hboard hv,
      operands_mem hboard hvs]
  | jump | entry | exit =>
    cases h
    exact List.nil_subset _

end Module

namespace Slot.SitsAt

variable {known : List Value} {i : Nat} {slot : Slot}

theorem push (h : slot.SitsAt known i) {item : Item} (hitem : item.operands ⊆ known) :
    (slot.push item).SitsAt known i where
  address := h.address
  operands x hx := by
    rcases List.mem_append.mp hx with hold | hnew
    · exact h.operands x hold
    · rw [List.mem_singleton.mp hnew]
      split <;> exact hitem

theorem setNext (h : slot.SitsAt known i) (position : Nat) (next : List Int) :
    (slot.setNext position next).SitsAt known i where
  address := h.address
  operands x hx := by
    obtain ⟨j, hj⟩ := List.getElem?_of_mem hx
    rw [Slot.setNext, List.getElem?_modify] at hj
    obtain ⟨y, hy, rfl⟩ := Option.map_eq_some_iff.mp hj
    have hold := h.operands y (List.mem_of_getElem? hy)
    split <;> exact hold

theorem retarget (h : slot.SitsAt known i) (target : Int) :
    (slot.retarget target).SitsAt known i where
  address := h.address
  operands x hx := by
    obtain ⟨y, hy, rfl⟩ := List.mem_map.mp hx
    exact h.operands y hy

end Slot.SitsAt

namespace Module

variable {m m' : Module} {board : Board}

theorem eq_some_of_orInapplicable {α : Type} {x : Option α} {a : α}
    (h : orInapplicable x = .ok a) : x = some a := by
  cases x with
  | none => cases h
  | some b => exact congrArg some (Except.ok.inj h)

theorem declareIn_grows {scope source : String} {kind : Kind} {flags : Flags} {v : Variable}
    (h : m.declareIn board scope source kind flags = .ok (v, m')) : m.Grows m' := by
  unfold declareIn at h
  split at h
  · cases h
  · cases h
    refine .addValue m ?_ _
    rfl

theorem declareGlobal_grows {source : String} {kind : Kind} {flags : Flags} {v : Variable}
    (h : m.declareGlobal source kind flags = .ok (v, m')) : m.Grows m' := by
  unfold declareGlobal at h
  split at h
  · cases h
  · cases h
    exact .addGlobal m rfl _

theorem newBoard_grows {name : String} {kind : Kind} (h : m.newBoard name kind = .ok m') :
    m.Grows m' := by
  unfold newBoard at h
  split at h
  · cases h
  · cases h
    exact .addBoard m name kind

/-- A slot may be changed as long as it still sits at its address. -/
theorem onSlot_grows (hm : m.Built) (hboard : board ∈ m.boards) {slot : Int}
    {f : Slot → Option Slot} {answer : Answer}
    (hf : ∀ i old new, old.SitsAt m.values i → f old = some new → new.SitsAt m.values i)
    (h : m.onSlot board slot f = .ok (answer, m')) : m.Grows m' := by
  obtain ⟨position, -, h⟩ := bind_eq_ok h
  obtain ⟨changed, hchanged, h⟩ := bind_eq_ok h
  cases h
  obtain ⟨old, hold, hnew⟩ := Option.bind_eq_some_iff.mp (eq_some_of_orInapplicable hchanged)
  have hsits := hf position old changed (hm.slots board hboard position old hold) hnew
  exact .modifyBoard m board.name (fun b _ _ => .replace b hsits) _

theorem applyTo_grows (hm : m.Built) (hboard : board ∈ m.boards) {action : Action} {answer : Answer}
    (haction : ∀ slot label, action ≠ .relabel slot label)
    (h : m.applyTo board action = .ok (answer, m')) : m.Grows m' := by
  cases action with
  | declare source kind flags =>
    obtain ⟨⟨v, made⟩, hmade, h⟩ := bind_eq_ok h
    cases h
    exact declareIn_grows (mapError_eq_ok hmade)
  | declareParameter source kind flags =>
    obtain ⟨⟨v, made⟩, hmade, h⟩ := bind_eq_ok h
    cases h
    exact declareIn_grows (mapError_eq_ok hmade)
  | newTemporary stem kind =>
    cases h
    refine .addValue m ?_ _
    rfl
  | newConstant kind literal =>
    cases h
    refine .addValue m ?_ _
    exact ⟨m.counter, rfl⟩
  | leaveUnset =>
    cases h
    refine .addValue m ?_ _
    trivial
  | newSlot =>
    cases h
    exact .modifyBoard m board.name (fun b _ _ => .addSlot b ⟨rfl, by simp⟩) _
  | lastSlot =>
    cases h
    exact .modifyBoard m board.name (fun b _ _ => .refl b) _
  | emit plan =>
    obtain ⟨item, hitem, h⟩ := bind_eq_ok h
    cases h
    have hempty : ∀ i, Slot.SitsAt m.values i { address := .index i } := fun i => ⟨rfl, by simp⟩
    have hoperands := item?_operands hboard (eq_some_of_orInapplicable hitem)
    exact .modifyBoard m board.name (fun b _ _ => .addSlot b ((hempty _).push hoperands)) _
  | append slot plan =>
    refine onSlot_grows hm hboard (fun i old new hold hnew => ?_) h
    obtain ⟨item, hitem, rfl⟩ := Option.map_eq_some_iff.mp hnew
    exact hold.push (item?_operands hboard hitem)
  | setNext slot position next =>
    refine onSlot_grows hm hboard (fun i old new hold hnew => ?_) h
    obtain ⟨position, -, rfl⟩ := Option.map_eq_some_iff.mp hnew
    exact hold.setNext position next
  | retarget slot target =>
    refine onSlot_grows hm hboard (fun i old new hold hnew => ?_) h
    cases hnew
    exact hold.retarget target
  | relabel slot label => exact absurd rfl (haction slot label)
  | inspect slot =>
    obtain ⟨position, -, h⟩ := bind_eq_ok h
    obtain ⟨s, -, h⟩ := bind_eq_ok h
    cases h
    exact .refl m
  | uniqueId =>
    cases h
    exact .recount m _
  | resolve _ _ | boardText =>
    cases h
    exact .refl m
  | newBoard _ _ | hasBoard _ | text | validate | snapshotBytes | fingerprint | snapshot => cases h

theorem applyAlone_grows {action : Action} {answer : Answer}
    (h : m.applyAlone action = .ok (answer, m')) : m.Grows m' := by
  unfold applyAlone at h
  split at h
  · cases h
    exact .recount m _
  · obtain ⟨⟨v, made⟩, hmade, h⟩ := bind_eq_ok h
    cases h
    exact declareGlobal_grows (mapError_eq_ok hmade)
  · cases h

theorem wholeModule_grows {action : Action} {answer : Answer} (haction : action.wholeModule = true)
    (h : m.apply ⟨none, action⟩ = .ok (answer, m')) : m.Grows m' := by
  cases action with
  | newBoard name kind =>
    rw [apply_newBoard] at h
    obtain ⟨made, hmade, h⟩ := bind_eq_ok h
    cases h
    exact newBoard_grows (mapError_eq_ok hmade)
  | hasBoard _ | text | validate | snapshotBytes | fingerprint | snapshot =>
    cases h
    exact .refl m
  | _ => cases haction

/-- A step that relabels no slot lets the module grow. -/
theorem apply_grows (hm : m.Built) {step : Step} {answer : Answer}
    (hstep : ∀ slot label, step.action ≠ .relabel slot label)
    (h : m.apply step = .ok (answer, m')) : m.Grows m' := by
  rcases apply_cases h with ⟨hwhole, h⟩ | ⟨-, h⟩ | ⟨name, b, -, hb, h⟩
  · exact wholeModule_grows hwhole h
  · exact applyAlone_grows h
  · exact applyTo_grows hm (board?_eq_some hb).1 hstep h

/-- Modules that come about step by step, no slot being relabelled. -/
inductive Scripted : Module → Prop
  | intro (name : String) (steps : List Step)
      (h : ∀ step ∈ steps, ∀ slot label, step.action ≠ .relabel slot label) :
      Scripted (applyAll { name } steps).2

theorem Built.applyAll (hm : m.Built) {steps : List Step}
    (h : ∀ step ∈ steps, ∀ slot label, step.action ≠ .relabel slot label) :
    (m.applyAll steps).2.Built := by
  induction steps generalizing m with
  | nil => exact hm
  | cons step steps ih =>
    obtain ⟨hfirst, hrest⟩ := List.forall_mem_cons.mp h
    unfold Module.applyAll
    cases hstep : m.apply step with
    | error e => exact ih hm hrest
    | ok made => exact ih (hm.grow (apply_grows hm hfirst hstep)) hrest

theorem Scripted.built (h : m.Scripted) : m.Built := by
  obtain ⟨name, steps, hsteps⟩ := h
  exact (Built.empty name).applyAll hsteps

def Addressed (m : Module) : Prop :=
  ∀ b ∈ m.boards, ∀ (i : Nat) (slot : Slot), b.slots[i]? = some slot → slot.address = .index i

theorem Built.addressed (h : m.Built) : m.Addressed :=
  fun b hb i slot hslot => (h.slots b hb i slot hslot).address

end Module

def stepsOn (actions : List Action) : List Step :=
  ⟨none, .newBoard "f" .void⟩ :: ⟨some "f", .declare "x" .int {}⟩ ::
    actions.map fun action => ⟨some "f", action⟩

def madeBy (actions : List Action) : Module := (Module.applyAll { name := "demo" } (stepsOn actions)).2

theorem scripted_madeBy {actions : List Action}
    (h : ∀ action ∈ actions, ∀ slot label, action ≠ .relabel slot label) :
    (madeBy actions).Scripted := by
  refine .intro "demo" (stepsOn actions) ?_
  rw [stepsOn, List.forall_mem_cons, List.forall_mem_cons, List.forall_mem_map]
  exact ⟨by simp, by simp, h⟩

end SlotBoard
