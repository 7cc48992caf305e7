import SlotBoard.Module.Script
import SlotBoard.Proofs.Outcome
import SlotBoard.Proofs.Quiet
import Mathlib.Data.List.Nodup

/-!
The symbol table of a module that is built step by step. What matters of a module for names is a
table of two levels: the variables of the module, and those that each board has declared. A step
either leaves this table alone, or adds an empty board to it, or adds one variable to one of its
lists, whose name is new there. So after any steps the lists are the successful declarations, sorted
by where they were made, and a name refers to the only one that fits.
-/
namespace SlotBoard

/-- A declaration that succeeded: the board it was made on, none at module scope, and the variable. -/
structure Declaration where
  scope : Option String
  made : Variable

def Declaration.key (d : Declaration) : Option String × String := (d.scope, d.made.source)

/-- The variables of a module and, with its name, those that each board has declared. -/
structure Symbols where
  globals : List Variable
  locals : List (String × List Variable)

namespace Symbols

def addLocal (s : Symbols) (name : String) (v : Variable) : Symbols :=
  { s with locals := s.locals.map fun p => if p.1 = name then (p.1, p.2 ++ [v]) else p }

/-- What a step can do to the table, with the declaration it makes. -/
inductive Step (s : Symbols) : Option Declaration → Symbols → Prop
  | keep : Step s none s
  | board {name : String} (hnew : ∀ p ∈ s.locals, p.1 ≠ name) :
      Step s none { s with locals := s.locals ++ [(name, [])] }
  | atModule {v : Variable} (hnew : ∀ w ∈ s.globals, w.source ≠ v.source) (htemp : v.temp = false) :
      Step s (some ⟨none, v⟩) { s with globals := s.globals ++ [v] }
  | onBoard {name : String} {held : List Variable} {v : Variable}
      (hboard : (name, held) ∈ s.locals) (hnew : ∀ w ∈ held, w.source ≠ v.source)
      (htemp : v.temp = false) : Step s (some ⟨some name, v⟩) (s.addLocal name v)

theorem Step.of_eq {s t : Symbols} (h : t = s) : s.Step none t := h ▸ .keep

def of (log : List Declaration) (scope : Option String) : List Variable :=
  (log.filter fun d => d.scope = scope).map Declaration.made

theorem mem_of {log : List Declaration} {scope : Option String} {v : Variable} :
    v ∈ of log scope ↔ ⟨scope, v⟩ ∈ log := by
  simp only [of, List.mem_map, List.mem_filter, decide_eq_true_eq]
  constructor
  · rintro ⟨d, ⟨hd, rfl⟩, rfl⟩
    exact hd
  · intro hd
    exact ⟨_, ⟨hd, rfl⟩, rfl⟩

theorem of_append_same (log : List Declaration) (scope : Option String) (v : Variable) :
    of (log ++ [⟨scope, v⟩]) scope = of log scope ++ [v] := by
  simp [of]

theorem of_append_other (log : List Declaration) {scope other : Option String} (v : Variable)
    (h : other ≠ scope) : of (log ++ [⟨other, v⟩]) scope = of log scope := by
  simp [of, h]

/-- The table holds what a log of declarations says. -/
structure Records (s : Symbols) (log : List Declaration) : Prop where
  globals : s.globals = of log none
  locals : ∀ p ∈ s.locals, p.2 = of log (some p.1)
  boards : (s.locals.map Prod.fst).Nodup
  known : ∀ d ∈ log, ∀ name, d.scope = some name → ∃ p ∈ s.locals, p.1 = name
  keys : (log.map Declaration.key).Nodup
  declared : ∀ d ∈ log, d.made.temp = false

namespace Records

variable {s t : Symbols} {log : List Declaration}

theorem empty : Records ⟨[], []⟩ [] where
  globals := rfl
  locals _ hp := absurd hp List.not_mem_nil
  boards := List.nodup_nil
  known _ hd := absurd hd List.not_mem_nil
  keys := List.nodup_nil
  declared _ hd := absurd hd List.not_mem_nil

theorem keys_concat (h : Records s log) {d : Declaration}
    (hnew : ∀ w ∈ of log d.scope, w.source ≠ d.made.source) :
    ((log ++ [d]).map Declaration.key).Nodup := by
  rw [List.map_append, List.map_singleton]
  refine List.nodup_append.mpr ⟨h.keys, List.nodup_singleton _, ?_⟩
  rintro a ha b hb rfl
  rw [List.mem_singleton] at hb
  obtain ⟨other, hother, hkey⟩ := List.mem_map.mp ha
  have heq : other.key = d.key := hkey.trans hb
  have hscope : other.scope = d.scope := congrArg Prod.fst heq
  exact hnew other.made (mem_of.mpr (hscope ▸ hother)) (congrArg Prod.snd heq)

/-- One step keeps the table and the log in agreement. -/
theorem step (h : Records s log) {d : Option Declaration} (hstep : Step s d t) :
    Records t (log ++ d.toList) := by
  cases hstep with
  | keep => simpa using h
  | @board name hnew =>
    have hnone : of log (some name) = [] := by
      refine List.eq_nil_iff_forall_not_mem.mpr fun v hv => ?_
      obtain ⟨p, hp, hname⟩ := h.known _ (mem_of.mp hv) name rfl
      exact hnew p hp hname
    rw [Option.toList_none, List.append_nil]
    refine ⟨h.globals, ?_, ?_, ?_, h.keys, h.declared⟩
    · intro p hp
      rcases List.mem_append.mp hp with hp | hp
      · exact h.locals p hp
      · rw [List.mem_singleton.mp hp]
        exact hnone.symm
    · rw [List.map_append]
      refine List.nodup_append.mpr ⟨h.boards, List.nodup_singleton _, ?_⟩
      rintro a ha b hb rfl
      obtain ⟨p, hp, hname⟩ := List.mem_map.mp ha
      exact hnew p hp (hname.trans (List.mem_singleton.mp hb))
    · intro d hd other hscope
      obtain ⟨p, hp, hname⟩ := h.known d hd other hscope
      exact ⟨p, List.mem_append_left _ hp, hname⟩
  | @atModule v hnew htemp =>
    rw [Option.toList_some]
    refine ⟨?_, ?_, h.boards, ?_, h.keys_concat (h.globals ▸ hnew), ?_⟩
    · rw [of_append_same, ← h.globals]
    · intro p hp
      rw [of_append_other log v (by simp)]
      exact h.locals p hp
    · intro d hd name hscope
      rcases List.mem_append.mp hd with hd | hd
      · exact h.known d hd name hscope
      · rw [List.mem_singleton.mp hd] at hscope
        cases hscope
    · intro d hd
      rcases List.mem_append.mp hd with hd | hd
      · exact h.declared d hd
      · rw [List.mem_singleton.mp hd]
        exact htemp
  | @onBoard name held v hboard hnew htemp =>
    have hnames : (s.addLocal name v).locals.map Prod.fst = s.locals.map Prod.fst := by
      simp only [addLocal, List.map_map]
      refine List.map_congr_left fun p _ => ?_
      simp only [Function.comp_apply]
      split <;> rfl
    have hheld : held = of log (some name) := h.locals _ hboard
    rw [Option.toList_some]
    refine ⟨?_, ?_, hnames ▸ h.boards, ?_, h.keys_concat (hheld ▸ hnew), ?_⟩
    · rw [of_append_other log v (by simp)]
      exact h.globals
    · intro p hp
      obtain ⟨q, hq, rfl⟩ := List.mem_map.mp hp
      by_cases hname : q.1 = name
      · subst hname
        rw [if_pos rfl, of_append_same, ← h.locals q hq]
      · rw [if_neg hname, of_append_other log v (by simpa using Ne.symm hname)]
        exact h.locals q hq
    · intro d hd other hscope
      have hknown : other ∈ s.locals.map Prod.fst := by
        rcases List.mem_append.mp hd with hd | hd
        · obtain ⟨p, hp, rfl⟩ := h.known d hd other hscope
          exact List.mem_map_of_mem hp
        · rw [List.mem_singleton.mp hd] at hscope
          cases hscope
          exact List.mem_map_of_mem hboard
      rw [← hnames] at hknown
      exact List.mem_map.mp hknown
    · intro d hd
      rcases List.mem_append.mp hd with hd | hd
      · exact h.declared d hd
      · rw [List.mem_singleton.mp hd]
        exact htemp

/-- In one scope every name is declared once. -/
theorem sources_nodup (h : Records s log) (scope : Option String) :
    ((of log scope).map Variable.source).Nodup := by
  have hkeys : ((log.filter fun d => d.scope = scope).map Declaration.key).Nodup :=
    h.keys.sublist (List.filter_sublist.map _)
  have hpair : (log.filter fun d => d.scope = scope).map Declaration.key =
      ((of log scope).map Variable.source).map fun source => (scope, source) := by
    rw [of, List.map_map, List.map_map]
    refine List.map_congr_left fun d hd => ?_
    have hscope : d.scope = scope := by simpa using (List.mem_filter.mp hd).2
    rw [← hscope]
    rfl
  rw [hpair] at hkeys
  exact List.Nodup.of_map _ hkeys

end Records
end Symbols

/-- Whether an action is about the module as a whole, so that it does not matter which board a step
names. -/
def Action.wholeModule : Action → Bool
  | newBoard .. | hasBoard _ | text | validate | snapshotBytes | fingerprint | snapshot => true
  | _ => false

namespace Module

def symbols (m : Module) : Symbols := ⟨m.globals, m.boards.map fun b => (b.name, b.declared)⟩

def declaration? (m : Module) (step : Step) : Option Declaration :=
  match step.board, step.action with
  | none, .declare source kind flags =>
    (m.declareGlobal source kind flags).toOption.map fun made => ⟨none, made.1⟩
  | some name, .declare source kind flags =>
    (m.board? name).bind fun board =>
      (m.declareLocal board source kind flags).toOption.map fun made => ⟨some name, made.1⟩
  | some name, .declareParameter source kind flags =>
    (m.board? name).bind fun board =>
      (m.declareParameter board source kind flags).toOption.map fun made => ⟨some name, made.1⟩
  | _, _ => none

/-- The declarations that succeed while steps are applied, in their order. -/
def declarations (m : Module) : List Step → List Declaration
  | [] => []
  | step :: steps =>
    match m.apply step with
    | .ok (_, m') => (m.declaration? step).toList ++ m'.declarations steps
    | .error _ => m.declarations steps

theorem board?_eq_some {m : Module} {name : String} {board : Board}
    (h : m.board? name = some board) : board ∈ m.boards ∧ board.name = name := by
  refine ⟨List.mem_of_find?_eq_some h, ?_⟩
  simpa using List.find?_some h

theorem symbols_modifyBoard (m : Module) (name : String) {f : Board → Board}
    (hname : ∀ b, (f b).name = b.name) (hdeclared : ∀ b, (f b).declared = b.declared) :
    (m.modifyBoard name f).symbols = m.symbols := by
  have hboards : (m.modifyBoard name f).boards.map (fun b => (b.name, b.declared)) =
      m.boards.map fun b => (b.name, b.declared) := by
    rw [modifyBoard, List.map_map]
    refine List.map_congr_left fun b _ => ?_
    rw [Function.comp_apply]
    split
    · rw [hname, hdeclared]
    · rfl
  rw [symbols, hboards]
  rfl

theorem symbols_declare (m : Module) (name : String) {v : Variable} (htemp : v.temp = false) :
    (m.modifyBoard name (·.pushValue (.var v))).symbols = m.symbols.addLocal name v := by
  have hboards : (m.modifyBoard name (·.pushValue (.var v))).boards.map
      (fun b => (b.name, b.declared)) = (m.symbols.addLocal name v).locals := by
    rw [modifyBoard, symbols, Symbols.addLocal, List.map_map, List.map_map]
    refine List.map_congr_left fun b _ => ?_
    rw [Function.comp_apply, Function.comp_apply]
    by_cases hb : b.name = name
    · rw [if_pos hb, if_pos hb, b.declared_push_var v htemp]
      rfl
    · rw [if_neg hb, if_neg hb]
  rw [symbols, hboards]
  rfl

/-- A declaration on a board succeeds if its name is new there. -/
theorem declareIn_step {m m' : Module} {name scope source : String} {kind : Kind} {flags : Flags}
    {board : Board} {v : Variable} (hboard : m.board? name = some board)
    (h : m.declareIn board scope source kind flags = .ok (v, m')) :
    m.symbols.Step (some ⟨some name, v⟩) m'.symbols := by
  obtain ⟨hmem, rfl⟩ := board?_eq_some hboard
  unfold declareIn at h
  cases hlocal : board.local? source with
  | some w =>
    rw [hlocal] at h
    cases h
  | none =>
    rw [hlocal] at h
    cases h
    have hnew : ∀ w ∈ board.declared, w.source ≠ source := by
      intro w hw
      simpa using List.find?_eq_none.mp hlocal w hw
    have hstep := Symbols.Step.onBoard (s := m.symbols)
      (v := .declared source board.name scope m.counter kind flags)
      (List.mem_map_of_mem hmem) hnew rfl
    rw [← m.symbols_declare board.name rfl] at hstep
    exact hstep

theorem declareGlobal_step {m m' : Module} {source : String} {kind : Kind} {flags : Flags}
    {v : Variable} (h : m.declareGlobal source kind flags = .ok (v, m')) :
    m.symbols.Step (some ⟨none, v⟩) m'.symbols := by
  unfold declareGlobal at h
  cases hglobal : m.global? source with
  | some w =>
    rw [hglobal] at h
    cases h
  | none =>
    rw [hglobal] at h
    cases h
    have hnew : ∀ w ∈ m.globals, w.source ≠ source := by
      intro w hw
      simpa using List.find?_eq_none.mp hglobal w hw
    exact .atModule hnew rfl

theorem newBoard_step {m m' : Module} {name : String} {kind : Kind}
    (h : m.newBoard name kind = .ok m') : m.symbols.Step none m'.symbols := by
  unfold newBoard at h
  cases hboard : m.board? name with
  | some b =>
    rw [hboard] at h
    cases h
  | none =>
    rw [hboard] at h
    cases h
    have hnew : ∀ p ∈ m.symbols.locals, p.1 ≠ name := by
      intro p hp
      obtain ⟨b, hb, rfl⟩ := List.mem_map.mp hp
      simpa using List.find?_eq_none.mp hboard b hb
    have hboards : symbols { m with boards := m.boards ++ [{ name, kind }] } =
        { m.symbols with locals := m.symbols.locals ++ [(name, [])] } := by
      simp [symbols, Board.declared]
    rw [hboards]
    exact .board hnew

theorem onEnd_symbols (m : Module) (board : Board) {f : Board → Board}
    (hname : ∀ b, (f b).name = b.name) (hvalues : ∀ b, (f b).values = b.values) :
    (m.onEnd board f).2.symbols = m.symbols :=
  m.symbols_modifyBoard board.name hname fun b => by rw [Board.declared, hvalues, Board.declared]

theorem onSlot_symbols {m m' : Module} {board : Board} {slot : Int} {f : Slot → Option Slot}
    {answer : Answer} (h : m.onSlot board slot f = .ok (answer, m')) : m'.symbols = m.symbols := by
  obtain ⟨position, -, h⟩ := bind_eq_ok h
  obtain ⟨changed, -, h⟩ := bind_eq_ok h
  cases h
  exact m.symbols_modifyBoard board.name (fun _ => rfl) fun _ => rfl

theorem applyTo_step {m m' : Module} {name : String} {board : Board} {action : Action}
    {answer : Answer} (hboard : m.board? name = some board)
    (h : m.applyTo board action = .ok (answer, m')) :
    m.symbols.Step (m.declaration? ⟨some name, action⟩) m'.symbols := by
  cases action with
  | declare source kind flags =>
    obtain ⟨⟨v, made⟩, hmade, h⟩ := bind_eq_ok h
    cases h
    have hdeclare := mapError_eq_ok hmade
    have hlog : m.declaration? ⟨some name, .declare source kind flags⟩ = some ⟨some name, v⟩ := by
      simp [declaration?, hboard, hdeclare, Except.toOption]
    rw [hlog]
    exact declareIn_step hboard hdeclare
  | declareParameter source kind flags =>
    obtain ⟨⟨v, made⟩, hmade, h⟩ := bind_eq_ok h
    cases h
    have hdeclare := mapError_eq_ok hmade
    have hlog : m.declaration? ⟨some name, .declareParameter source kind flags⟩ =
        some ⟨some name, v⟩ := by
      simp [declaration?, hboard, hdeclare, Except.toOption]
    rw [hlog]
    exact declareIn_step hboard hdeclare
  | newTemporary stem kind =>
    cases h
    exact .of_eq (m.symbols_modifyBoard board.name (fun _ => rfl)
      fun b => b.declared_push_var_temp _ rfl)
  | newConstant kind literal =>
    cases h
    exact .of_eq (m.symbols_modifyBoard board.name (fun _ => rfl) fun b => b.declared_push_const _)
  | leaveUnset =>
    cases h
    refine .of_eq (m.symbols_modifyBoard board.name (fun _ => rfl) fun b => ?_)
    simp [Board.declared, Board.pushValue, Value.toVariable?]
  | newSlot =>
    cases h
    exact .of_eq (m.onEnd_symbols board (fun _ => rfl) fun _ => rfl)
  | lastSlot =>
    cases h
    exact .of_eq (m.onEnd_symbols board (fun _ => rfl) fun _ => rfl)
  | emit plan =>
    obtain ⟨item, -, h⟩ := bind_eq_ok h
    cases h
    exact .of_eq (m.onEnd_symbols board (fun _ => rfl) fun _ => rfl)
  | append slot plan => exact .of_eq (onSlot_symbols h)
  | setNext slot position next => exact .of_eq (onSlot_symbols h)
  | retarget slot target => exact .of_eq (onSlot_symbols h)
  | relabel slot label => exact .of_eq (onSlot_symbols h)
  | inspect slot =>
    obtain ⟨position, -, h⟩ := bind_eq_ok h
    obtain ⟨s, -, h⟩ := bind_eq_ok h
    cases h
    exact .keep
  | uniqueId | resolve _ _ | boardText =>
    cases h
    exact .keep
  | newBoard _ _ | hasBoard _ | text | validate | snapshotBytes | fingerprint | snapshot => cases h

theorem applyAlone_step {m m' : Module} {action : Action} {answer : Answer}
    (h : m.applyAlone action = .ok (answer, m')) :
    m.symbols.Step (m.declaration? ⟨none, action⟩) m'.symbols := by
  unfold applyAlone at h
  split at h
  · cases h
    exact .keep
  · rename_i source kind flags
    obtain ⟨⟨v, made⟩, hmade, h⟩ := bind_eq_ok h
    cases h
    have hdeclare := mapError_eq_ok hmade
    have hlog : m.declaration? ⟨none, .declare source kind flags⟩ = some ⟨none, v⟩ := by
      simp [declaration?, hdeclare, Except.toOption]
    rw [hlog]
    exact declareGlobal_step hdeclare
  · cases h

theorem apply_alone (m : Module) {action : Action} (h : action.wholeModule = false) :
    m.apply ⟨none, action⟩ = m.applyAlone action := by
  cases action <;> first | rfl | cases h

theorem apply_board {m : Module} {name : String} {board : Board}
    (hboard : m.board? name = some board) {action : Action} (h : action.wholeModule = false) :
    m.apply ⟨some name, action⟩ = m.applyTo board action := by
  unfold apply
  dsimp only
  rw [hboard]
  cases action <;> first | rfl | cases h

theorem apply_unknown {m : Module} {name : String} (hboard : m.board? name = none)
    (action : Action) : m.apply ⟨some name, action⟩ = .error .inapplicable := by
  unfold apply
  dsimp only
  rw [hboard]
  rfl

theorem apply_wholeModule {m : Module} {board : Option String}
    (hboard : ∀ name, board = some name → ∃ b, m.board? name = some b) {action : Action}
    (h : action.wholeModule = true) : m.apply ⟨board, action⟩ = m.apply ⟨none, action⟩ := by
  cases board with
  | none => rfl
  | some name =>
    obtain ⟨b, hb⟩ := hboard name rfl
    unfold apply
    dsimp only
    rw [hb]
    cases action <;> first | rfl | cases h

theorem apply_newBoard (m : Module) (name : String) (kind : Kind) :
    m.apply ⟨none, .newBoard name kind⟩ = (do
      let m' ← (m.newBoard name kind).mapError .redeclared
      return (.optional ((m'.board? name).map Board.text), m')) := rfl

theorem wholeModule_step {m m' : Module} {board : Option String} {action : Action}
    {answer : Answer} (haction : action.wholeModule = true)
    (h : m.apply ⟨none, action⟩ = .ok (answer, m')) :
    m.symbols.Step (m.declaration? ⟨board, action⟩) m'.symbols := by
  have hlog : m.declaration? ⟨board, action⟩ = none := by
    cases board <;> cases action <;> first | rfl | cases haction
  rw [hlog]
  cases action with
  | newBoard name kind =>
    rw [apply_newBoard] at h
    obtain ⟨made, hmade, h⟩ := bind_eq_ok h
    cases h
    exact newBoard_step (mapError_eq_ok hmade)
  | hasBoard _ | text | validate | snapshotBytes | fingerprint | snapshot =>
    cases h
    exact .keep
  | _ => cases haction

/-- A step that can be applied is about the module as a whole, or it stands alone, or it works on a
board that exists. -/
theorem apply_cases {m m' : Module} {step : Step} {answer : Answer}
    (h : m.apply step = .ok (answer, m')) :
    (step.action.wholeModule = true ∧ m.apply ⟨none, step.action⟩ = .ok (answer, m')) ∨
      (step.board = none ∧ m.applyAlone step.action = .ok (answer, m')) ∨
      ∃ name board, step.board = some name ∧ m.board? name = some board ∧
        m.applyTo board step.action = .ok (answer, m') := by
  obtain ⟨board, action⟩ := step
  have hboard : ∀ name, board = some name → ∃ b, m.board? name = some b := by
    rintro name rfl
    cases hname : m.board? name with
    | some b => exact ⟨b, rfl⟩
    | none =>
      rw [apply_unknown hname] at h
      cases h
  cases hwhole : action.wholeModule with
  | true =>
    rw [apply_wholeModule hboard hwhole] at h
    exact .inl ⟨rfl, h⟩
  | false =>
    cases board with
    | none =>
      rw [m.apply_alone hwhole] at h
      exact .inr (.inl ⟨rfl, h⟩)
    | some name =>
      obtain ⟨b, hb⟩ := hboard name rfl
      rw [apply_board hb hwhole] at h
      exact .inr (.inr ⟨name, b, rfl, hb, h⟩)

/-- A step that can be applied does to the table one of the things that a step can do. -/
theorem apply_step {m m' : Module} {step : Step} {answer : Answer}
    (h : m.apply step = .ok (answer, m')) :
    m.symbols.Step (m.declaration? step) m'.symbols := by
  obtain ⟨board, action⟩ := step
  rcases apply_cases h with ⟨hwhole, h⟩ | ⟨rfl, h⟩ | ⟨name, b, rfl, hb, h⟩
  · exact wholeModule_step hwhole h
  · exact applyAlone_step h
  · exact applyTo_step hb h

/-- Whatever steps are applied, the table holds what the declarations made on the way say. -/
theorem applyAll_records {m : Module} {log : List Declaration} (h : m.symbols.Records log)
    (steps : List Step) :
    (m.applyAll steps).2.symbols.Records (log ++ m.declarations steps) := by
  induction steps generalizing m log with
  | nil => simpa [applyAll, declarations] using h
  | cons step steps ih =>
    unfold applyAll declarations
    cases hstep : m.apply step with
    | error e => exact ih h
    | ok made =>
      have hrest := ih (h.step (apply_step hstep))
      rwa [List.append_assoc] at hrest

/-- The map of a module's variables. It is no part of the module: it is written only where a variable is
added to the list, so it is computed from that list, each variable being entered in its turn. -/
def entries (m : Module) : String → Option Variable :=
  m.globals.foldl (fun table v => Function.update table v.source (some v)) fun _ => none

def Refuses (m : Module) (step : Step) : Prop := ∃ r, m.apply step = .error (.redeclared r)

end Module

/-- Where keys are different, what is found under a key is what bears it. -/
theorem find?_key_eq_some {α : Type} {key : α → String} {xs : List α} (h : (xs.map key).Nodup)
    {k : String} {x : α} : (xs.find? fun y => key y = k) = some x ↔ x ∈ xs ∧ key x = k := by
  constructor
  · intro hfind
    exact ⟨List.mem_of_find?_eq_some hfind, by simpa using List.find?_some hfind⟩
  · rintro ⟨hx, rfl⟩
    cases hfind : xs.find? fun y => key y = key x with
    | none => exact absurd (List.find?_eq_none.mp hfind x hx) (by simp)
    | some y =>
      have hkey : key y = key x := by simpa using List.find?_some hfind
      rw [List.inj_on_of_nodup_map h (List.mem_of_find?_eq_some hfind) hx hkey]

theorem find?_source_eq_none {held : List Variable} {source : String} :
    (held.find? fun w => w.source = source) = none ↔ ∀ w ∈ held, w.source ≠ source := by
  simp

/-- Entering variables of different names into a map and scanning their list find the same. -/
theorem foldl_update_source {held : List Variable} (h : (held.map Variable.source).Nodup)
    (table : String → Option Variable) (source : String) :
    held.foldl (fun (table : String → Option Variable) v =>
        Function.update table v.source (some v)) table source =
      (held.find? fun w => w.source = source).or (table source) := by
  induction held generalizing table with
  | nil => rfl
  | cons v held ih =>
    obtain ⟨hv, hheld⟩ := List.nodup_cons.mp h
    rw [List.foldl_cons, ih hheld]
    by_cases hsource : v.source = source
    · have hnone : (held.find? fun w => w.source = source) = none := by
        rw [find?_source_eq_none]
        intro w hw hws
        exact hv (hsource.trans hws.symm ▸ List.mem_map_of_mem hw)
      rw [hnone, List.find?_cons_of_pos (by simpa using hsource), Option.none_or, Option.some_or,
        ← hsource, Function.update_self]
    · rw [List.find?_cons_of_neg (by simpa using hsource),
        Function.update_of_ne (Ne.symm hsource)]

namespace Symbols.Records

variable {m : Module} {log : List Declaration}

theorem board_declared (h : m.symbols.Records log) {board : Board} (hboard : board ∈ m.boards) :
    board.declared = of log (some board.name) :=
  h.locals (board.name, board.declared) (List.mem_map_of_mem hboard)

theorem board_names_nodup (h : m.symbols.Records log) : (m.boards.map Board.name).Nodup := by
  have hboards := h.boards
  rwa [Module.symbols, List.map_map] at hboards

theorem board?_of_mem (h : m.symbols.Records log) {board : Board} (hboard : board ∈ m.boards) :
    m.board? board.name = some board := by
  cases hfind : m.board? board.name with
  | none => exact absurd (List.find?_eq_none.mp hfind board hboard) (by simp)
  | some b =>
    obtain ⟨hb, hname⟩ := Module.board?_eq_some hfind
    rw [List.inj_on_of_nodup_map h.board_names_nodup hb hboard hname]

theorem local?_eq_some (h : m.symbols.Records log) {board : Board} (hboard : board ∈ m.boards)
    {source : String} {v : Variable} :
    board.local? source = some v ↔ ⟨some board.name, v⟩ ∈ log ∧ v.source = source := by
  rw [Board.local?, h.board_declared hboard, find?_key_eq_some (h.sources_nodup _), mem_of]

theorem local?_eq_none (h : m.symbols.Records log) {board : Board} (hboard : board ∈ m.boards)
    {source : String} :
    board.local? source = none ↔ ∀ w, ⟨some board.name, w⟩ ∈ log → w.source ≠ source := by
  simp only [Board.local?, h.board_declared hboard, find?_source_eq_none, mem_of]

theorem global?_eq_some (h : m.symbols.Records log) {source : String} {v : Variable} :
    m.global? source = some v ↔ ⟨none, v⟩ ∈ log ∧ v.source = source := by
  have hglobals : m.globals = of log none := h.globals
  rw [Module.global?, hglobals, find?_key_eq_some (h.sources_nodup _), mem_of]

/-- A name refers to the variable declared under it on the board, else to the one declared under it
at module scope. -/
theorem resolve?_eq_some (h : m.symbols.Records log) {board : Board} (hboard : board ∈ m.boards)
    {source : String} {v : Variable} :
    m.resolve? board source = some v ↔
      (⟨some board.name, v⟩ ∈ log ∧ v.source = source) ∨
      ((∀ w, ⟨some board.name, w⟩ ∈ log → w.source ≠ source) ∧
        ⟨none, v⟩ ∈ log ∧ v.source = source) := by
  rw [Module.resolve?, Option.or_eq_some_iff, h.local?_eq_some hboard, h.local?_eq_none hboard,
    h.global?_eq_some]

theorem entries_eq (h : m.symbols.Records log) (source : String) :
    m.entries source = m.global? source := by
  have hnodup : (m.globals.map Variable.source).Nodup := by
    have hglobals : m.globals = of log none := h.globals
    rw [hglobals]
    exact h.sources_nodup none
  rw [Module.entries, foldl_update_source hnodup, Option.or_none]
  rfl

/-- A declaration on a board is turned down if one of its name was made there. -/
theorem refuses_declareIn (h : m.symbols.Records log) {board : Board} (hboard : board ∈ m.boards)
    (scope source : String) (kind : Kind) (flags : Flags) :
    (∃ r, m.declareIn board scope source kind flags = .error r) ↔
      ∃ w, ⟨some board.name, w⟩ ∈ log ∧ w.source = source := by
  unfold Module.declareIn
  cases hlocal : board.local? source with
  | some w => exact ⟨fun _ => ⟨w, (h.local?_eq_some hboard).mp hlocal⟩, fun _ => ⟨_, rfl⟩⟩
  | none =>
    constructor
    · rintro ⟨r, hr⟩
      cases hr
    · rintro ⟨w, hw, hsource⟩
      exact absurd hsource ((h.local?_eq_none hboard).mp hlocal w hw)

theorem refuses_declareGlobal (h : m.symbols.Records log) (source : String) (kind : Kind)
    (flags : Flags) :
    (∃ r, m.declareGlobal source kind flags = .error r) ↔
      ∃ w, ⟨none, w⟩ ∈ log ∧ w.source = source := by
  unfold Module.declareGlobal
  cases hglobal : m.global? source with
  | some w => exact ⟨fun _ => ⟨w, h.global?_eq_some.mp hglobal⟩, fun _ => ⟨_, rfl⟩⟩
  | none =>
    constructor
    · rintro ⟨r, hr⟩
      cases hr
    · rintro ⟨w, hw⟩
      rw [h.global?_eq_some.mpr hw] at hglobal
      cases hglobal

end Symbols.Records

namespace Module

theorem refuses_newBoard (m : Module) (name : String) (kind : Kind) :
    (∃ r, m.newBoard name kind = .error r) ↔ ∃ b ∈ m.boards, b.name = name := by
  unfold newBoard
  cases hboard : m.board? name with
  | some b => exact ⟨fun _ => ⟨b, board?_eq_some hboard⟩, fun _ => ⟨_, rfl⟩⟩
  | none =>
    constructor
    · rintro ⟨r, hr⟩
      cases hr
    · rintro ⟨b, hb, hname⟩
      exact absurd hname (by simpa using List.find?_eq_none.mp hboard b hb)

/-- A step that starts with a declaration is turned down if the declaration is. -/
theorem refuses_iff {α : Type} {m : Module} {step : Step} {x : Except Redeclaration α}
    {answer : α → Answer × Module} (h : m.apply step = x.mapError .redeclared >>= (pure ∘ answer)) :
    m.Refuses step ↔ ∃ r, x = .error r := by
  unfold Refuses
  rw [h]
  cases x with
  | error r => exact ⟨fun _ => ⟨r, rfl⟩, fun _ => ⟨r, rfl⟩⟩
  | ok a =>
    constructor
    · rintro ⟨r, hr⟩
      cases hr
    · rintro ⟨r, hr⟩
      cases hr

theorem applyAll_of_error {m : Module} {step : Step} {e : StepError} (h : m.apply step = .error e) :
    (m.applyAll [step]).2 = m := by
  simp [applyAll, h]

end Module

/-- After any steps on an empty module, every name has at most one successful declaration in each
scope. On every board a name refers to the variable that was declared under it there, else to the one
declared under it at module scope, else to nothing; a temporary is never found. The map of the
module's variables and the scans of the lists find their only entry. A declaration is turned down if
its name was declared in its scope before, a board if its name is taken, and a step that fails leaves
the module as it is. The last part rests on the type of `Module.apply`: a step that fails has no module
in its result, so the run goes on from the one that it had. -/
theorem names_resolve_to_only_declaration (name : String) (steps : List Step) :
    let m := (Module.applyAll { name } steps).2
    let log := Module.declarations { name } steps
    (log.map Declaration.key).Nodup ∧
      (∀ board ∈ m.boards, ∀ source v, m.resolve? board source = some v ↔
        (⟨some board.name, v⟩ ∈ log ∧ v.source = source) ∨
        ((∀ w, ⟨some board.name, w⟩ ∈ log → w.source ≠ source) ∧
          ⟨none, v⟩ ∈ log ∧ v.source = source)) ∧
      (∀ board ∈ m.boards, ∀ source v, m.resolve? board source = some v → v.temp = false) ∧
      ((m.globals.map Variable.source).Nodup ∧ ∀ source, m.entries source = m.global? source) ∧
      (∀ board ∈ m.boards, (board.declared.map Variable.source).Nodup) ∧
      (∀ board ∈ m.boards, ∀ source kind flags,
        (m.Refuses ⟨some board.name, .declare source kind flags⟩ ↔
          ∃ w, ⟨some board.name, w⟩ ∈ log ∧ w.source = source) ∧
        (m.Refuses ⟨some board.name, .declareParameter source kind flags⟩ ↔
          ∃ w, ⟨some board.name, w⟩ ∈ log ∧ w.source = source)) ∧
      (∀ source kind flags, m.Refuses ⟨none, .declare source kind flags⟩ ↔
        ∃ w, ⟨none, w⟩ ∈ log ∧ w.source = source) ∧
      (∀ name kind, m.Refuses ⟨none, .newBoard name kind⟩ ↔ ∃ b ∈ m.boards, b.name = name) ∧
      ∀ step e, m.apply step = .error e → (m.applyAll [step]).2 = m := by
  intro m log
  have h : m.symbols.Records log := by
    have hrun := Module.applyAll_records (m := { name }) Symbols.Records.empty steps
    rwa [List.nil_append] at hrun
  have hglobals : m.globals = Symbols.of log none := h.globals
  refine ⟨h.keys, ?_, ?_, ⟨?_, h.entries_eq⟩, ?_, ?_, ?_, ?_, ?_⟩
  · intro board hboard source v
    exact h.resolve?_eq_some hboard
  · intro board hboard source v hv
    rcases (h.resolve?_eq_some hboard).mp hv with ⟨hmem, -⟩ | ⟨-, hmem, -⟩
    · exact h.declared _ hmem
    · exact h.declared _ hmem
  · rw [hglobals]
    exact h.sources_nodup none
  · intro board hboard
    rw [h.board_declared hboard]
    exact h.sources_nodup _
  · intro board hboard source kind flags
    have hfound := h.board?_of_mem hboard
    constructor
    · rw [← h.refuses_declareIn hboard board.name source kind flags]
      exact Module.refuses_iff (Module.apply_board hfound rfl)
    · rw [← h.refuses_declareIn hboard m.name source kind flags]
      exact Module.refuses_iff (Module.apply_board hfound rfl)
  · intro source kind flags
    rw [← h.refuses_declareGlobal source kind flags]
    exact Module.refuses_iff (m.apply_alone rfl)
  · intro name kind
    rw [← m.refuses_newBoard name kind]
    exact Module.refuses_iff (m.apply_newBoard name kind)
  · intro step e he
    exact Module.applyAll_of_error he

-- a temporary and a constant are not found by the names that they bear
example :
    let m := (Module.applyAll { name := "demo" } [⟨none, .newBoard "f" .int⟩,
      ⟨some "f", .newTemporary "x" .int⟩, ⟨some "f", .newConstant .int "1"⟩]).2
    m.boards.map (fun b => (b.values.map Value.name, m.resolve? b "x_f_0",
      m.resolve? b "constant_f_1")) = [(["x_f_0", "constant_f_1"], none, none)] := by
  decide +kernel

end SlotBoard
