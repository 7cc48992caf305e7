import SlotBoard.Proofs.Appending
import SlotBoard.Proofs.CommandRun
import SlotBoard.Proofs.Log
import SlotBoard.Proofs.Session

/-!
The command line and the editor on one document. The one reads it from a file and lowers it in a run of its
own, the other is handed its text; the module is named after the file by the one and after the address by
the other. Where these names agree, so does all that is reported and shown.
-/
namespace SlotBoard

def Notice.Tells (module : String) (notice : Notice) (f : Finding) : Prop :=
  ∃ d, notice = .diagnostic module d ∧ f = .reported d ∧
    notice.text = module ++ ": " ++ f.message ++ "\n" ∧
    f.severity = if d.kind = .unsupportedOperator then .warning else .error

theorem Notice.tells_map (module : String) (ds : List Diagnostic) :
    List.Forall₂ (Notice.Tells module) (ds.map (.diagnostic module)) (ds.map .reported) := by
  induction ds with
  | nil => exact .nil
  | cons d ds ih => exact .cons ⟨d, rfl, rfl, rfl, rfl⟩ ih

theorem Path.unitName_eq_of_base_eq {path other : String} (h : base path = base other) :
    unitName path = unitName other := by
  rw [unitName, unitName, h]

namespace Report

theorem ofError_inj {e e' : CommandError} (h : ofError e = ofError e') : e = e' := by
  have hnotices : [Notice.failure e] = [Notice.failure e'] := congrArg Report.notices h
  exact Notice.failure.inj (List.cons.inj hnotices).1

/-- A finished run is no failure, whatever was reported. -/
theorem ofLowering_ne_ofError (l : Lowering) (artifact : Option Artifact) (output : String)
    (e : CommandError) : ofLowering l artifact output ≠ ofError e := by
  intro h
  have hstatus : (if l.diagnostics.isEmpty then ExitStatus.success else .diagnostics) = .failure :=
    congrArg Report.status h
  split_ifs at hstatus

/-- The exit status tells whether there are diagnostics. -/
theorem code_ofLowering (l : Lowering) (artifact : Option Artifact) (output : String) :
    (ofLowering l artifact output).status.code = if l.diagnostics.isEmpty then 0 else 2 := by
  rw [ofLowering]
  dsimp only
  split_ifs
  · rfl
  · rfl

end Report

namespace Analysis

variable {uri : String} {text : Bytes}

theorem findings_ofText_error (aliases : Kind.Aliases) {e : DocumentError}
    (h : SourceUnit.decode .json (Path.unitName uri) text = .error e) :
    (ofText aliases uri text).findings = [.unread (.document (Path.unitName uri) e)] := by
  rw [findings, ofText, h]
  rfl

theorem outcome_ofText_ok (aliases : Kind.Aliases) {u : SourceUnit}
    (h : SourceUnit.decode .json (Path.unitName uri) text = .ok u) :
    (ofText aliases uri text).outcome = .ok ((Lowering.start (Path.unitName uri) aliases).unit u) := by
  rw [ofText, h]
  rfl

end Analysis

namespace EditorSession

variable {s : EditorSession} {uri : String} {text : Bytes}

theorem handle_opened (s : EditorSession) (uri : String) (text : Bytes) :
    (s.handle (.opened uri text)).2 = some ⟨uri, (Analysis.ofText s.aliases uri text).findings⟩ := rfl

/-- The text of a document that has just been opened. -/
theorem execute_show_opened {l : Lowering} (h : (Analysis.ofText s.aliases uri text).outcome = .ok l) :
    (s.handle (.opened uri text)).1.execute showCommand [.text uri] = .ok l.module.text := by
  change (s.update uri text).1.showModule uri = _
  rw [showModule, document?_update, if_pos rfl]
  dsimp only
  rw [h]

end EditorSession

/-- Where there is no manifest, the command line that prints a document and an editor that opens it under an
address with the same last element come to the same. The one fails to read the document exactly if the
other publishes that it cannot be read, and then both report that error and nothing else. Otherwise what is
printed is what the editor shows, both report the same diagnostics in the same order, and the exit status
tells whether there are any. -/
theorem command_line_agrees_with_editor (stamps : MonadStamp (StateM FileTree)) {t : FileTree}
    {path uri : String} {text : Bytes} {s : EditorSession} (hread : t.read path = .ok text)
    (hformat : Fold.same (Path.extension path) ".cbor" = false)
    (hmanifest : (Manifest.find t.workingDirectory : StateM FileTree _).run t = (.ok none, t))
    (huri : Path.base uri = Path.base path) (haliases : s.aliases = []) :
    ∃ r p, (Invocation.perform { output := "-", inputs := [path] } : StateM FileTree _).run t =
        (.done r, t) ∧
      (s.handle (.opened uri text)).2 = some p ∧
      ((∃ e, r = .ofError (.source e)) ↔ ∃ e, .unread e ∈ p.findings) ∧
      (∀ e, r = .ofError (.source e) → p.findings = [.unread e]) ∧
      ((∀ e, r ≠ .ofError (.source e)) →
        (s.handle (.opened uri text)).1.execute EditorSession.showCommand [.text uri] =
            .ok r.output ∧
          List.Forall₂ (Notice.Tells (Path.unitName path)) r.notices p.findings ∧
          (r.status.code = 2 ↔ p.findings ≠ []) ∧ (r.status.code = 0 ↔ p.findings = [])) := by
  have hjson : DocumentFormat.ofPath path = .json := by
    rw [DocumentFormat.ofPath, hformat]
    rfl
  have hname : Path.unitName uri = Path.unitName path := Path.unitName_eq_of_base_eq huri
  have hunit := FileTree.unitAt_of_read hread
  have hrun := Invocation.run_perform_printing path hmanifest
  rw [Config.run_eq_proceed] at hrun
  rw [hjson, ← hname] at hunit
  cases hdecode : SourceUnit.decode .json (Path.unitName uri) text with
  | error e =>
    have hinputs : (Config.printing path).inputs.mapM t.unitAt =
        .error (.document (Path.unitName uri) e) := by
      rw [Config.printing, List.mapM_cons, hunit, hdecode]
      rfl
    have hfindings := Analysis.findings_ofText_error s.aliases hdecode
    rw [hinputs] at hrun
    refine ⟨_, _, hrun, s.handle_opened uri text, ?_, ?_, ?_⟩
    · rw [hfindings]
      exact ⟨fun _ => ⟨_, List.mem_cons_self⟩, fun _ => ⟨_, rfl⟩⟩
    · intro other hother
      rw [hfindings, CommandError.source.inj (Report.ofError_inj hother)]
    · intro hread
      exact absurd rfl (hread _)
  | ok u =>
    let l := (Lowering.start (Path.unitName path) []).unit u
    have hinputs : (Config.printing path).inputs.mapM t.unitAt = .ok [u] := by
      rw [Config.printing, List.mapM_cons, hunit, hdecode]
      rfl
    have houtcome : (Analysis.ofText s.aliases uri text).outcome = .ok l := by
      rw [Analysis.outcome_ofText_ok s.aliases hdecode, haliases, hname]
    have hfindings : (Analysis.ofText s.aliases uri text).findings = l.diagnostics.map .reported := by
      rw [Analysis.findings, houtcome]
    have hmodule : l.module.name = Path.unitName path := (Lowering.unit_appends _ u).name
    rw [hinputs, Config.proceed_printing rfl rfl [u] t] at hrun
    refine ⟨.ofLowering l none l.module.text, _, hrun, s.handle_opened uri text, ?_, ?_, ?_⟩
    · constructor
      · rintro ⟨e, he⟩
        exact absurd he (Report.ofLowering_ne_ofError l none _ _)
      · rintro ⟨e, he⟩
        simp [hfindings] at he
    · intro e he
      exact absurd he (Report.ofLowering_ne_ofError l none _ _)
    · intro _
      refine ⟨EditorSession.execute_show_opened houtcome, ?_, ?_⟩
      · rw [hfindings, Report.ofLowering, hmodule, Option.toList_none, List.map_nil, List.append_nil]
        exact Notice.tells_map (Path.unitName path) l.diagnostics
      · rw [hfindings, Report.code_ofLowering]
        cases l.diagnostics with
        | nil => simp
        | cons d ds => simp

/-- A document in the working directory, whose name has two extensions, and the same text in an editor under
an address elsewhere. -/
theorem document_elsewhere_agrees :
    let text := Utf8.encode "\x7b\"kind\": \"FileAST\", \"ext\": [\x7b\"kind\": \"Pragma\"\x7d]\x7d"
    let path := "a.ast.json"
    let uri := "file:///elsewhere/a.ast.json"
    let t : FileTree := {
      here := ["work"]
      entries := [(["work"], .directory), (["work", path], .file text)] }
    let stamps : MonadStamp (StateM FileTree) := ⟨pure ⟨"1", 0⟩, fun _ => pure ""⟩
    let s : EditorSession := {}
    ∃ r p, (@Invocation.perform (StateM FileTree) _ _ _ stamps { output := "-", inputs := [path] }).run t =
        (.done r, t) ∧
      (s.handle (.opened uri text)).2 = some p ∧
      ((∃ e, r = .ofError (.source e)) ↔ ∃ e, .unread e ∈ p.findings) ∧
      ((∀ e, r ≠ .ofError (.source e)) →
        (s.handle (.opened uri text)).1.execute EditorSession.showCommand [.text uri] =
            .ok r.output ∧
          List.Forall₂ (Notice.Tells "a") r.notices p.findings) := by
  intro text path uri t stamps s
  have hread : t.read path = .ok text := eq_ok_of_toOption (by decide +kernel)
  have hmanifest : (Manifest.find t.workingDirectory : StateM FileTree _).run t = (.ok none, t) :=
    run_eq_ok (by decide +kernel) (by decide +kernel)
  have huri : Path.base uri = Path.base path := by decide +kernel
  have hname : Path.unitName path = "a" := by decide +kernel
  have haliases : s.aliases = [] := rfl
  obtain ⟨r, p, hrun, hpublished, hiff, -, hagree⟩ := command_line_agrees_with_editor stamps hread
    (by decide +kernel) hmanifest huri haliases
  rw [hname] at hagree
  exact ⟨r, p, hrun, hpublished, hiff, fun hr => ⟨(hagree hr).1, (hagree hr).2.1⟩⟩

end SlotBoard
