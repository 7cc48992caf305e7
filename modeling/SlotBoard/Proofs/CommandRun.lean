import SlotBoard.Proofs.FileTree
import SlotBoard.Proofs.Validity

/-!
A run of the command line on a file tree. Reading the inputs leaves the tree as it is, and everything that
a run writes, it writes after they have all been read: what it does then depends on the tree and on the
units that were found.
-/
namespace SlotBoard

open FileTree

variable {t : FileTree} {path : String}

def FileTree.unitAt (t : FileTree) (path : String) : Except SourceError SourceUnit :=
  ((SourceUnit.decodeFile path : StateM FileTree _).run t).1

theorem run_read (path : String) (t : FileTree) :
    (MonadFiles.read path : StateM FileTree _).run t = (t.read path, t) := rfl

namespace SourceUnit

theorem run_decodeFile (path : String) (t : FileTree) :
    (decodeFile path : StateM FileTree _).run t = (t.unitAt path, t) := by
  refine Prod.ext rfl ?_
  rw [decodeFile, run_bind_of (run_read path t)]
  cases t.read path <;> rfl

/-- The units of the inputs, or the error of the first one that has none. -/
theorem run_decodeFiles (paths : List String) (t : FileTree) :
    (decodeFiles paths : StateM FileTree _).run t = (paths.mapM t.unitAt, t) := by
  induction paths with
  | nil => rfl
  | cons path paths ih =>
    rw [decodeFiles, run_bind_of (run_decodeFile path t), List.mapM_cons]
    cases t.unitAt path with
    | error e => rfl
    | ok u =>
      dsimp only
      rw [run_bind_of ih]
      cases paths.mapM t.unitAt <;> rfl

end SourceUnit

theorem FileTree.unitAt_of_read {text : Bytes} (h : t.read path = .ok text) :
    t.unitAt path = (SourceUnit.decode (.ofPath path) (Path.unitName path) text).mapError
      (.document (Path.unitName path)) := by
  rw [unitAt, SourceUnit.decodeFile, run_bind_of (run_read path t), h]
  rfl

namespace Config

variable [MonadStamp (StateM FileTree)]

def proceed (c : Config) : Except SourceError (List SourceUnit) → StateM FileTree Report
  | .error e => return .ofError (.source e)
  | .ok units => do
    let l := units.foldl Lowering.unit (.start c.name c.aliases)
    match ← c.writeText l.module.text with
    | .error e => return .ofError e
    | .ok output =>
      match ← c.archive l with
      | .error e => return .cutShort output e
      | .ok artifact => return .ofLowering l artifact output

theorem run_eq_proceed (c : Config) (t : FileTree) :
    (c.run : StateM FileTree _).run t = (c.proceed (c.inputs.mapM t.unitAt)).run t := by
  have hlower : (c.lower : StateM FileTree _).run t =
      ((match c.inputs.mapM t.unitAt with
        | .error e => .error (.source e)
        | .ok units => .ok (units.foldl Lowering.unit (.start c.name c.aliases))), t) := by
    rw [c.lower_eq, run_bind_of (SourceUnit.run_decodeFiles c.inputs t)]
    cases c.inputs.mapM t.unitAt <;> rfl
  rw [run, run_bind_of hlower]
  cases c.inputs.mapM t.unitAt <;> rfl

/-- A run that prints its text and archives nothing leaves the tree as it is. -/
theorem proceed_printing {c : Config} (houtput : c.output = "-") (hstore : c.store = "")
    (units : List SourceUnit) (t : FileTree) :
    let l := units.foldl Lowering.unit (.start c.name c.aliases)
    (c.proceed (.ok units)).run t = (.ofLowering l none l.module.text, t) := by
  intro l
  have hwrite : (c.writeText l.module.text : StateM FileTree _).run t = (.ok l.module.text, t) := by
    rw [writeText, if_pos houtput]
    rfl
  have harchive : (c.archive l : StateM FileTree _).run t = (.ok none, t) := by
    rw [archive, if_pos hstore]
    rfl
  rw [proceed, run_bind_of hwrite]
  exact run_bind_of harchive

end Config

def Config.printing (path : String) : Config :=
  { name := Path.unitName path
    output := "-"
    inputs := [path]
    aliases := []
    check := false
    store := ""
    verbosity := 0
    logPath := none }

theorem Config.run_resolve_printing (path : String) (t : FileTree) :
    (resolve { output := "-" } [path] none false : StateM FileTree _).run t =
      (.ok (printing path), t) := by
  have hnamed : (ofOptions { output := "-" } [path]).named = printing path := rfl
  have houtput : (printing path).forLowering = .ok (printing path) := rfl
  rw [resolve, pure_bind]
  dsimp only
  rw [if_neg Bool.false_ne_true, hnamed, houtput]
  rfl

/-- An invocation that names one input and asks for its text to be printed, where there is no
manifest. -/
theorem Invocation.run_perform_printing [MonadStamp (StateM FileTree)] (path : String) {t : FileTree}
    (hmanifest : (Manifest.find t.workingDirectory : StateM FileTree _).run t = (.ok none, t)) :
    (perform { output := "-", inputs := [path] } : StateM FileTree _).run t =
      (((Config.printing path).run : StateM FileTree _).run t).map .done id := by
  have hhere : (MonadFiles.workingDirectory : StateM FileTree _).run t = (t.workingDirectory, t) := rfl
  have hconfig : (config { output := "-", inputs := [path] } : StateM FileTree _).run t =
      (.ok (.printing path), t) := by
    rw [config, run_bind_of hhere, run_bind_of hmanifest]
    exact Config.run_resolve_printing path t
  rw [perform, run_bind_of hconfig]
  rfl

end SlotBoard
