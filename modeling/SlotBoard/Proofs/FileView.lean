import SlotBoard.Files.Basic
import SlotBoard.Proofs.Path

/-!
Programs that only look at a file system. A file system is whatever answers their questions; nothing is
assumed about the answers, except that the working directory is given from the root. A survey is such
a program: it has a result on every file system, and it keeps count of the paths whose kind it asks for.
-/
namespace SlotBoard

/-- A file system, as a program sees it that changes nothing. -/
structure FileView where
  workingDirectory : String
  kind : String → Except FileFault FileKind
  read : String → Except FileError Bytes
  names : String → List String
  rooted : Path.isAbsolute workingDirectory = true

def FileView.has (v : FileView) (path : String) : Bool := (v.kind path).isOk

/-- Listings and questions agree: below a directory stands what it lists, each name once, and below
anything else nothing stands. -/
structure FileView.Consistent (v : FileView) : Prop where
  nodup {place : List String} : Path.IsPlace place → (v.names (Path.rooted place)).Nodup
  isName {place : List String} {n : String} : Path.IsPlace place → n ∈ v.names (Path.rooted place) →
    Path.IsName n
  has_iff {place : List String} {n : String} : Path.IsPlace place → Path.IsName n →
    (v.has (Path.rooted (place ++ [n])) = true ↔
      v.kind (Path.rooted place) = .ok .directory ∧ n ∈ v.names (Path.rooted place))

/-- A program that changes nothing: what it returns, and the paths whose kind it asks for on the way. -/
structure Survey (α : Type) where
  run : FileView → α × List String

namespace Survey

variable {α β : Type}

def answer (x : Survey α) (v : FileView) : α := (x.run v).1

def asked (x : Survey α) (v : FileView) : List String := (x.run v).2

instance : Monad Survey where
  pure a := ⟨fun _ => (a, [])⟩
  bind x f := ⟨fun v => ((f (x.answer v)).answer v, x.asked v ++ (f (x.answer v)).asked v)⟩

instance : MonadFiles Survey where
  workingDirectory := ⟨fun v => (v.workingDirectory, [])⟩
  kind path := ⟨fun v => (v.kind path, [path])⟩
  read path := ⟨fun v => (v.read path, [])⟩
  names path := ⟨fun v => (v.names path, [])⟩
  makeDirectory _ := ⟨fun _ => (.error (.other "read-only file system"), [])⟩
  write path _ := ⟨fun _ => (.error ⟨"open", path, .other "read-only file system"⟩, [])⟩

@[simp] theorem answer_pure (a : α) (v : FileView) : (pure a : Survey α).answer v = a := rfl

@[simp] theorem asked_pure (a : α) (v : FileView) : (pure a : Survey α).asked v = [] := rfl

@[simp] theorem answer_bind (x : Survey α) (f : α → Survey β) (v : FileView) :
    (x >>= f).answer v = (f (x.answer v)).answer v := rfl

@[simp] theorem asked_bind (x : Survey α) (f : α → Survey β) (v : FileView) :
    (x >>= f).asked v = x.asked v ++ (f (x.answer v)).asked v := rfl

@[simp] theorem answer_workingDirectory (v : FileView) :
    (MonadFiles.workingDirectory : Survey String).answer v = v.workingDirectory := rfl

@[simp] theorem asked_workingDirectory (v : FileView) :
    (MonadFiles.workingDirectory : Survey String).asked v = [] := rfl

@[simp] theorem answer_kind (path : String) (v : FileView) :
    (MonadFiles.kind path : Survey _).answer v = v.kind path := rfl

@[simp] theorem asked_kind (path : String) (v : FileView) :
    (MonadFiles.kind path : Survey _).asked v = [path] := rfl

@[simp] theorem answer_exist (path : String) (v : FileView) :
    (Files.exist path : Survey Bool).answer v = v.has path := by
  rw [Files.exist, answer_bind, answer_kind, FileView.has]
  cases v.kind path <;> rfl

@[simp] theorem asked_exist (path : String) (v : FileView) :
    (Files.exist path : Survey Bool).asked v = [path] := by
  rw [Files.exist, asked_bind, asked_kind, answer_kind]
  cases v.kind path <;> rfl

end Survey
end SlotBoard
