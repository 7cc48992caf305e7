import Mathlib.Tactic.SplitIfs
import SlotBoard.Files.Tree
import SlotBoard.Proofs.Path

/-!
What stays in a file tree. Entries are only added or put in the place of files, so a directory remains
one, and a path that leads somewhere still leads there. Hence a directory that has been made is found
by its path, and what a file was given is read from it.
-/
namespace SlotBoard

/-- What a table holds once a key has been taken out of it. -/
theorem lookup_filter_ne {α β : Type} [BEq α] [LawfulBEq α] [DecidableEq α] (entries : List (α × β))
    (key other : α) :
    (entries.filter (·.1 ≠ key)).lookup other = if other = key then none else entries.lookup other := by
  induction entries with
  | nil => simp
  | cons e entries ih =>
    by_cases he : e.1 = key
    · rw [List.filter_cons_of_neg (by simpa using he), ih, List.lookup_cons, he]
      by_cases hother : other = key
      · rw [if_pos hother, if_pos hother]
      · rw [beq_false_of_ne hother]
    · rw [List.filter_cons_of_pos (by simpa using he), List.lookup_cons, List.lookup_cons, ih]
      by_cases hother : other = key
      · have hne : (other == e.1) = false := beq_false_of_ne (hother ▸ Ne.symm he)
        rw [hne, if_pos hother]
      · rw [if_neg hother, if_neg hother]

namespace FileTree

theorem withoutSlashes_eq {path : String} (h : path.toList.getLast? ≠ some '/') :
    withoutSlashes path = path := by
  have hdrop : path.toList.reverse.dropWhile (· = '/') = path.toList.reverse := by
    rw [List.getLast?_eq_head?_reverse] at h
    cases hcs : path.toList.reverse with
    | nil => rfl
    | cons c cs =>
      rw [hcs] at h
      exact List.dropWhile_cons_of_neg (by simpa using h)
  rw [withoutSlashes, hdrop, List.reverse_reverse, String.ofList_toList]

/-- Directories of the earlier tree are directories of the later one, and the working directory is the
same. -/
structure KeepsDirectories (t u : FileTree) : Prop where
  here : u.here = t.here
  directories : ∀ place, t.entry? place = some .directory → u.entry? place = some .directory

namespace KeepsDirectories

variable {t u v : FileTree}

theorem refl (t : FileTree) : t.KeepsDirectories t := ⟨rfl, fun _ h => h⟩

theorem trans (htu : t.KeepsDirectories u) (huv : u.KeepsDirectories v) : t.KeepsDirectories v :=
  ⟨huv.here.trans htu.here, fun place h => huv.directories place (htu.directories place h)⟩

theorem workingDirectory (h : t.KeepsDirectories u) : u.workingDirectory = t.workingDirectory := by
  unfold FileTree.workingDirectory
  rw [h.here]

theorem follow (h : t.KeepsDirectories u) {place stop : List String} {pieces : List String}
    (hstop : t.follow place pieces = .ok stop) : u.follow place pieces = .ok stop := by
  induction pieces generalizing place with
  | nil => exact hstop
  | cons piece pieces ih =>
    rw [FileTree.follow] at hstop
    rw [FileTree.follow]
    cases hentry : t.entry? place with
    | none => simp [hentry] at hstop
    | some entry =>
      cases entry with
      | file content => simp [hentry] at hstop
      | archive a => simp [hentry] at hstop
      | directory =>
        rw [h.directories place hentry]
        rw [hentry] at hstop
        dsimp only at hstop ⊢
        split_ifs at hstop ⊢ with hpiece hup hlong
        · exact ih hstop
        · exact ih hstop
        · exact ih hstop

theorem resolve (h : t.KeepsDirectories u) {path : String} {place : List String}
    (hplace : t.resolve path = .ok place) : u.resolve path = .ok place := by
  unfold FileTree.resolve at hplace ⊢
  rw [h.here]
  split_ifs at hplace ⊢
  · exact h.follow hplace
  · exact h.follow hplace

end KeepsDirectories

variable {t u : FileTree} {place : List String} {path : String}

theorem entry?_set_self (t : FileTree) (entry : FileEntry) (h : place ≠ []) :
    entry? (t.set place entry) place = some entry := by
  unfold entry? set
  rw [if_neg h, List.lookup_append, lookup_filter_ne, if_pos rfl]
  simp

theorem entry?_set_ne (t : FileTree) (entry : FileEntry) {other : List String} (h : other ≠ place) :
    entry? (t.set place entry) other = t.entry? other := by
  have hlast : [(place, entry)].lookup other = none := by
    rw [List.lookup_cons, beq_false_of_ne h]
    rfl
  unfold entry? set
  rw [List.lookup_append, lookup_filter_ne, if_neg h, hlast, Option.or_none]

/-- A new entry may stand anywhere but in the place of a directory. -/
theorem set_keepsDirectories (h : t.entry? place ≠ some .directory) (entry : FileEntry) :
    t.KeepsDirectories (t.set place entry) where
  here := rfl
  directories other hother := by
    have hne : other ≠ place := by
      rintro rfl
      exact h hother
    rw [entry?_set_ne t entry hne, hother]

theorem ne_nil_of_not_directory (h : t.entry? place ≠ some .directory) : place ≠ [] := by
  rintro rfl
  exact h rfl

theorem kind_eq_directory_iff :
    t.kind path = .ok .directory ↔
      ∃ place, t.resolve path = .ok place ∧ t.entry? place = some .directory := by
  unfold kind
  cases hplace : t.resolve path with
  | error fault => simp [bind, Except.bind]
  | ok place =>
    simp only [bind, Except.bind, Except.ok.injEq, exists_eq_left']
    cases t.entry? place with
    | none => simp
    | some entry => cases entry <;> simp

theorem KeepsDirectories.kind (h : t.KeepsDirectories u) (hpath : t.kind path = .ok .directory) :
    u.kind path = .ok .directory := by
  obtain ⟨place, hplace, hentry⟩ := kind_eq_directory_iff.mp hpath
  exact kind_eq_directory_iff.mpr ⟨place, h.resolve hplace, h.directories place hentry⟩

theorem entryAt_eq_ok_iff {entry : FileEntry} :
    t.entryAt path = .ok entry ↔
      ∃ place, t.resolve path = .ok place ∧ t.entry? place = some entry := by
  unfold entryAt
  cases t.resolve path with
  | error fault => simp
  | ok place =>
    simp only [Except.ok.injEq, exists_eq_left']
    cases t.entry? place <;> simp

/-- What a path was given stands there afterwards. -/
theorem replace_ok {entry : FileEntry} (h : t.replace path entry = .ok u) :
    t.KeepsDirectories u ∧ u.entryAt path = .ok entry := by
  unfold replace at h
  cases hplace : t.resolve path with
  | error fault => simp [hplace] at h
  | ok place =>
    rw [hplace] at h
    have hfree : t.entry? place ≠ some .directory := by
      intro hdirectory
      simp [hdirectory] at h
    have hu : u = t.set place entry := by
      dsimp only at h
      split at h
      · cases h
      · exact (Except.ok.inj h).symm
    subst hu
    have hkeeps := set_keepsDirectories hfree entry
    refine ⟨hkeeps, entryAt_eq_ok_iff.mpr ⟨place, hkeeps.resolve hplace, ?_⟩⟩
    exact entry?_set_self t entry (ne_nil_of_not_directory hfree)

/-- A file can be given something else. -/
theorem exists_replace {old : FileEntry} (h : t.entryAt path = .ok old) (hold : old ≠ .directory)
    (entry : FileEntry) : ∃ u, t.replace path entry = .ok u := by
  obtain ⟨place, hplace, hentry⟩ := entryAt_eq_ok_iff.mp h
  refine ⟨t.set place entry, ?_⟩
  rw [replace, hplace]
  dsimp only
  rw [hentry]
  cases old with
  | directory => exact absurd rfl hold
  | file content => rfl
  | archive a => rfl

/-- A directory is made where nothing stood. -/
theorem makeDirectory_ok (h : t.makeDirectory path = .ok u) :
    ∃ place, t.resolve (if withoutSlashes path = "" then path else withoutSlashes path) = .ok place ∧
      t.entry? place = none ∧ u = t.set place .directory := by
  unfold makeDirectory at h
  cases hplace : t.resolve (if withoutSlashes path = "" then path else withoutSlashes path) with
  | error fault => simp [hplace, bind, Except.bind] at h
  | ok place =>
    simp only [hplace, bind, Except.bind] at h
    cases hentry : t.entry? place with
    | some entry => simp [hentry] at h
    | none =>
      rw [hentry] at h
      dsimp only at h
      split at h
      · cases h
      · exact ⟨place, rfl, hentry, (Except.ok.inj h).symm⟩
      · cases h

theorem makeDirectory_keeps (h : t.makeDirectory path = .ok u) : t.KeepsDirectories u := by
  obtain ⟨place, -, hentry, rfl⟩ := makeDirectory_ok h
  exact set_keepsDirectories (by simp [hentry]) .directory

theorem kind_makeDirectory (hpath : withoutSlashes path = path) (h : t.makeDirectory path = .ok u) :
    u.kind path = .ok .directory := by
  have hkeeps := makeDirectory_keeps h
  obtain ⟨place, hplace, hentry, rfl⟩ := makeDirectory_ok h
  rw [hpath, ite_self] at hplace
  refine kind_eq_directory_iff.mpr ⟨place, hkeeps.resolve hplace, ?_⟩
  exact entry?_set_self t .directory (ne_nil_of_not_directory (t := t) (by simp [hentry]))

end FileTree

/-- A step of a program that works on files, given what the first part of it does. -/
theorem run_bind_of {σ α β : Type} {x : StateM σ α} {f : α → StateM σ β} {s u : σ} {a : α}
    (h : x.run s = (a, u)) : (x >>= f).run s = (f a).run u := by
  have hbind : (x >>= f).run s = (f (x.run s).1).run (x.run s).2 := rfl
  rw [hbind, h]

theorem run_kind {t : FileTree} {path : String} {kind : Except FileFault FileKind}
    (h : t.kind path = kind) : (MonadFiles.kind path : StateM FileTree _).run t = (kind, t) :=
  congrArg (·, t) h

theorem run_update_ok {ε : Type} {operation : FileTree → Except ε FileTree} {t u : FileTree}
    (h : operation t = .ok u) : (FileTree.update operation).run t = (.ok (), u) := by
  simp [FileTree.update, StateT.run, h]

theorem run_update_error {ε : Type} {operation : FileTree → Except ε FileTree} {t : FileTree} {e : ε}
    (h : operation t = .error e) : (FileTree.update operation).run t = (.error e, t) := by
  simp [FileTree.update, StateT.run, h]

theorem run_makeDirectory (path : String) (t : FileTree) :
    ∃ r u, (MonadFiles.makeDirectory path : StateM FileTree _).run t = (r, u) ∧ t.KeepsDirectories u ∧
      (r = .ok () → FileTree.withoutSlashes path = path → u.kind path = .ok .directory) := by
  cases hmake : t.makeDirectory path with
  | ok u =>
    refine ⟨.ok (), u, run_update_ok hmake, FileTree.makeDirectory_keeps hmake, fun _ hpath => ?_⟩
    exact FileTree.kind_makeDirectory hpath hmake
  | error fault => exact ⟨.error fault, t, run_update_error hmake, .refl t, nofun⟩

namespace Files

open FileTree

/-- Making a directory keeps those there are; and if it succeeds, there is one at the path. -/
theorem makeMissing_spec (fuel : Nat) (path : String) (t : FileTree) :
    ∃ r u, (makeMissing fuel path : StateM FileTree _).run t = (r, u) ∧ t.KeepsDirectories u ∧
      (0 < fuel → withoutSlashes path = path → r = .ok () → u.kind path = .ok .directory) := by
  induction fuel generalizing path t with
  | zero => exact ⟨_, t, rfl, .refl t, fun h => absurd h (Nat.lt_irrefl 0)⟩
  | succ fuel ih =>
    rw [makeMissing]
    cases hkind : t.kind path with
    | ok kind =>
      rw [run_bind_of (run_kind hkind)]
      cases kind with
      | file => exact ⟨_, t, rfl, .refl t, fun _ _ h => nomatch h⟩
      | directory => exact ⟨_, t, rfl, .refl t, fun _ _ _ => hkind⟩
    | error fault =>
      rw [run_bind_of (run_kind hkind)]
      obtain ⟨r, u, hrun, hkeeps⟩ : ∃ r u, ((upperPart? path).elim (pure (.ok ())) (makeMissing fuel) :
          StateM FileTree _).run t = (r, u) ∧ t.KeepsDirectories u := by
        cases upperPart? path with
        | none => exact ⟨_, t, rfl, .refl t⟩
        | some upper =>
          obtain ⟨r, u, hrun, hkeeps, -⟩ := ih upper t
          exact ⟨r, u, hrun, hkeeps⟩
      dsimp only
      rw [run_bind_of hrun]
      cases r with
      | error e => exact ⟨_, u, rfl, hkeeps, fun _ _ h => nomatch h⟩
      | ok =>
        obtain ⟨made, v, hmade, hkeeps', hkind'⟩ := run_makeDirectory path u
        dsimp only
        rw [run_bind_of hmade]
        cases made with
        | ok => exact ⟨_, v, rfl, hkeeps.trans hkeeps', fun _ hpath _ => hkind' rfl hpath⟩
        | error fault =>
          dsimp only
          -- Something may stand at the path already, and it may be a directory.
          cases hagain : v.kind path with
          | error other =>
            rw [run_bind_of (run_kind hagain)]
            exact ⟨_, v, rfl, hkeeps.trans hkeeps', fun _ _ h => nomatch h⟩
          | ok kind =>
            rw [run_bind_of (run_kind hagain)]
            cases kind with
            | file => exact ⟨_, v, rfl, hkeeps.trans hkeeps', fun _ _ h => nomatch h⟩
            | directory => exact ⟨_, v, rfl, hkeeps.trans hkeeps', fun _ _ _ => hagain⟩

end Files
end SlotBoard
