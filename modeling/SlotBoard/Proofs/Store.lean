import SlotBoard.Proofs.FileTree

/-!
Archives in a file tree. A store that has been opened finds its archive at its place, and goes on finding
it there whatever is put: opening the same name again gives the same store and leaves the tree as it is.
Only an archive that is not kept in a file is forgotten.
-/
namespace SlotBoard

open FileTree

namespace Files

theorem kind_root (t : FileTree) : t.kind "/" = .ok .directory :=
  kind_eq_directory_iff.mpr ⟨[], rfl, rfl⟩

theorem makeDirectories_ok {name : String} {t u : FileTree}
    (h : (makeDirectories (Path.parent name) : StateM FileTree _).run t = (.ok (), u)) :
    t.KeepsDirectories u ∧ u.kind (Path.parent name) = .ok .directory := by
  obtain ⟨r, v, hrun, hkeeps, hkind⟩ :=
    makeMissing_spec ((Path.parent name).toList.length + 1) (Path.parent name) t
  obtain ⟨rfl, rfl⟩ := Prod.mk.inj (hrun.symm.trans h)
  refine ⟨hkeeps, ?_⟩
  rcases Path.clean_ends (Path.split name).1 with hroot | hends
  · rw [Path.parent, hroot]
    exact kind_root v
  · exact hkind (Nat.succ_pos _) (withoutSlashes_eq hends) rfl

/-- A directory that is there need not be made. -/
theorem makeDirectories_again {path : String} {t : FileTree} (h : t.kind path = .ok .directory) :
    (makeDirectories path : StateM FileTree _).run t = (.ok (), t) := by
  rw [makeDirectories, makeMissing, run_bind_of (run_kind h)]
  rfl

end Files

namespace FileTree

variable {t : FileTree} {path : String} {archive : Archive}

theorem kind_of_archive (h : t.entryAt path = .ok (.archive archive)) : t.kind path = .ok .file := by
  obtain ⟨place, hplace, hentry⟩ := entryAt_eq_ok_iff.mp h
  simp [kind, hplace, hentry, bind, Except.bind]

theorem inspect_eq_archive_iff :
    t.inspect path = .ok (.archive archive) ↔ t.entryAt path = .ok (.archive archive) := by
  unfold inspect
  cases t.entryAt path with
  | error e => simp [bind, Except.bind]
  | ok entry =>
    cases entry with
    | directory => simp [bind, Except.bind]
    | archive a => simp [bind, Except.bind]
    | file content =>
      simp only [bind, Except.bind, Except.ok.injEq, reduceCtorEq, iff_false]
      split <;> nofun

theorem run_inspect {content : Except FileError ArchiveFile} (h : t.inspect path = content) :
    (MonadArchives.inspect path : StateM FileTree _).run t = (content, t) :=
  congrArg (·, t) h

end FileTree

namespace Store

/-- What an open store relies on: its options are in order, and its archive stands in the tree unless it
is not kept in a file. -/
structure Settled (s : Store) (t : FileTree) : Prop where
  setting : s.location.settingError? = none
  length : s.location.isTransient = false → (Utf8.encode s.location.path).length ≤ maxPath
  kept : s.location.isTransient = false → t.entryAt s.location.path = .ok (.archive s.archive)

variable {s : Store} {l : Location} {t u : FileTree} {name : String}

theorem Settled.of_transient (hsetting : s.location.settingError? = none)
    (htransient : s.location.isTransient = true) : s.Settled t where
  setting := hsetting
  length hfile := absurd (htransient.symm.trans hfile) nofun
  kept hfile := absurd (htransient.symm.trans hfile) nofun

theorem findFile_ok (h : (findFile l : StateM FileTree _).run t = (.ok (), u)) :
    (Utf8.encode l.path).length ≤ maxPath ∧ t.KeepsDirectories u := by
  rw [findFile] at h
  by_cases hlong : maxPath < (Utf8.encode l.path).length
  · rw [if_pos hlong] at h
    cases h
  rw [if_neg hlong] at h
  refine ⟨Nat.not_lt.mp hlong, ?_⟩
  cases hkind : t.kind l.path with
  | ok kind =>
    rw [run_bind_of (run_kind hkind)] at h
    cases kind with
    | file =>
      obtain rfl := (Prod.mk.inj h).2
      exact .refl t
    | directory => cases h
  | error fault =>
    rw [run_bind_of (run_kind hkind)] at h
    dsimp only at h
    split_ifs at h with hcreates
    · cases hwrite : t.replace l.path (.file []) with
      | error e =>
        have hrun : (MonadFiles.write l.path [] : StateM FileTree _).run t = (.error e, t) :=
          run_update_error hwrite
        rw [run_bind_of hrun] at h
        cases h
      | ok v =>
        have hrun : (MonadFiles.write l.path [] : StateM FileTree _).run t = (.ok (), v) :=
          run_update_ok hwrite
        rw [run_bind_of hrun] at h
        obtain rfl := (Prod.mk.inj h).2
        exact (replace_ok hwrite).1
    · cases h

theorem findFile_again (hlength : (Utf8.encode l.path).length ≤ maxPath)
    (hkind : t.kind l.path = .ok .file) :
    (findFile l : StateM FileTree _).run t = (.ok (), t) := by
  rw [findFile, if_neg (Nat.not_lt.mpr hlength), run_bind_of (run_kind hkind)]
  rfl

theorem run_keep_ok {path : String} {archive : Archive}
    (h : t.replace path (.archive archive) = .ok u) :
    (MonadArchives.keep path archive : StateM FileTree _).run t = (.ok (), u) :=
  run_update_ok h

theorem readFile_ok (h : (readFile l : StateM FileTree _).run t = (.ok s, u)) :
    s.location = l ∧ t.KeepsDirectories u ∧ u.entryAt l.path = .ok (.archive s.archive) := by
  rw [readFile] at h
  cases hfile : t.inspect l.path with
  | error e =>
    rw [run_bind_of (run_inspect hfile)] at h
    cases h
  | ok file =>
    rw [run_bind_of (run_inspect hfile)] at h
    cases file with
    | foreign => cases h
    | archive a =>
      obtain ⟨hs, rfl⟩ := Prod.mk.inj h
      obtain rfl := Except.ok.inj hs
      exact ⟨rfl, .refl t, inspect_eq_archive_iff.mp hfile⟩
    | blank =>
      dsimp only at h
      split_ifs at h with hwrites
      · cases hkeep : t.replace l.path (.archive {}) with
        | error e =>
          have hrun : (MonadArchives.keep l.path {} : StateM FileTree _).run t = (.error e, t) :=
            run_update_error hkeep
          rw [run_bind_of hrun] at h
          cases h
        | ok v =>
          rw [run_bind_of (run_keep_ok hkeep)] at h
          obtain ⟨hs, rfl⟩ := Prod.mk.inj h
          obtain rfl := Except.ok.inj hs
          exact ⟨rfl, (replace_ok hkeep).1, (replace_ok hkeep).2⟩
      · cases h

theorem readFile_again {archive : Archive} (h : t.entryAt l.path = .ok (.archive archive)) :
    (readFile l : StateM FileTree _).run t = (.ok ⟨l, archive⟩, t) := by
  rw [readFile, run_bind_of (run_inspect (inspect_eq_archive_iff.mpr h))]
  rfl

theorem openLocation_ok (h : (openLocation l : StateM FileTree _).run t = (.ok s, u)) :
    s.location = l ∧ t.KeepsDirectories u ∧ s.Settled u := by
  rw [openLocation] at h
  cases htransient : l.isTransient with
  | true =>
    simp only [htransient, if_true, pure_bind] at h
    cases hsetting : l.settingError? with
    | some e =>
      rw [hsetting] at h
      cases h
    | none =>
      rw [hsetting] at h
      obtain ⟨hs, rfl⟩ := Prod.mk.inj h
      obtain rfl := Except.ok.inj hs
      exact ⟨rfl, .refl t, .of_transient hsetting htransient⟩
  | false =>
    simp only [htransient, Bool.false_eq_true, if_false] at h
    cases hfind : (findFile l : StateM FileTree _).run t with
    | mk r v =>
      rw [run_bind_of hfind] at h
      cases r with
      | error e => cases h
      | ok =>
        obtain ⟨hlength, hkeeps⟩ := findFile_ok hfind
        cases hsetting : l.settingError? with
        | some e =>
          rw [hsetting] at h
          cases h
        | none =>
          rw [hsetting] at h
          obtain ⟨rfl, hkeeps', hentry⟩ := readFile_ok h
          exact ⟨rfl, hkeeps.trans hkeeps', hsetting, fun _ => hlength, fun _ => hentry⟩

def reopened (s : Store) : Store := if s.location.isTransient then ⟨s.location, {}⟩ else s

theorem openLocation_again (h : s.Settled t) :
    (openLocation s.location : StateM FileTree _).run t = (.ok s.reopened, t) := by
  rw [openLocation, reopened]
  cases htransient : s.location.isTransient with
  | true =>
    simp only [if_true, pure_bind]
    rw [h.setting]
    rfl
  | false =>
    have hentry := h.kept htransient
    simp only [Bool.false_eq_true, if_false]
    rw [run_bind_of (findFile_again (h.length htransient) (kind_of_archive hentry)), h.setting]
    exact readFile_again hentry

def seenFrom (here : String) (l : Location) : Location :=
  if l.isTransient then l else { l with path := Path.absolute here l.path }

theorem run_openAt (hmake : (Files.makeDirectories (Path.parent name) : StateM FileTree _).run t =
    (.ok (), u)) :
    (openAt name : StateM FileTree _).run t =
      match Location.parse name with
      | .error e => (.error (.location e), u)
      | .ok l => (openLocation (seenFrom u.workingDirectory l) : StateM FileTree _).run u := by
  rw [openAt, run_bind_of hmake]
  cases Location.parse name with
  | error e => rfl
  | ok l =>
    unfold seenFrom
    dsimp only
    split_ifs with htransient
    · rfl
    · rfl

/-- What opening the name of a store relies on: the directory it stands in, and its place. -/
structure FoundAs (name : String) (s : Store) (t : FileTree) : Prop extends s.Settled t where
  directory : t.kind (Path.parent name) = .ok .directory
  place : ∃ l, Location.parse name = .ok l ∧ s.location = seenFrom t.workingDirectory l

theorem openAt_ok (h : (openAt name : StateM FileTree _).run t = (.ok s, u)) : s.FoundAs name u := by
  cases hmake : (Files.makeDirectories (Path.parent name) : StateM FileTree _).run t with
  | mk r v =>
    cases r with
    | error e =>
      rw [openAt, run_bind_of hmake] at h
      cases h
    | ok =>
      rw [run_openAt hmake] at h
      cases hparse : Location.parse name with
      | error e =>
        rw [hparse] at h
        cases h
      | ok l =>
        rw [hparse] at h
        obtain ⟨hlocation, hkeeps, hsettled⟩ := openLocation_ok h
        refine ⟨hsettled, hkeeps.kind (Files.makeDirectories_ok hmake).2, l, hparse, ?_⟩
        rw [hlocation, hkeeps.workingDirectory]

/-- Opening the name again changes nothing, and the archive is there unless it was not kept in a file. -/
theorem openAt_again (h : s.FoundAs name t) :
    (openAt name : StateM FileTree _).run t = (.ok s.reopened, t) := by
  obtain ⟨l, hparse, hlocation⟩ := h.place
  rw [run_openAt (Files.makeDirectories_again h.directory), hparse]
  dsimp only
  rw [← hlocation]
  exact openLocation_again h.toSettled

theorem FoundAs.reopened (h : s.FoundAs name t) : s.reopened.FoundAs name t := by
  unfold Store.reopened
  split_ifs with htransient
  · exact ⟨.of_transient h.setting htransient, h.directory, h.place⟩
  · exact h

def keeping (s : Store) (a : Artifact) : Except StoreError Store :=
  if s.location.takesPuts then
    match s.archive.put? a with
    | some archive => .ok { s with archive }
    | none => .error .repeatedId
  else .error .artifactUnwritable

/-- An artifact that is put is found by the name of the store; a store that refuses it stays as it is. -/
theorem put_spec (h : s.FoundAs name t) (a : Artifact) :
    ∃ u, (s.put a : StateM FileTree _).run t = (s.keeping a, u) ∧
      Store.FoundAs name ((s.keeping a).toOption.getD s) u := by
  unfold keeping put
  cases htakes : s.location.takesPuts with
  | false => exact ⟨t, rfl, h⟩
  | true =>
    cases hput : s.archive.put? a with
    | none => exact ⟨t, rfl, h⟩
    | some archive =>
      cases htransient : s.location.isTransient with
      | true => exact ⟨t, rfl, .of_transient h.setting htransient, h.directory, h.place⟩
      | false =>
        obtain ⟨u, hu⟩ := exists_replace (h.kept htransient) nofun (.archive archive)
        obtain ⟨hkeeps, hentry⟩ := replace_ok hu
        obtain ⟨l, hparse, hlocation⟩ := h.place
        refine ⟨u, run_bind_of (run_keep_ok hu), ⟨h.setting, h.length, fun _ => hentry⟩,
          hkeeps.kind h.directory, l, hparse, ?_⟩
        rw [hkeeps.workingDirectory]
        exact hlocation

end Store
end SlotBoard
