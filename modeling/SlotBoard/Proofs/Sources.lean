import SlotBoard.Manifest
import SlotBoard.Proofs.Expansion

/-!
The source documents of a project. An entry is put below the directory of the manifest, and the path that
results is read as a pattern, the directory included. Hence an entry without special characters stands for
the file of that name if the directory has none either; in general it does exactly if the path, read as a
pattern, fits itself and nothing else that exists.
-/
namespace SlotBoard

namespace Manifest

variable {m : Manifest} {entry path : String} {v : FileView}

/-- An entry stands for one file exactly if its pattern does. -/
theorem answer_expandSource_eq_singleton_iff :
    (m.expandSource entry : Survey _).answer v = .ok [path] ↔
      (Glob.expand (m.path entry) : Survey _).answer v = some [path] := by
  rw [expandSource, Survey.answer_bind]
  cases (Glob.expand (m.path entry) : Survey _).answer v with
  | none => exact iff_of_false (by simp) (by simp)
  | some found =>
    cases found with
    | nil => exact iff_of_false (by simp) (by simp)
    | cons first more =>
      have hperm : (Glob.sortNames (first :: more)).Perm (first :: more) := List.mergeSort_perm _ _
      rw [Survey.answer_pure, Except.ok.injEq, Option.some_inj]
      constructor
      · intro hsorted
        rw [hsorted] at hperm
        exact List.perm_singleton.mp hperm.symm
      · intro hfound
        rw [hfound] at hperm ⊢
        exact List.perm_singleton.mp hperm

/-- An entry that stands for nothing is an error. -/
theorem ne_nil_of_expandSource {found : List String}
    (h : (m.expandSource entry : Survey _).answer v = .ok found) : found ≠ [] := by
  rw [expandSource, Survey.answer_bind] at h
  cases hexpand : (Glob.expand (m.path entry) : Survey _).answer v with
  | none => simp [hexpand] at h
  | some all =>
    cases all with
    | nil => simp [hexpand] at h
    | cons first more =>
      rw [hexpand, Survey.answer_pure, Except.ok.injEq] at h
      rintro rfl
      have hmem : first ∈ Glob.sortNames (first :: more) := Glob.mem_sortNames.mpr List.mem_cons_self
      rw [h] at hmem
      cases hmem

theorem answer_expandSources_cons (entries : List String) :
    (m.expandSources (entry :: entries) : Survey _).answer v =
      ((m.expandSource entry : Survey _).answer v).bind fun found =>
        ((m.expandSources entries : Survey _).answer v).map (found ++ ·) := by
  rw [expandSources, Survey.answer_bind]
  cases (m.expandSource entry : Survey _).answer v with
  | error e => rfl
  | ok found =>
    dsimp only
    rw [Survey.answer_bind]
    cases (m.expandSources entries : Survey _).answer v <;> rfl

theorem expandSources_cons_eq_ok_iff {entries found : List String} :
    (m.expandSources (entry :: entries) : Survey _).answer v = .ok found ↔
      ∃ first more, (m.expandSource entry : Survey _).answer v = .ok first ∧
        (m.expandSources entries : Survey _).answer v = .ok more ∧ found = first ++ more := by
  rw [answer_expandSources_cons]
  cases (m.expandSource entry : Survey _).answer v with
  | error e => simp [Except.bind]
  | ok first =>
    cases (m.expandSources entries : Survey _).answer v with
    | error e => simp [Except.bind, Except.map]
    | ok more => simp [Except.bind, Except.map, eq_comm]

theorem length_le_of_expandSources {entries found : List String}
    (h : (m.expandSources entries : Survey _).answer v = .ok found) :
    entries.length ≤ found.length := by
  induction entries generalizing found with
  | nil => exact Nat.zero_le _
  | cons entry entries ih =>
    obtain ⟨first, more, hfirst, hmore, rfl⟩ := expandSources_cons_eq_ok_iff.mp h
    have hpos := List.length_pos_iff.mpr (ne_nil_of_expandSource hfirst)
    have hlength := ih hmore
    rw [List.length_append, List.length_cons]
    omega

/-- No entry stands for less than one file, so that as many files as entries are one file for each. -/
theorem expandSources_eq_map_iff {entries : List String} {f : String → String} :
    (m.expandSources entries : Survey _).answer v = .ok (entries.map f) ↔
      ∀ entry ∈ entries, (m.expandSource entry : Survey _).answer v = .ok [f entry] := by
  induction entries with
  | nil => exact iff_of_true rfl (by simp)
  | cons entry entries ih =>
    rw [expandSources_cons_eq_ok_iff, List.forall_mem_cons, ← ih]
    constructor
    · rintro ⟨first, more, hfirst, hmore, hfound⟩
      have hpos := List.length_pos_iff.mpr (ne_nil_of_expandSource hfirst)
      have hrest := length_le_of_expandSources hmore
      have hlength := congrArg List.length hfound
      rw [List.length_append, List.length_map, List.length_cons] at hlength
      have hone : first.length = [f entry].length := by
        rw [List.length_singleton]
        omega
      obtain ⟨rfl, rfl⟩ := List.append_inj (hfound.symm.trans List.singleton_append.symm) hone
      exact ⟨hfirst, hmore⟩
    · rintro ⟨hfirst, hmore⟩
      exact ⟨[f entry], entries.map f, hfirst, hmore, rfl⟩

/-- Relative entries stand for their own paths exactly if each path does as a pattern. -/
theorem sourcePaths_eq_map_join_iff (h : ∀ entry ∈ m.files, Path.isAbsolute entry = false) :
    (m.sourcePaths : Survey _).answer v = .ok (m.files.map (Path.join m.directory)) ↔
      ∀ entry ∈ m.files, (Glob.expand (Path.join m.directory entry) : Survey _).answer v =
        some [Path.join m.directory entry] := by
  rw [sourcePaths, expandSources_eq_map_iff]
  have hpath : ∀ entry ∈ m.files, m.path entry = Path.join m.directory entry := by
    intro entry hentry
    rw [Manifest.path, h entry hentry, if_neg Bool.false_ne_true]
  constructor
  · intro hall entry hentry
    have hself := answer_expandSource_eq_singleton_iff.mp (hall entry hentry)
    rwa [hpath entry hentry] at hself
  · intro hall entry hentry
    rw [answer_expandSource_eq_singleton_iff, hpath entry hentry]
    exact hall entry hentry

theorem describes_expandSource (m : Manifest) (entry : String) :
    (m.expandSource entry : Survey _).Describes (m.expandSource entry) := by
  refine .bind (Glob.describes_expandFrom _ _) fun found => ?_
  split
  · exact .pure _
  · exact .pure _
  · exact .pure _

theorem describes_expandSources (m : Manifest) (entries : List String) :
    (m.expandSources entries : Survey _).Describes (m.expandSources entries) := by
  induction entries with
  | nil => exact .pure _
  | cons entry entries ih =>
    refine .bind (m.describes_expandSource entry) fun found => ?_
    cases found with
    | error e => exact .pure _
    | ok found =>
      refine .bind ih fun more => ?_
      cases more with
      | error e => exact .pure _
      | ok more => exact .pure _

end Manifest

/-- Relative entries without special characters, each of which exists below the manifest's directory,
are the source documents, in their order, if the directory has no special characters either. For other
directories they are exactly if each path, read as a pattern level by level, fits no existing path but
itself. -/
theorem plain_entries_are_sources_iff (v : FileView) (m : Manifest)
    (hentries : ∀ entry ∈ m.files, Path.isAbsolute entry = false ∧ Glob.hasMeta entry = false ∧
      v.has (Path.join m.directory entry) = true) :
    (Glob.hasMeta m.directory = false →
      (m.sourcePaths : Survey _).answer v = .ok (m.files.map (Path.join m.directory))) ∧
    (v.Consistent → Path.isAbsolute m.directory = true →
      ((m.sourcePaths : Survey _).answer v = .ok (m.files.map (Path.join m.directory)) ↔
        ∀ entry ∈ m.files, ∀ place, Path.IsPlace place → v.has (Path.rooted place) = true →
          (List.Forall₂ Glob.Fits (Path.elements (Path.join m.directory entry)) place ↔
            Path.rooted place = Path.join m.directory entry))) := by
  rw [Manifest.sourcePaths_eq_map_join_iff fun entry hentry => (hentries entry hentry).1]
  constructor
  · intro hdirectory entry hentry
    obtain ⟨-, hplain, hhas⟩ := hentries entry hentry
    exact Glob.answer_expand_plain (Glob.hasMeta_join hdirectory hplain) hhas
  · intro hv hdirectory
    refine forall₂_congr fun entry hentry => ?_
    obtain ⟨-, -, hhas⟩ := hentries entry hentry
    obtain ⟨es, hes, hjoin⟩ := Path.exists_rooted_join hdirectory entry
    rw [hjoin] at hhas ⊢
    rw [Glob.answer_expand_eq_self_iff hv hes hhas, Path.elements_rooted hes]
    refine forall₃_congr fun place hplace _ => ?_
    exact iff_congr Iff.rfl ⟨congrArg Path.rooted, Path.rooted_inj hplace hes⟩

def projectIn (name : String) : Manifest := { directory := Path.rooted [name], files := ["x.json"] }

def treeOf (names : List String) : FileTree where
  entries := names.flatMap fun name => [([name], .directory), ([name, "x.json"], .file [])]

theorem plain_and_starred_directories_keep_sources :
    ((projectIn "a").sourcePaths : Survey _).answer (treeOf ["a", "a*"]).view = .ok ["/a/x.json"] ∧
    ((projectIn "a*").sourcePaths : Survey _).answer (treeOf ["a*"]).view = .ok ["/a*/x.json"] ∧
    ∀ place, Path.IsPlace place → (treeOf ["a*"]).view.has (Path.rooted place) = true →
      (List.Forall₂ Glob.Fits ["a*", "x.json"] place ↔ Path.rooted place = "/a*/x.json") := by
  have hproper : (treeOf ["a*"]).Proper :=
    ⟨by decide, by decide, by decide, by decide +kernel⟩
  have hplain := plain_entries_are_sources_iff (treeOf ["a", "a*"]).view (projectIn "a") (by decide +kernel)
  have hstarred := plain_entries_are_sources_iff (treeOf ["a*"]).view (projectIn "a*") (by decide +kernel)
  have hsources : ((projectIn "a*").sourcePaths : Survey _).answer (treeOf ["a*"]).view =
      .ok ["/a*/x.json"] := by decide +kernel
  refine ⟨hplain.1 (by decide), hsources, ?_⟩
  exact ((hstarred.2 hproper.consistent (by decide)).mp hsources) "x.json" (by decide)

/-- In a directory with brackets in its name, the document of another directory is taken. -/
theorem bracketed_directory_takes_other_source :
    (∀ entry ∈ (projectIn "a[b]").files, Path.isAbsolute entry = false ∧ Glob.hasMeta entry = false ∧
      (treeOf ["a[b]", "ab"]).view.has (Path.join (projectIn "a[b]").directory entry) = true) ∧
    (treeOf ["a[b]", "ab"]).Proper ∧
    ((projectIn "a[b]").sourcePaths : StateM FileTree _).run (treeOf ["a[b]", "ab"]) =
      (.ok ["/ab/x.json"], treeOf ["a[b]", "ab"]) := by
  refine ⟨by decide +kernel, ⟨by decide, by decide, by decide, by decide +kernel⟩, ?_⟩
  have hnames : (treeOf ["a[b]", "ab"]).view.names (Path.rooted []) = ["a[b]", "ab"] := by decide +kernel
  have hsorted : Glob.sortNames ["a[b]", "ab"] = ["a[b]", "ab"] :=
    List.mergeSort_of_pairwise (by decide +kernel)
  have hfirst : (Glob.expandFrom 12 (Path.rooted ([] ++ ["a[b]"])) : Survey _).answer
      (treeOf ["a[b]", "ab"]).view = some ["/ab"] := by
    rw [Glob.answer_expandFrom_concat 11 (by decide) (by decide +kernel) (by decide), if_neg (by decide)]
    simp only [Option.bind_some, Glob.answer_inDirectories_cons, Glob.answer_inDirectory,
      Glob.fitting, hnames, hsorted]
    decide +kernel
  have hpath : (projectIn "a[b]").path "x.json" = Path.rooted (["a[b]"] ++ ["x.json"]) := by decide
  have hfuel : (Path.rooted (["a[b]"] ++ ["x.json"])).toList.length = 12 := by decide
  have hsources : ∀ entry ∈ (projectIn "a[b]").files, ((projectIn "a[b]").expandSource entry :
      Survey _).answer (treeOf ["a[b]", "ab"]).view = .ok ["/ab/x.json"] := by
    refine List.forall_mem_singleton.mpr ?_
    rw [List.nil_append] at hfirst
    rw [Manifest.answer_expandSource_eq_singleton_iff, hpath, Glob.expand, hfuel,
      Glob.answer_expandFrom_concat 12 (by decide) (by decide +kernel) (by decide), if_pos (by decide),
      hfirst]
    decide +kernel
  refine (Manifest.describes_expandSources _ _ _).trans ?_
  rw [Manifest.expandSources_eq_map_iff.mpr hsources]
  rfl

end SlotBoard
