import SlotBoard.Manifest
import SlotBoard.Proofs.TreeView

/-!
The search for a manifest. It looks into the start directory and then into one parent after the other,
until it finds a manifest or reaches the root, which is its own parent. A manifest that is found is loaded,
and its failure is the failure of the search: nothing further up is looked at.
-/
namespace SlotBoard

namespace Path

/-- A path, its parent, the parent of that and so on, until a path is its own parent. -/
inductive Ascends : String → List String → Prop
  | top {path : String} : parent path = path → Ascends path [path]
  | up {path : String} {above : List String} : parent path ≠ path → Ascends (parent path) above →
    Ascends path (path :: above)

/-- Every parent has one name less, so the root is reached. -/
theorem ascends_upwardFrom (es : List String) (h : IsPlace es) :
    Ascends (rooted es.reverse) (upwardFrom es) := by
  induction es with
  | nil => exact .top parent_root
  | cons e es ih =>
    obtain ⟨he, hes⟩ := List.forall_mem_cons.mp h
    have hnames : IsPlace es.reverse := fun x hx => hes x (List.mem_reverse.mp hx)
    have hparent : parent (rooted (e :: es).reverse) = rooted es.reverse := by
      rw [List.reverse_cons, parent_rooted hnames he]
    refine .up ?_ ?_
    · rw [hparent]
      intro heq
      have hlength := congrArg List.length
        (rooted_inj hnames (fun x hx => h x (List.mem_reverse.mp hx)) heq)
      simp at hlength
    · rw [hparent]
      exact ih hes

theorem length_upwardFrom (es : List String) : (upwardFrom es).length = es.length + 1 := by
  induction es with
  | nil => rfl
  | cons e es ih => rw [upwardFrom, List.length_cons, ih, List.length_cons]

theorem ascends_upward {es : List String} (h : IsPlace es) :
    Ascends (rooted es) (upward (rooted es)) := by
  have hascends := ascends_upwardFrom es.reverse fun e he => h e (List.mem_reverse.mp he)
  rw [upward, elements_rooted h]
  rwa [List.reverse_reverse] at hascends

theorem length_upward (path : String) : (upward path).length = (elements path).length + 1 := by
  rw [upward, length_upwardFrom, List.length_reverse]

end Path

namespace Manifest

def pathIn (directory : String) : String := Path.join directory fileName

section Steps

variable (v : FileView) (directory : String) (directories : List String)

theorem asked_load : (load directory : Survey _).asked v = [] := by
  rw [load, Survey.asked_bind]
  split
  · rfl
  · split
    · rfl
    · rfl

/-- A directory that has a manifest ends the search, any other is passed over. -/
theorem answer_loadFirst_cons :
    (loadFirst (directory :: directories) : Survey _).answer v =
      if v.has (pathIn directory) then ((load directory : Survey _).answer v).map some
      else (loadFirst directories : Survey _).answer v := by
  rw [loadFirst, Survey.answer_bind, Survey.answer_exist, pathIn]
  by_cases h : v.has (Path.join directory fileName) = true
  · rw [if_pos h, if_pos h]
    rfl
  · rw [if_neg h, if_neg h]

theorem asked_loadFirst_cons :
    (loadFirst (directory :: directories) : Survey _).asked v =
      pathIn directory :: if v.has (pathIn directory) then []
        else (loadFirst directories : Survey _).asked v := by
  rw [loadFirst, Survey.asked_bind, Survey.answer_exist, Survey.asked_exist, pathIn]
  by_cases h : v.has (Path.join directory fileName) = true
  · rw [if_pos h, if_pos h, Survey.asked_bind, asked_load]
    rfl
  · rw [if_neg h, if_neg h]
    rfl

end Steps

section Runs

variable {v : FileView} {directory : String} {directories : List String}

theorem isPrefix_asked_loadFirst (v : FileView) (directories : List String) :
    (loadFirst directories : Survey _).asked v <+: directories.map pathIn := by
  induction directories with
  | nil => exact List.prefix_refl []
  | cons directory directories ih =>
    rw [asked_loadFirst_cons, List.map_cons, List.prefix_cons_inj]
    split
    · exact List.nil_prefix
    · exact ih

theorem answer_loadFirst_eq_none_iff :
    (loadFirst directories : Survey _).answer v = .ok none ↔
      ∀ d ∈ directories, v.has (pathIn d) = false := by
  induction directories with
  | nil => exact iff_of_true rfl nofun
  | cons directory directories ih =>
    rw [answer_loadFirst_cons, List.forall_mem_cons]
    by_cases h : v.has (pathIn directory) = true
    · rw [if_pos h, h]
      refine iff_of_false ?_ fun hmissing => absurd hmissing.1 (by decide)
      cases (load directory : Survey _).answer v with
      | error e => exact nofun
      | ok m => exact nofun
    · rw [if_neg h, ih]
      exact (and_iff_right (Bool.eq_false_iff.mpr h)).symm

/-- The search ends at the first directory that has a manifest. -/
theorem loadFirst_of_first {front : List String} (above : List String)
    (hfront : ∀ d ∈ front, v.has (pathIn d) = false) (h : v.has (pathIn directory) = true) :
    (loadFirst (front ++ directory :: above) : Survey _).answer v =
        ((load directory : Survey _).answer v).map some ∧
      (loadFirst (front ++ directory :: above) : Survey _).asked v =
        (front ++ [directory]).map pathIn := by
  induction front with
  | nil =>
    rw [List.nil_append, answer_loadFirst_cons, asked_loadFirst_cons, if_pos h, if_pos h]
    exact ⟨rfl, rfl⟩
  | cons d front ih =>
    obtain ⟨hd, hfront⟩ := List.forall_mem_cons.mp hfront
    have hlacks : ¬ v.has (pathIn d) = true := Bool.eq_false_iff.mp hd
    obtain ⟨hanswer, hasked⟩ := ih hfront
    rw [List.cons_append, answer_loadFirst_cons, asked_loadFirst_cons, if_neg hlacks, if_neg hlacks,
      hanswer, hasked]
    exact ⟨rfl, rfl⟩

theorem answer_find (v : FileView) (start : String) : (find start : Survey _).answer v =
    (loadFirst (Path.upward (Path.absolute v.workingDirectory start)) : Survey _).answer v := by
  rw [find, Survey.answer_bind, Survey.answer_workingDirectory]

theorem asked_find (v : FileView) (start : String) : (find start : Survey _).asked v =
    (loadFirst (Path.upward (Path.absolute v.workingDirectory start)) : Survey _).asked v := by
  rw [find, Survey.asked_bind, Survey.asked_workingDirectory, Survey.answer_workingDirectory,
    List.nil_append]

end Runs

theorem describes_load (directory : String) :
    (load directory : Survey _).Describes (load directory) := by
  refine .bind (.read _) fun content => ?_
  cases content with
  | error e => exact .pure _
  | ok bs =>
    dsimp only
    cases decode? bs with
    | none => exact .pure _
    | some m => exact .bind .workingDirectory fun here => .pure _

theorem describes_loadFirst (directories : List String) :
    (loadFirst directories : Survey _).Describes (loadFirst directories) := by
  induction directories with
  | nil => exact .pure _
  | cons directory directories ih =>
    refine .bind (.exist _) fun found => .ite ?_ ih
    exact .bind (describes_load directory) fun m => .pure _

theorem describes_find (directory : String) :
    (find directory : Survey _).Describes (find directory) :=
  .bind .workingDirectory fun _ => describes_loadFirst _

end Manifest

/-- The search for a manifest looks into the start directory and those above it, up to the root: at most
once for each element of the start path and once more. It finds nothing exactly if none of them has a
manifest. Otherwise it loads the manifest of the first one that has one, the deepest, and ends there,
also if that manifest cannot be loaded. A file tree that is searched stays as it is. -/
theorem nearest_manifest_is_loaded (v : FileView) (start : String) :
    let top := Path.absolute v.workingDirectory start
    let search : Survey _ := Manifest.find start
    (∀ t : FileTree, t.view = v →
      (Manifest.find start : StateM FileTree _).run t = (search.answer v, t)) ∧
    ∃ directories, Path.Ascends top directories ∧
      (search.asked v).length ≤ (Path.elements top).length + 1 ∧
      search.asked v <+: directories.map Manifest.pathIn ∧
      (search.answer v = .ok none ↔ ∀ d ∈ directories, v.has (Manifest.pathIn d) = false) ∧
      ∀ front d above, directories = front ++ d :: above → v.has (Manifest.pathIn d) = true →
        (∀ e ∈ front, v.has (Manifest.pathIn e) = false) →
        search.answer v = ((Manifest.load d : Survey _).answer v).map some ∧
          search.asked v = (front ++ [d]).map Manifest.pathIn := by
  intro top search
  constructor
  · rintro t rfl
    exact Manifest.describes_find start t
  have hanswer : search.answer v = _ := Manifest.answer_find v start
  have hasked : search.asked v = _ := Manifest.asked_find v start
  obtain ⟨es, hnames, htop⟩ := Path.exists_rooted_absolute v.rooted start
  have hinitial := Manifest.isPrefix_asked_loadFirst v (Path.upward top)
  rw [hanswer, hasked]
  refine ⟨Path.upward top, ?_, ?_, hinitial, Manifest.answer_loadFirst_eq_none_iff, ?_⟩
  · have hascends := Path.ascends_upward hnames
    rwa [← htop] at hascends
  · have hlength := hinitial.length_le
    rwa [List.length_map, Path.length_upward] at hlength
  · intro front d above hdirectories hd hfront
    have hfirst := Manifest.loadFirst_of_first above hfront hd
    rwa [← hdirectories] at hfirst

end SlotBoard
