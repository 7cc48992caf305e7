import Mathlib.Data.List.Nodup
import SlotBoard.Proofs.FileTree
import SlotBoard.Proofs.FileView

/-!
A file tree as a file system. If its entries stand at different places and each of them can be reached by
its path, then listings and questions agree: below a directory stands what it lists. A program that only
looks at the tree answers what its survey answers, and the tree stays as it is.
-/
namespace SlotBoard

open SlotBoard.Path (IsName IsPlace rooted)

namespace FileTree

def view (t : FileTree) : FileView where
  workingDirectory := t.workingDirectory
  kind := t.kind
  read := t.read
  names := t.names
  rooted := Path.isAbsolute_rooted t.here

/-- A path that is looked up at all: it has no zero character and is not too long. -/
def Accepted (path : String) : Prop :=
  '\x00' ∉ path.toList ∧ (Utf8.encode path).length ≤ maxPath

instance (path : String) : Decidable (Accepted path) := inferInstanceAs (Decidable (_ ∧ _))

def places (t : FileTree) : List (List String) := t.entries.map Prod.fst

/-- Entries stand at different places, and none is out of reach because of its name or its path. -/
structure Proper (t : FileTree) : Prop where
  nodup : t.places.Nodup
  isPlace : ∀ place ∈ t.places, IsPlace place
  short : ∀ place ∈ t.places, ∀ n ∈ place, (Utf8.encode n).length ≤ maxName
  accepted : ∀ place ∈ t.places, Accepted (rooted place)

variable {t : FileTree} {place stop : List String} {n path : String}

theorem follow_append (place xs ys : List String) :
    t.follow place (xs ++ ys) = (t.follow place xs).bind fun stop => t.follow stop ys := by
  induction xs generalizing place with
  | nil => rfl
  | cons x xs ih =>
    rw [List.cons_append, follow, follow]
    cases t.entry? place with
    | none => rfl
    | some entry =>
      cases entry with
      | file content => rfl
      | archive a => rfl
      | directory =>
        dsimp only
        split_ifs
        · exact ih place
        · exact ih place.dropLast
        · rfl
        · exact ih (place ++ [x])

/-- A name leads one level down from a directory, unless it is too long. -/
theorem follow_name (hn : IsName n) :
    t.follow place [n] = .ok stop ↔
      t.entry? place = some .directory ∧ (Utf8.encode n).length ≤ maxName ∧ stop = place ++ [n] := by
  obtain ⟨⟨hempty, -⟩, hdot, hup⟩ := hn
  rw [follow]
  cases t.entry? place with
  | none => simp
  | some entry =>
    cases entry with
    | file content => simp
    | archive a => simp
    | directory =>
      dsimp only
      rw [if_neg (not_or.mpr ⟨hempty, hdot⟩), if_neg hup]
      by_cases hlong : maxName < (Utf8.encode n).length
      · rw [if_pos hlong]
        exact iff_of_false (by simp) fun h => absurd h.2.1 (Nat.not_le_of_lt hlong)
      · rw [if_neg hlong, follow]
        simp [Nat.le_of_not_lt hlong, eq_comm]

theorem eq_of_follow {es : List String} (h : IsPlace es) (hstop : t.follow place es = .ok stop) :
    stop = place ++ es := by
  induction es generalizing place with
  | nil => simpa [follow, eq_comm] using hstop
  | cons e es ih =>
    obtain ⟨he, hes⟩ := List.forall_mem_cons.mp h
    rw [← List.singleton_append, follow_append] at hstop
    cases hfirst : t.follow place [e] with
    | error fault =>
      rw [hfirst] at hstop
      cases hstop
    | ok middle =>
      rw [hfirst] at hstop
      obtain ⟨-, -, rfl⟩ := (follow_name he).mp hfirst
      rw [ih hes hstop, List.append_assoc, List.singleton_append]

def Reaches (t : FileTree) (place : List String) : Prop := t.follow [] place = .ok place

theorem reaches_concat (hplace : IsPlace place) (hn : IsName n) :
    t.Reaches (place ++ [n]) ↔
      t.Reaches place ∧ t.entry? place = some .directory ∧ (Utf8.encode n).length ≤ maxName := by
  unfold Reaches
  rw [follow_append]
  cases hfront : t.follow [] place with
  | error fault => exact iff_of_false nofun fun h => nomatch h.1
  | ok middle =>
    obtain rfl : middle = place := eq_of_follow hplace hfront
    have hlast : t.follow middle [n] = .ok (middle ++ [n]) ↔
        t.entry? middle = some .directory ∧ _ ∧ middle ++ [n] = middle ++ [n] := follow_name hn
    simpa [Except.bind] using hlast

theorem resolve_rooted (h : IsPlace place) :
    t.resolve (rooted place) = .ok stop ↔
      Accepted (rooted place) ∧ t.Reaches place ∧ stop = place := by
  have hpieces : t.follow [] (Path.pieces (rooted place)) = t.follow [] place := by
    rw [Path.pieces_rooted]
    by_cases hempty : place = []
    · subst hempty
      rfl
    · rw [Path.pieces_intercalate h hempty]
      rfl
  have hfollow : t.follow [] place = .ok stop ↔ t.Reaches place ∧ stop = place := by
    constructor
    · intro hstop
      obtain rfl : stop = place := eq_of_follow h hstop
      exact ⟨hstop, rfl⟩
    · rintro ⟨hreaches, rfl⟩
      exact hreaches
  have hne : rooted place ≠ "" := by simp [rooted]
  unfold resolve Accepted
  rw [if_neg hne, Path.isAbsolute_rooted, if_pos rfl, hpieces]
  by_cases hzero : '\x00' ∈ (rooted place).toList
  · simp [hzero]
  · by_cases hlong : maxPath < (Utf8.encode (rooted place)).length
    · have hcut : ¬ (Utf8.encode (rooted place)).length ≤ maxPath := by omega
      simp [hzero, hlong, hcut]
    · simp [hzero, hlong, hfollow, Nat.le_of_not_lt hlong]

theorem kind_rooted_iff (h : IsPlace place) :
    t.kind (rooted place) = .ok .directory ↔
      Accepted (rooted place) ∧ t.Reaches place ∧ t.entry? place = some .directory := by
  rw [kind_eq_directory_iff]
  constructor
  · rintro ⟨stop, hstop, hentry⟩
    obtain ⟨haccepted, hreaches, rfl⟩ := (resolve_rooted h).mp hstop
    exact ⟨haccepted, hreaches, hentry⟩
  · rintro ⟨haccepted, hreaches, hentry⟩
    exact ⟨place, (resolve_rooted h).mpr ⟨haccepted, hreaches, rfl⟩, hentry⟩

theorem occupied_iff (h : place ≠ []) : t.entry? place ≠ none ↔ place ∈ t.places := by
  unfold entry?
  rw [if_neg h, ← Option.isSome_iff_ne_none, List.lookup_isSome_iff, places, List.mem_map]
  constructor
  · rintro ⟨e, he, heq⟩
    exact ⟨e, he, (beq_iff_eq.mp heq).symm⟩
  · rintro ⟨e, he, heq⟩
    exact ⟨e, he, beq_iff_eq.mpr heq.symm⟩

def nameIn? (directory place : List String) : Option String :=
  if place.dropLast = directory ∧ place ≠ [] then place.getLast? else none

theorem nameIn?_eq_some {directory : List String} :
    nameIn? directory place = some n ↔ place = directory ++ [n] := by
  unfold nameIn?
  constructor
  · intro h
    split at h
    · rename_i hinside
      obtain ⟨front, rfl⟩ := List.getLast?_eq_some_iff.mp h
      rw [← hinside.1, List.dropLast_concat]
    · cases h
  · rintro rfl
    rw [if_pos ⟨List.dropLast_concat, by simp⟩, List.getLast?_concat]

theorem names_of_resolve (h : t.resolve path = .ok place) :
    t.names path = t.places.filterMap (nameIn? place) := by
  rw [names, h, places, List.filterMap_map]
  rfl

theorem mem_names (h : t.resolve path = .ok place) : n ∈ t.names path ↔ place ++ [n] ∈ t.places := by
  rw [names_of_resolve h, List.mem_filterMap]
  simp only [nameIn?_eq_some, exists_eq_right]

theorem nodup_names (h : t.places.Nodup) (path : String) : (t.names path).Nodup := by
  cases hplace : t.resolve path with
  | error fault =>
    rw [names, hplace]
    exact List.nodup_nil
  | ok place =>
    rw [names_of_resolve hplace]
    refine h.filterMap fun a b n ha hb => ?_
    rw [nameIn?_eq_some.mp ha, nameIn?_eq_some.mp hb]

theorem has_view : t.view.has path = true ↔
    ∃ place, t.resolve path = .ok place ∧ t.entry? place ≠ none := by
  have hkind : t.view.has path = (t.kind path).isOk := rfl
  rw [hkind, kind]
  cases t.resolve path with
  | error fault => simp [bind, Except.bind, Except.isOk, Except.toBool]
  | ok place =>
    simp only [bind, Except.bind, Except.ok.injEq, exists_eq_left']
    cases t.entry? place with
    | none => simp [Except.isOk, Except.toBool]
    | some entry => cases entry <;> simp [Except.isOk, Except.toBool]

/-- A directory has a shorter path than what stands in it. -/
theorem Accepted.of_concat (h : Accepted (rooted (place ++ [n]))) : Accepted (rooted place) := by
  obtain ⟨tail, htail⟩ : ∃ tail, rooted (place ++ [n]) = rooted place ++ tail := by
    rw [Path.rooted_concat, Path.opened]
    split
    · rename_i hempty
      exact ⟨n, by rw [hempty]; rfl⟩
    · exact ⟨"/" ++ n, String.append_assoc⟩
  rw [htail] at h
  obtain ⟨hzero, hlength⟩ := h
  constructor
  · intro hmem
    exact hzero (by simp [hmem])
  · rw [Utf8.encode, String.toList_append, Utf8.encodeChars, List.flatMap_append,
      List.length_append] at hlength
    exact Nat.le_trans (Nat.le_add_right _ _) hlength

/-- In a proper tree, what stands below a directory is what the directory lists. -/
theorem Proper.consistent (h : t.Proper) : t.view.Consistent where
  nodup _ := nodup_names h.nodup _
  isName {place n} _ hn := by
    change n ∈ t.names (rooted place) at hn
    cases hplace : t.resolve (rooted place) with
    | error fault =>
      rw [names, hplace] at hn
      cases hn
    | ok stop => exact h.isPlace _ ((mem_names hplace).mp hn) n (by simp)
  has_iff {place n} hplace hn := by
    have hchild : IsPlace (place ++ [n]) :=
      List.forall_mem_append.mpr ⟨hplace, List.forall_mem_singleton.mpr hn⟩
    have hdirectory : t.view.kind (rooted place) = .ok .directory ↔ _ := kind_rooted_iff hplace
    rw [has_view, hdirectory]
    constructor
    · rintro ⟨stop, hstop, hentry⟩
      obtain ⟨haccepted, hreaches, rfl⟩ := (resolve_rooted hchild).mp hstop
      obtain ⟨hfront, hup, -⟩ := (reaches_concat hplace hn).mp hreaches
      have hresolve := (resolve_rooted hplace).mpr ⟨haccepted.of_concat, hfront, rfl⟩
      refine ⟨⟨haccepted.of_concat, hfront, hup⟩, (mem_names hresolve).mpr ?_⟩
      exact (occupied_iff (by simp)).mp hentry
    · rintro ⟨⟨haccepted, hfront, hup⟩, hlisted⟩
      have hresolve := (resolve_rooted hplace).mpr ⟨haccepted, hfront, rfl⟩
      have hmem := (mem_names hresolve).mp hlisted
      have hshort := h.short _ hmem n (by simp)
      have hreaches := (reaches_concat hplace hn).mpr ⟨hfront, hup, hshort⟩
      refine ⟨place ++ [n], (resolve_rooted hchild).mpr ⟨h.accepted _ hmem, hreaches, rfl⟩, ?_⟩
      exact (occupied_iff (by simp)).mpr hmem

end FileTree

/-- On a tree, a program answers what the survey answers for its view, and changes nothing. -/
def Survey.Describes {α : Type} (y : Survey α) (x : StateM FileTree α) : Prop :=
  ∀ t : FileTree, x.run t = (y.answer t.view, t)

namespace Survey.Describes

variable {α β : Type}

theorem pure (a : α) : (Pure.pure a : Survey α).Describes (Pure.pure a) := fun _ => rfl

theorem bind {y : Survey α} {x : StateM FileTree α} {g : α → Survey β} {f : α → StateM FileTree β}
    (hx : y.Describes x) (hf : ∀ a, (g a).Describes (f a)) : (y >>= g).Describes (x >>= f) := by
  intro t
  rw [run_bind_of (hx t), hf, answer_bind]

theorem ite {c : Prop} [Decidable c] {y y' : Survey α} {x x' : StateM FileTree α}
    (h : y.Describes x) (h' : y'.Describes x') :
    (if c then y else y').Describes (if c then x else x') := by
  by_cases hc : c
  · rwa [if_pos hc, if_pos hc]
  · rwa [if_neg hc, if_neg hc]

theorem workingDirectory :
    (MonadFiles.workingDirectory : Survey _).Describes MonadFiles.workingDirectory := fun _ => rfl

theorem kind (path : String) : (MonadFiles.kind path : Survey _).Describes (MonadFiles.kind path) :=
  fun _ => rfl

theorem read (path : String) : (MonadFiles.read path : Survey _).Describes (MonadFiles.read path) :=
  fun _ => rfl

theorem names (path : String) : (MonadFiles.names path : Survey _).Describes (MonadFiles.names path) :=
  fun _ => rfl

theorem exist (path : String) : (Files.exist path : Survey _).Describes (Files.exist path) := by
  refine bind (kind path) fun found => ?_
  cases found with
  | error fault => exact pure false
  | ok kind => exact pure true

end Survey.Describes

end SlotBoard
