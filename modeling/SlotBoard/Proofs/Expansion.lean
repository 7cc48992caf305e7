import Mathlib.Data.List.Forall2
import Mathlib.Data.List.Induction
import Mathlib.Data.List.Nodup
import SlotBoard.Proofs.Pattern
import SlotBoard.Proofs.TreeView

/-!
What a pattern for paths stands for. The elements of the pattern are patterns of their own, one for each
level. On a consistent file system, an expansion that succeeds yields each existing path once whose
elements fit those of the pattern; it does succeed if all elements can be read.
-/
namespace SlotBoard.Glob

open SlotBoard.Path (IsName IsPlace rooted opened)

variable {v : FileView} {pattern place : List String} {last : String}

theorem directoryPart_opened (es : List String) : directoryPart (opened es) = rooted es := by
  by_cases hes : es = []
  · subst hes
    decide
  · have hchars : (opened es).toList = (rooted es).toList ++ ['/'] := by
      rw [opened, if_neg hes, String.toList_append]
      rfl
    have hlong : 1 < (opened es).toList.length := by
      rw [hchars]
      simp [rooted]
    have hempty : opened es ≠ "" := by
      intro heq
      simp [heq] at hlong
    have hroot : opened es ≠ "/" := by
      intro heq
      simp [heq] at hlong
    rw [directoryPart, if_neg hempty, if_neg hroot, hchars, List.dropLast_concat, String.ofList_toList]

theorem wellFormed_slash : WellFormed "/".toList := .next (next?_plain rfl []) .nil

theorem wellFormed_rooted (h : ∀ p ∈ pattern, WellFormed p.toList) :
    WellFormed (rooted pattern).toList := by
  induction pattern using List.reverseRecOn with
  | nil => exact wellFormed_slash
  | append_singleton es n ih =>
    rw [List.forall_mem_append, List.forall_mem_singleton] at h
    rw [Path.rooted_concat, String.toList_append]
    refine WellFormed.append ?_ h.2
    rw [opened]
    split
    · exact wellFormed_slash
    · rw [String.toList_append]
      exact (ih h.1).append wellFormed_slash

theorem length_le_rooted (es : List String) : es.length ≤ (rooted es).toList.length := by
  induction es using List.reverseRecOn with
  | nil => exact Nat.zero_le _
  | append_singleton es n ih =>
    have hopened : es.length < (opened es).toList.length := by
      rw [opened]
      split
      · rename_i hes
        simp [hes]
      · rw [String.toList_append, List.length_append]
        exact Nat.lt_succ_of_le ih
    rw [Path.rooted_concat, String.toList_append, List.length_append, List.length_append]
    simp only [List.length_singleton]
    omega

/-- A pattern without special characters fits one path only, its own. -/
theorem forall₂_fits_plain (hpattern : IsPlace pattern) (h : hasMeta (rooted pattern) = false) :
    List.Forall₂ Fits pattern place ↔ place = pattern := by
  have hplain : ∀ p ∈ pattern, hasMeta p = false := by
    intro p hp
    rw [hasMeta_eq_false_iff] at h ⊢
    rw [← Path.elements_rooted hpattern] at hp
    exact fun c hc => h c (Path.mem_of_mem_element hp hc)
  clear h
  induction pattern generalizing place with
  | nil => rw [List.forall₂_nil_left_iff]
  | cons p pattern ih =>
    rw [List.forall_mem_cons] at hplain
    obtain ⟨hp, htail⟩ := List.forall_mem_cons.mp hpattern
    rw [List.forall₂_cons_left_iff]
    constructor
    · rintro ⟨n, rest, hfits, hrest, rfl⟩
      rw [(fits_plain hplain.1 hp.1.1).mp hfits, (ih htail hplain.2).mp hrest]
    · rintro rfl
      exact ⟨p, pattern, (fits_plain hplain.1 hp.1.1).mpr rfl, (ih htail hplain.2).mpr rfl, rfl⟩

theorem forall₂_concat_iff {α β : Type} {R : α → β → Prop} {xs : List α} {x : α} {ys : List β} :
    List.Forall₂ R (xs ++ [x]) ys ↔ ∃ zs y, ys = zs ++ [y] ∧ List.Forall₂ R xs zs ∧ R x y := by
  constructor
  · intro h
    induction xs generalizing ys with
    | nil =>
      obtain ⟨y, rest, hy, hrest, rfl⟩ := List.forall₂_cons_left_iff.mp h
      obtain rfl := List.forall₂_nil_left_iff.mp hrest
      exact ⟨[], y, rfl, .nil, hy⟩
    | cons a xs ih =>
      obtain ⟨b, rest, hb, hrest, rfl⟩ := List.forall₂_cons_left_iff.mp h
      obtain ⟨zs, y, rfl, hzs, hy⟩ := ih hrest
      exact ⟨b :: zs, y, rfl, .cons hb hzs, hy⟩
  · rintro ⟨zs, y, rfl, hzs, hy⟩
    exact List.rel_append hzs (.cons hy .nil)

/-- What stands in some directories under names that fit a pattern, each place once. -/
structure Below (v : FileView) (last : String) (directories children : List (List String)) : Prop where
  nodup : children.Nodup
  mem_iff (child : List String) : child ∈ children ↔ ∃ place ∈ directories, ∃ n,
    child = place ++ [n] ∧ IsName n ∧ Fits last n ∧ v.has (rooted child) = true

/-- The existing places whose elements fit those of a pattern, each once. -/
structure Expands (v : FileView) (pattern : List String) (places : List (List String)) : Prop where
  nodup : places.Nodup
  mem_iff (place : List String) : place ∈ places ↔
    IsPlace place ∧ List.Forall₂ Fits pattern place ∧ v.has (rooted place) = true

/-- Among places that fit a pattern, all directories that do. -/
structure Covers (v : FileView) (pattern : List String) (directories : List (List String)) : Prop where
  nodup : directories.Nodup
  isPlace : ∀ place ∈ directories, IsPlace place
  mem_iff {place : List String} : IsPlace place → v.kind (rooted place) = .ok .directory →
    (place ∈ directories ↔ List.Forall₂ Fits pattern place)

theorem nodup_sortNames {names : List String} (h : names.Nodup) : (sortNames names).Nodup :=
  (List.mergeSort_perm _ _).nodup_iff.mpr h

theorem mem_sortNames {names : List String} {n : String} : n ∈ sortNames names ↔ n ∈ names :=
  (List.mergeSort_perm _ _).mem_iff

def fitting (chunks : List Chunk) (names : List String) : List String :=
  (sortNames names).filter fun n => matchChunks chunks (Utf8.encode n)

/-- In a directory, the names that fit are found, and a pattern that cannot be read is an error unless
there are no names; nothing is found elsewhere. -/
theorem answer_inDirectory (directory last : String) (v : FileView) :
    (inDirectory directory last : Survey _).answer v =
      if v.kind directory = .ok .directory then
        (parse? last).elim (if (sortNames (v.names directory)).isEmpty then some [] else none)
          fun chunks => some ((fitting chunks (v.names directory)).map (Path.join directory))
      else some [] := by
  rw [inDirectory, Survey.answer_bind, Survey.answer_kind]
  cases hkind : v.kind directory with
  | error fault => rfl
  | ok kind =>
    cases kind with
    | file => rfl
    | directory =>
      rw [if_pos rfl]
      cases parse? last <;> rfl

theorem isSome_inDirectory (directory : String) (h : WellFormed last.toList) (v : FileView) :
    ((inDirectory directory last : Survey _).answer v).isSome = true := by
  obtain ⟨chunks, hchunks⟩ := Option.isSome_iff_exists.mp (isSome_parse?.mpr h)
  rw [answer_inDirectory, hchunks]
  split <;> rfl

/-- The children of one directory, by their names. -/
theorem Below.of_names {names : List String} (hnodup : names.Nodup)
    (hmem : ∀ n, n ∈ names ↔ IsName n ∧ Fits last n ∧ v.has (rooted (place ++ [n])) = true) :
    Below v last [place] (names.map fun n => place ++ [n]) where
  nodup := hnodup.map fun a b hab => by simpa using hab
  mem_iff child := by
    rw [List.mem_map]
    constructor
    · rintro ⟨n, hn, rfl⟩
      exact ⟨place, List.mem_singleton_self _, n, rfl, (hmem n).mp hn⟩
    · rintro ⟨other, hother, n, rfl, hn⟩
      obtain rfl := List.mem_singleton.mp hother
      exact ⟨n, (hmem n).mpr hn, rfl⟩

theorem below_inDirectory (hv : v.Consistent) (hplace : IsPlace place) {found : List String}
    (h : (inDirectory (rooted place) last : Survey _).answer v = some found) :
    ∃ children, Below v last [place] children ∧ found = children.map rooted := by
  suffices hnames : ∃ names : List String, names.Nodup ∧ (∀ n, n ∈ names ↔ IsName n ∧ Fits last n ∧
      v.has (rooted (place ++ [n])) = true) ∧ found = names.map (Path.join (rooted place)) by
    obtain ⟨names, hnodup, hmem, rfl⟩ := hnames
    refine ⟨_, Below.of_names hnodup hmem, ?_⟩
    rw [List.map_map]
    exact List.map_congr_left fun n hn => Path.join_rooted hplace ((hmem n).mp hn).1
  rw [answer_inDirectory] at h
  split at h
  · rename_i hdirectory
    have hhas : ∀ n, IsName n → (v.has (rooted (place ++ [n])) = true ↔ n ∈ v.names (rooted place)) := by
      intro n hn
      rw [hv.has_iff hplace hn]
      exact and_iff_right hdirectory
    cases hparse : parse? last with
    | none =>
      rw [hparse, Option.elim_none] at h
      split at h
      · cases h
        refine ⟨[], List.nodup_nil, fun n => iff_of_false List.not_mem_nil ?_, rfl⟩
        rintro ⟨-, ⟨chunks, hchunks, -⟩, -⟩
        rw [hparse] at hchunks
        cases hchunks
      · cases h
    | some chunks =>
      rw [hparse, Option.elim_some] at h
      cases h
      refine ⟨_, (nodup_sortNames (hv.nodup hplace)).filter _, fun n => ?_, rfl⟩
      have hfits : Fits last n ↔ matchChunks chunks (Utf8.encode n) = true := by
        simp [Fits, hparse]
      rw [List.mem_filter, mem_sortNames, hfits]
      constructor
      · rintro ⟨hn, hmatch⟩
        have hname := hv.isName hplace hn
        exact ⟨hname, hmatch, (hhas n hname).mpr hn⟩
      · rintro ⟨hname, hmatch, hn⟩
        exact ⟨(hhas n hname).mp hn, hmatch⟩
  · rename_i hdirectory
    cases h
    refine ⟨[], List.nodup_nil, fun n => iff_of_false List.not_mem_nil ?_, rfl⟩
    rintro ⟨hname, -, hhas⟩
    exact hdirectory ((hv.has_iff hplace hname).mp hhas).1

theorem answer_inDirectories_cons (directory : String) (directories : List String) (v : FileView) :
    (inDirectories last (directory :: directories) : Survey _).answer v =
      ((inDirectory directory last : Survey _).answer v).bind fun found =>
        ((inDirectories last directories : Survey _).answer v).map (found ++ ·) := by
  rw [inDirectories, Survey.answer_bind]
  cases (inDirectory directory last : Survey _).answer v with
  | none => rfl
  | some found =>
    dsimp only
    rw [Survey.answer_bind]
    cases (inDirectories last directories : Survey _).answer v <;> rfl

theorem isSome_inDirectories (directories : List String) (h : WellFormed last.toList) (v : FileView) :
    ((inDirectories last directories : Survey _).answer v).isSome = true := by
  induction directories with
  | nil => rfl
  | cons directory directories ih =>
    obtain ⟨found, hfound⟩ := Option.isSome_iff_exists.mp (isSome_inDirectory directory h v)
    rw [answer_inDirectories_cons, hfound, Option.bind_some, Option.isSome_map, ih]

theorem below_inDirectories (hv : v.Consistent) {directories : List (List String)}
    (hplaces : ∀ place ∈ directories, IsPlace place) (hnodup : directories.Nodup) {found : List String}
    (h : (inDirectories last (directories.map rooted) : Survey _).answer v = some found) :
    ∃ children, Below v last directories children ∧ found = children.map rooted := by
  induction directories generalizing found with
  | nil =>
    obtain rfl : [] = found := Option.some.inj h
    exact ⟨[], ⟨List.nodup_nil, fun child => by simp⟩, rfl⟩
  | cons place directories ih =>
    rw [List.forall_mem_cons] at hplaces
    rw [List.nodup_cons] at hnodup
    rw [List.map_cons, answer_inDirectories_cons, Option.bind_eq_some_iff] at h
    obtain ⟨first, hfirst, hmore⟩ := h
    obtain ⟨more, hanswer, rfl⟩ := Option.map_eq_some_iff.mp hmore
    obtain ⟨here, hhere, rfl⟩ := below_inDirectory hv hplaces.1 hfirst
    obtain ⟨others, hothers, rfl⟩ := ih hplaces.2 hnodup.2 hanswer
    refine ⟨here ++ others, ⟨hhere.nodup.append hothers.nodup ?_, fun child => ?_⟩, by simp⟩
    · intro child hleft hright
      obtain ⟨_, hplace, n, rfl, -⟩ := (hhere.mem_iff child).mp hleft
      obtain ⟨other, hother, m, heq, -⟩ := (hothers.mem_iff _).mp hright
      obtain rfl := List.mem_singleton.mp hplace
      obtain ⟨rfl, -⟩ := List.append_inj' heq rfl
      exact hnodup.1 hother
    · rw [List.mem_append, hhere.mem_iff, hothers.mem_iff]
      simp

theorem answer_expandFrom_plain (fuel : Nat) {path : String} (h : hasMeta path = false) (v : FileView) :
    (expandFrom (fuel + 1) path : Survey _).answer v = some (if v.has path then [path] else []) := by
  have hparse : (parse? path).isNone = false := by
    have hsome := isSome_parse?.mpr (WellFormed.of_plain (hasMeta_eq_false_iff.mp h))
    rw [Option.isNone_eq_false_iff, hsome]
  rw [expandFrom, hparse, h]
  simp

/-- One more level: what fits the last element is looked for in the directories that fit the others. -/
theorem answer_expandFrom_concat (fuel : Nat) {es : List String} (hlast : '/' ∉ last.toList)
    (hparse : (parse? (rooted (es ++ [last]))).isSome = true)
    (hmeta : hasMeta (rooted (es ++ [last])) = true) (v : FileView) :
    (expandFrom (fuel + 1) (rooted (es ++ [last])) : Survey _).answer v =
      (if hasMeta (rooted es) then (expandFrom fuel (rooted es) : Survey _).answer v
        else some [rooted es]).bind fun directories =>
          (inDirectories last directories : Survey _).answer v := by
  have hnone : (parse? (rooted (es ++ [last]))).isNone = false := Option.isNone_eq_false_iff.mpr hparse
  rw [expandFrom, hnone, hmeta, Path.split_rooted es hlast]
  simp only [Bool.false_eq_true, if_false, Bool.not_true, directoryPart_opened]
  cases hasMeta (rooted es) with
  | false =>
    rw [Bool.not_false, if_pos rfl, if_neg Bool.false_ne_true, Option.bind_some,
      answer_inDirectories_cons]
    cases (inDirectory (rooted es) last : Survey _).answer v with
    | none => rfl
    | some found => exact congrArg some (List.append_nil found).symm
  | true =>
    rw [Bool.not_true, if_neg Bool.false_ne_true, if_pos rfl, Survey.answer_bind]
    cases (expandFrom fuel (rooted es) : Survey _).answer v <;> rfl

/-- A pattern with special characters has a last element, so there is a level to take off. -/
theorem exists_concat_of_hasMeta (h : hasMeta (rooted pattern) = true) :
    ∃ es last, pattern = es ++ [last] := by
  rcases List.eq_nil_or_concat pattern with rfl | ⟨es, last, hconcat⟩
  · exact absurd h (by decide)
  · exact ⟨es, last, by rw [hconcat, List.concat_eq_append]⟩

theorem expands_plain (hpattern : IsPlace pattern) (h : hasMeta (rooted pattern) = false)
    (v : FileView) : Expands v pattern (if v.has (rooted pattern) then [pattern] else []) where
  nodup := by split <;> simp
  mem_iff place := by
    rw [forall₂_fits_plain hpattern h]
    split
    · rename_i hhas
      rw [List.mem_singleton]
      constructor
      · rintro rfl
        exact ⟨hpattern, rfl, hhas⟩
      · exact fun hplace => hplace.2.1
    · rename_i hhas
      refine iff_of_false List.not_mem_nil ?_
      rintro ⟨-, rfl, hplace⟩
      exact hhas hplace

/-- A path without special characters is not looked up as a directory, so it need not exist. -/
theorem covers_plain (hpattern : IsPlace pattern) (h : hasMeta (rooted pattern) = false)
    (v : FileView) : Covers v pattern [pattern] where
  nodup := List.nodup_singleton pattern
  isPlace := List.forall_mem_singleton.mpr hpattern
  mem_iff _ _ := by rw [List.mem_singleton, forall₂_fits_plain hpattern h]

theorem Expands.covers {places : List (List String)} (h : Expands v pattern places) :
    Covers v pattern places where
  nodup := h.nodup
  isPlace place hmem := ((h.mem_iff place).mp hmem).1
  mem_iff {place} hplace hdirectory := by
    have hhas : v.has (rooted place) = true := by
      rw [FileView.has, hdirectory]
      rfl
    rw [h.mem_iff]
    exact ⟨fun hmem => hmem.2.1, fun hfits => ⟨hplace, hfits, hhas⟩⟩

/-- The step of the expansion: what stands below something is below a directory. -/
theorem Below.expands (hv : v.Consistent) {directories children : List (List String)}
    (hbelow : Below v last directories children) (hcovers : Covers v pattern directories) :
    Expands v (pattern ++ [last]) children where
  nodup := hbelow.nodup
  mem_iff child := by
    rw [hbelow.mem_iff, forall₂_concat_iff]
    constructor
    · rintro ⟨place, hmem, n, rfl, hn, hfits, hhas⟩
      have hplace := hcovers.isPlace place hmem
      have hdirectory := ((hv.has_iff hplace hn).mp hhas).1
      refine ⟨List.forall_mem_append.mpr ⟨hplace, List.forall_mem_singleton.mpr hn⟩, ?_, hhas⟩
      exact ⟨place, n, rfl, (hcovers.mem_iff hplace hdirectory).mp hmem, hfits⟩
    · rintro ⟨hchild, ⟨place, n, rfl, hplace, hfits⟩, hhas⟩
      obtain ⟨hnames, hlast⟩ := List.forall_mem_append.mp hchild
      have hn : IsName n := hlast n (List.mem_singleton_self n)
      have hdirectory := ((hv.has_iff hnames hn).mp hhas).1
      exact ⟨place, (hcovers.mem_iff hnames hdirectory).mpr hplace, n, rfl, hn, hfits, hhas⟩

theorem isSome_expandFrom (hpattern : IsPlace pattern) (h : ∀ p ∈ pattern, WellFormed p.toList)
    {fuel : Nat} (hfuel : pattern.length < fuel) (v : FileView) :
    ((expandFrom fuel (rooted pattern) : Survey _).answer v).isSome = true := by
  induction fuel generalizing pattern with
  | zero => omega
  | succ fuel ih =>
    cases hmeta : hasMeta (rooted pattern) with
    | false => rw [answer_expandFrom_plain fuel hmeta, Option.isSome_some]
    | true =>
      obtain ⟨es, last, rfl⟩ := exists_concat_of_hasMeta hmeta
      obtain ⟨hes, hname⟩ := List.forall_mem_append.mp hpattern
      obtain ⟨hfront, hlast⟩ := List.forall_mem_append.mp h
      rw [List.forall_mem_singleton] at hname hlast
      rw [List.length_append, List.length_singleton] at hfuel
      have hdirectories : (if hasMeta (rooted es) then (expandFrom fuel (rooted es) : Survey _).answer v
          else some [rooted es]).isSome = true := by
        split
        · exact ih hes hfront (by omega)
        · rfl
      obtain ⟨directories, hdirectories⟩ := Option.isSome_iff_exists.mp hdirectories
      rw [answer_expandFrom_concat fuel hname.1.2 (isSome_parse?.mpr (wellFormed_rooted h)) hmeta,
        hdirectories]
      exact isSome_inDirectories directories hlast v

theorem expands_expandFrom (hv : v.Consistent) (hpattern : IsPlace pattern) {fuel : Nat}
    {found : List String} (h : (expandFrom fuel (rooted pattern) : Survey _).answer v = some found) :
    ∃ places, Expands v pattern places ∧ found = places.map rooted := by
  induction fuel generalizing pattern found with
  | zero => cases h
  | succ fuel ih =>
    cases hmeta : hasMeta (rooted pattern) with
    | false =>
      rw [answer_expandFrom_plain fuel hmeta] at h
      refine ⟨_, expands_plain hpattern hmeta v, ?_⟩
      cases h
      split <;> rfl
    | true =>
      obtain ⟨es, last, rfl⟩ := exists_concat_of_hasMeta hmeta
      obtain ⟨hes, hname⟩ := List.forall_mem_append.mp hpattern
      rw [List.forall_mem_singleton] at hname
      have hparse : (parse? (rooted (es ++ [last]))).isSome = true := by
        cases hnone : parse? (rooted (es ++ [last])) with
        | some chunks => rfl
        | none => simp [expandFrom, hnone] at h
      rw [answer_expandFrom_concat fuel hname.1.2 hparse hmeta, Option.bind_eq_some_iff] at h
      obtain ⟨upper, hupper, hfound⟩ := h
      obtain ⟨directories, hcovers, rfl⟩ :
          ∃ directories, Covers v es directories ∧ upper = directories.map rooted := by
        cases hfront : hasMeta (rooted es) with
        | false =>
          rw [hfront, if_neg Bool.false_ne_true] at hupper
          cases hupper
          exact ⟨[es], covers_plain hes hfront v, rfl⟩
        | true =>
          rw [hfront, if_pos rfl] at hupper
          obtain ⟨places, hexpands, rfl⟩ := ih hes hupper
          exact ⟨places, hexpands.covers, rfl⟩
      obtain ⟨children, hbelow, rfl⟩ := below_inDirectories hv hcovers.isPlace hcovers.nodup hfound
      exact ⟨children, hbelow.expands hv hcovers, rfl⟩

/-- An existing path, read as a pattern, stands for itself alone exactly if it fits itself and no other
existing path fits it. -/
theorem answer_expand_eq_self_iff (hv : v.Consistent) (hpattern : IsPlace pattern)
    (hhas : v.has (rooted pattern) = true) :
    (expand (rooted pattern) : Survey _).answer v = some [rooted pattern] ↔
      ∀ place, IsPlace place → v.has (rooted place) = true →
        (List.Forall₂ Fits pattern place ↔ place = pattern) := by
  rw [expand]
  constructor
  · intro h place hplace hexists
    obtain ⟨places, hexpands, hfound⟩ := expands_expandFrom hv hpattern h
    obtain ⟨only, rfl, honly⟩ := List.map_eq_singleton_iff.mp hfound.symm
    have hmem := (hexpands.mem_iff only).mp (List.mem_singleton_self only)
    obtain rfl := Path.rooted_inj hmem.1 hpattern honly
    rw [← List.mem_singleton, hexpands.mem_iff]
    exact ⟨fun hfits => ⟨hplace, hfits, hexists⟩, fun h => h.2.1⟩
  · intro h
    have hself : List.Forall₂ Fits pattern pattern := (h pattern hpattern hhas).mpr rfl
    have hwell : ∀ p ∈ pattern, WellFormed p.toList := by
      intro p hp
      obtain ⟨chunks, hchunks, -⟩ := List.forall₂_same.mp hself p hp
      exact isSome_parse?.mp (by rw [hchunks]; rfl)
    have hfuel : pattern.length < (rooted pattern).toList.length + 1 :=
      Nat.lt_succ_of_le (length_le_rooted pattern)
    obtain ⟨found, hfound⟩ := Option.isSome_iff_exists.mp (isSome_expandFrom hpattern hwell hfuel v)
    obtain ⟨places, hexpands, rfl⟩ := expands_expandFrom hv hpattern hfound
    have hmem : ∀ place, place ∈ places ↔ place ∈ [pattern] := by
      intro place
      rw [hexpands.mem_iff, List.mem_singleton]
      constructor
      · rintro ⟨hplace, hfits, hexists⟩
        exact (h place hplace hexists).mp hfits
      · rintro rfl
        exact ⟨hpattern, hself, hhas⟩
    have hperm := (List.perm_ext_iff_of_nodup hexpands.nodup (List.nodup_singleton pattern)).mpr hmem
    rw [hfound, List.perm_singleton.mp hperm, List.map_singleton]

/-- A path without special characters stands for itself if it exists. -/
theorem answer_expand_plain {path : String} (h : hasMeta path = false) (hhas : v.has path = true) :
    (expand path : Survey _).answer v = some [path] := by
  rw [expand, answer_expandFrom_plain _ h, if_pos hhas]

theorem hasMeta_join {a b : String} (ha : hasMeta a = false) (hb : hasMeta b = false) :
    hasMeta (Path.join a b) = false := by
  rw [hasMeta_eq_false_iff] at ha hb ⊢
  have hclean : ∀ path : String, (∀ c ∈ path.toList, isMeta c = false) →
      ∀ c ∈ (Path.clean path).toList, isMeta c = false := by
    intro path hpath c hc
    rcases Path.mem_clean hc with hc | rfl | rfl
    · exact hpath c hc
    · rfl
    · rfl
  unfold Path.join
  split
  · split
    · exact nofun
    · exact hclean b hb
  · apply hclean
    intro c hc
    simp only [String.toList_append, List.mem_append] at hc
    rcases hc with (hc | hc) | hc
    · exact ha c hc
    · obtain rfl : c = '/' := List.mem_singleton.mp hc
      rfl
    · exact hb c hc

theorem describes_inDirectory (directory last : String) :
    (inDirectory directory last : Survey _).Describes (inDirectory directory last) := by
  refine .bind (.kind directory) fun kind => ?_
  split
  · refine .bind (.names directory) fun names => ?_
    split
    · exact .pure _
    · exact .pure _
  · exact .pure _

theorem describes_inDirectories (last : String) (directories : List String) :
    (inDirectories last directories : Survey _).Describes (inDirectories last directories) := by
  induction directories with
  | nil => exact .pure _
  | cons directory directories ih =>
    refine .bind (describes_inDirectory directory last) fun found => ?_
    cases found with
    | none => exact .pure _
    | some found =>
      refine .bind ih fun more => ?_
      cases more with
      | none => exact .pure _
      | some more => exact .pure _

theorem describes_expandFrom (fuel : Nat) (pattern : String) :
    (expandFrom fuel pattern : Survey _).Describes (expandFrom fuel pattern) := by
  induction fuel generalizing pattern with
  | zero => exact .pure _
  | succ fuel ih =>
    refine .ite (.pure _) (.ite ?_ (.ite (describes_inDirectory _ _) ?_))
    · exact .bind (.exist pattern) fun found => .pure _
    · refine .bind (ih _) fun found => ?_
      cases found with
      | none => exact .pure _
      | some directories => exact describes_inDirectories _ _

end SlotBoard.Glob
