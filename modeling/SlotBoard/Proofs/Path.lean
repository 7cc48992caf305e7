import Mathlib.Tactic.SplitIfs
import SlotBoard.Path

/-!
The elements of a cleaned path. They come from the pieces between slashes, one cleaning step after the
other. In a path from the root all of them are names, so that such a path and its elements determine each
other: to go into a directory adds a name at the end, to go to its parent takes the last one away, and
the root is its own parent.
-/
namespace SlotBoard.Path

def IsElement (piece : String) : Prop := piece ≠ "" ∧ '/' ∉ piece.toList

def IsName (piece : String) : Prop := IsElement piece ∧ piece ≠ "." ∧ piece ≠ ".."

def IsPlace (es : List String) : Prop := ∀ e ∈ es, IsName e

instance (piece : String) : Decidable (IsName piece) := inferInstanceAs (Decidable ((_ ∧ _) ∧ _ ∧ _))

instance (es : List String) : Decidable (IsPlace es) := inferInstanceAs (Decidable (∀ e ∈ es, IsName e))

theorem piecesFrom_eq (letters cs : List Char) :
    piecesFrom letters cs = (cs.splitOnPPrepend (· == '/') letters).map String.ofList := by
  induction cs generalizing letters with
  | nil => rfl
  | cons c cs ih =>
    rw [piecesFrom, List.splitOnPPrepend_cons_eq_if]
    by_cases hc : c = '/'
    · rw [if_pos hc, if_pos (beq_iff_eq.mpr hc), ih]
      rfl
    · rw [if_neg hc, if_neg (by simpa using hc), ih]

theorem pieces_eq_splitOn (path : String) :
    pieces path = (path.toList.splitOn '/').map String.ofList := piecesFrom_eq [] path.toList

theorem pieces_append (a b : String) : pieces (a ++ "/" ++ b) = pieces a ++ pieces b := by
  have hslash : (a ++ "/" ++ b).toList = a.toList ++ '/' :: b.toList := by simp
  rw [pieces_eq_splitOn, hslash, List.splitOn_append_cons_self, List.map_append,
    ← pieces_eq_splitOn, ← pieces_eq_splitOn]

theorem pieces_of_not_mem {piece : String} (h : '/' ∉ piece.toList) : pieces piece = [piece] := by
  rw [pieces_eq_splitOn, List.splitOn_eq_singleton h, List.map_singleton, String.ofList_toList]

theorem mem_piecesFrom {cs letters : List Char} (h : '/' ∉ letters) :
    ∀ piece ∈ piecesFrom letters cs,
      '/' ∉ piece.toList ∧ ∀ c ∈ piece.toList, c ∈ letters ∨ c ∈ cs := by
  induction cs generalizing letters with
  | nil =>
    intro piece hpiece
    rw [piecesFrom, List.mem_singleton] at hpiece
    simp [hpiece, h]
  | cons c cs ih =>
    rw [piecesFrom]
    split
    · rw [List.forall_mem_cons]
      refine ⟨⟨by simpa using h, fun d hd => Or.inl (by simpa using hd)⟩, fun piece hpiece => ?_⟩
      obtain ⟨hslash, hletters⟩ := ih List.not_mem_nil piece hpiece
      refine ⟨hslash, fun d hd => Or.inr (List.mem_cons_of_mem _ ?_)⟩
      exact (hletters d hd).resolve_left List.not_mem_nil
    · rename_i hc
      intro piece hpiece
      have hletters : '/' ∉ c :: letters := by
        simpa [List.mem_cons, h] using fun heq => hc heq.symm
      obtain ⟨hslash, hmem⟩ := ih hletters piece hpiece
      refine ⟨hslash, fun d hd => ?_⟩
      rcases hmem d hd with hd | hd
      · rcases List.mem_cons.mp hd with rfl | hd
        · exact Or.inr List.mem_cons_self
        · exact Or.inl hd
      · exact Or.inr (List.mem_cons_of_mem _ hd)

/-- What a cleaning step can put into the elements: its piece, if that is not empty and not a dot. Two
dots are put there only where they have nothing to undo. -/
theorem mem_cleanStep {rooted : Bool} {done : List String} {piece e : String}
    (h : e ∈ cleanStep rooted done piece) :
    e ∈ done ∨ e = piece ∧ piece ≠ "" ∧ piece ≠ "." ∧
      (piece = ".." → rooted = false ∨ ".." ∈ done) := by
  unfold cleanStep at h
  split at h
  · exact Or.inl h
  · rename_i hname
    obtain ⟨hempty, hdot⟩ := not_or.mp hname
    split at h
    · rename_i hup
      cases done with
      | nil =>
        cases rooted with
        | true => exact Or.inl h
        | false => exact Or.inr ⟨(List.mem_singleton.mp h).trans hup.symm, hempty, hdot, fun _ => Or.inl rfl⟩
      | cons last rest =>
        dsimp only at h
        split at h
        · rename_i hlast
          rcases List.mem_cons.mp h with he | he
          · refine Or.inr ⟨he.trans hup.symm, hempty, hdot, fun _ => Or.inr ?_⟩
            exact hlast ▸ List.mem_cons_self
          · exact Or.inl he
        · exact Or.inl (List.mem_cons_of_mem _ h)
    · rename_i hup
      rcases List.mem_cons.mp h with he | he
      · exact Or.inr ⟨he, hempty, hdot, fun h => absurd h hup⟩
      · exact Or.inl he

/-- What every cleaning step keeps of the elements so far holds of all elements in the end. -/
theorem forall_mem_elements {path : String} {P : String → Prop}
    (hstep : ∀ done, (∀ e ∈ done, P e) → ∀ piece ∈ pieces path,
      ∀ e ∈ cleanStep (isAbsolute path) done piece, P e) : ∀ e ∈ elements path, P e := by
  have hfold : ∀ (some done : List String), some ⊆ pieces path → (∀ e ∈ done, P e) →
      ∀ e ∈ some.foldl (cleanStep (isAbsolute path)) done, P e := by
    intro some
    induction some with
    | nil => exact fun done _ hdone => hdone
    | cons piece some ih =>
      intro done hsome hdone
      rw [List.cons_subset] at hsome
      exact ih _ hsome.2 (hstep done hdone piece hsome.1)
  intro e he
  rw [elements, List.mem_reverse] at he
  exact hfold _ [] (List.Subset.refl _) (by simp) e he

theorem isElement_of_mem (path : String) {e : String} (h : e ∈ elements path) : IsElement e := by
  refine forall_mem_elements (fun done hdone piece hpiece x hx => ?_) e h
  rcases mem_cleanStep hx with hx | ⟨rfl, hempty, -⟩
  · exact hdone x hx
  · exact ⟨hempty, (mem_piecesFrom List.not_mem_nil x hpiece).1⟩

/-- From the root, two dots always have something to undo or are dropped. -/
theorem isName_of_mem {path : String} (habsolute : isAbsolute path = true) {e : String}
    (h : e ∈ elements path) : IsName e := by
  refine forall_mem_elements (fun done hdone piece hpiece x hx => ?_) e h
  rcases mem_cleanStep hx with hx | ⟨rfl, hempty, hdot, hup⟩
  · exact hdone x hx
  · refine ⟨⟨hempty, (mem_piecesFrom List.not_mem_nil x hpiece).1⟩, hdot, fun heq => ?_⟩
    rcases hup heq with hrooted | hmem
    · rw [habsolute] at hrooted
      cases hrooted
    · exact (hdone _ hmem).2.2 rfl

theorem mem_intercalate {es : List String} {c : Char} (h : c ∈ ("/".intercalate es).toList) :
    c = '/' ∨ ∃ e ∈ es, c ∈ e.toList := by
  induction es with
  | nil => simp at h
  | cons e es ih =>
    by_cases hes : es = []
    · subst hes
      rw [String.intercalate_singleton] at h
      exact Or.inr ⟨e, List.mem_cons_self, h⟩
    · rw [String.intercalate_cons_of_ne_nil hes, String.toList_append, String.toList_append,
        List.mem_append, List.mem_append] at h
      rcases h with (h | h) | h
      · exact Or.inr ⟨e, List.mem_cons_self, h⟩
      · exact Or.inl (List.mem_singleton.mp h)
      · exact (ih h).imp_right fun ⟨x, hx, hc⟩ => ⟨x, List.mem_cons_of_mem _ hx, hc⟩

/-- The letters of an element are letters of the path. -/
theorem mem_of_mem_element {path e : String} (h : e ∈ elements path) {c : Char}
    (hc : c ∈ e.toList) : c ∈ path.toList := by
  refine forall_mem_elements (P := fun e => ∀ c ∈ e.toList, c ∈ path.toList)
    (fun done hdone piece hpiece x hx => ?_) e h c hc
  rcases mem_cleanStep hx with hx | ⟨rfl, -⟩
  · exact hdone x hx
  · intro d hd
    exact ((mem_piecesFrom List.not_mem_nil x hpiece).2 d hd).resolve_left List.not_mem_nil

/-- Cleaning makes no letters but slashes and a dot. -/
theorem mem_clean {path : String} {c : Char} (h : c ∈ (clean path).toList) :
    c ∈ path.toList ∨ c = '/' ∨ c = '.' := by
  have hbody : c ∈ ("/".intercalate (elements path)).toList → c ∈ path.toList ∨ c = '/' ∨ c = '.' := by
    intro hc
    rcases mem_intercalate hc with rfl | ⟨e, he, hc⟩
    · exact Or.inr (Or.inl rfl)
    · exact Or.inl (mem_of_mem_element he hc)
  unfold clean at h
  dsimp only at h
  split_ifs at h
  · rw [String.toList_append, List.mem_append] at h
    rcases h with h | h
    · exact Or.inr (Or.inl (List.mem_singleton.mp h))
    · exact hbody h
  · exact Or.inr (Or.inr (List.mem_singleton.mp h))
  · exact hbody h

/-- A cleaned path does not end with a slash, unless it is the root. -/
theorem clean_ends (path : String) :
    clean path = "/" ∨ (clean path).toList.getLast? ≠ some '/' := by
  have hbody : elements path = [] ∨ ∃ front last, IsElement last ∧
      "/".intercalate (elements path) = front ++ last := by
    rcases List.eq_nil_or_concat (elements path) with hnil | ⟨init, last, hconcat⟩
    · exact Or.inl hnil
    · have hlast : IsElement last := isElement_of_mem path (by simp [hconcat])
      refine Or.inr ?_
      rw [hconcat, List.concat_eq_append]
      by_cases hinit : init = []
      · exact ⟨"", last, hlast, by simp [hinit]⟩
      · refine ⟨"/".intercalate init ++ "/", last, hlast, ?_⟩
        rw [String.intercalate_append_of_ne_nil hinit (by simp), String.intercalate_singleton]
  have hend : ∀ front last : String, IsElement last → (front ++ last).toList.getLast? ≠ some '/' := by
    intro front last hlast hslash
    have hne : last.toList ≠ [] := fun hnil => hlast.1 (String.toList_eq_nil_iff.mp hnil)
    rw [String.toList_append, List.getLast?_append, List.getLast?_eq_some_getLast hne,
      Option.some_or, Option.some_inj] at hslash
    exact hlast.2 (hslash ▸ List.getLast_mem hne)
  unfold clean
  rcases hbody with hnil | ⟨front, last, hlast, hjoined⟩
  · rw [hnil]
    cases isAbsolute path
    · exact Or.inr (by decide)
    · exact Or.inl (by decide)
  · have hne : front ++ last ≠ "" := fun hempty => hlast.1 (String.append_eq_empty_iff.mp hempty).2
    right
    rw [hjoined]
    dsimp only
    rw [if_neg hne]
    split
    · rw [← String.append_assoc]
      exact hend _ _ hlast
    · exact hend _ _ hlast

section Rooted

variable {es : List String} {n : String}

theorem foldl_cleanStep_names (rooted : Bool) (done : List String) (h : IsPlace es) :
    es.foldl (cleanStep rooted) done = es.reverse ++ done := by
  induction es generalizing done with
  | nil => rfl
  | cons e es ih =>
    obtain ⟨⟨hempty, -⟩, hdot, hup⟩ := List.forall_mem_cons.mp h |>.1
    have hstep : cleanStep rooted done e = e :: done := by
      unfold cleanStep
      rw [if_neg (not_or.mpr ⟨hempty, hdot⟩), if_neg hup]
    rw [List.foldl_cons, hstep, ih _ (List.forall_mem_cons.mp h).2, List.reverse_cons,
      List.append_assoc]
    rfl

theorem isAbsolute_rooted (es : List String) : isAbsolute (rooted es) = true := by
  simp [isAbsolute, rooted]

theorem clean_eq_rooted {path : String} (h : isAbsolute path = true) :
    clean path = rooted (elements path) := by
  rw [clean, h]
  rfl

theorem pieces_rooted (es : List String) : pieces (rooted es) = "" :: pieces ("/".intercalate es) := by
  have hsplit : rooted es = "" ++ "/" ++ "/".intercalate es := by simp [rooted]
  rw [hsplit, pieces_append]
  rfl

theorem pieces_intercalate (h : IsPlace es) (hne : es ≠ []) : pieces ("/".intercalate es) = es := by
  have hslashes : ∀ cs ∈ es.map String.toList, '/' ∉ cs := by
    rw [List.forall_mem_map]
    exact fun e he => (h e he).1.2
  rw [pieces_eq_splitOn, String.toList_intercalate]
  refine (congrArg _ (List.splitOn_intercalate '/' hslashes (by simpa using hne))).trans ?_
  simp

/-- The pieces of a path from the root, cleaned: what does not count is dropped. -/
theorem foldl_pieces_rooted (h : IsPlace es) :
    (pieces (rooted es)).foldl (cleanStep true) [] = es.reverse := by
  rw [pieces_rooted, List.foldl_cons]
  by_cases hes : es = []
  · subst hes
    rfl
  · rw [pieces_intercalate h hes]
    exact (foldl_cleanStep_names true _ h).trans (List.append_nil _)

theorem elements_rooted (h : IsPlace es) : elements (rooted es) = es := by
  rw [elements, isAbsolute_rooted, foldl_pieces_rooted h, List.reverse_reverse]

theorem rooted_inj {es' : List String} (h : IsPlace es) (h' : IsPlace es')
    (heq : rooted es = rooted es') : es = es' := by
  rw [← elements_rooted h, heq, elements_rooted h']

/-- A path below a directory, cleaned. -/
theorem clean_below (h : IsPlace es) (tail : String) (rest : List String)
    (htail : ∀ done, (pieces tail).foldl (cleanStep true) done = rest.reverse ++ done) :
    clean (rooted es ++ "/" ++ tail) = rooted (es ++ rest) := by
  have habsolute : isAbsolute (rooted es ++ "/" ++ tail) = true := by simp [isAbsolute, rooted]
  rw [clean_eq_rooted habsolute, elements, habsolute, pieces_append, List.foldl_append,
    foldl_pieces_rooted h, htail, List.reverse_append, List.reverse_reverse, List.reverse_reverse]

theorem join_rooted (h : IsPlace es) (hn : IsName n) :
    join (rooted es) n = rooted (es ++ [n]) := by
  have hne : rooted es ≠ "" := by simp [rooted]
  rw [join, if_neg hne]
  refine clean_below h n [n] fun done => ?_
  rw [pieces_of_not_mem hn.1.2]
  exact foldl_cleanStep_names true done (List.forall_mem_singleton.mpr hn)

def opened (es : List String) : String := if es = [] then "/" else rooted es ++ "/"

theorem rooted_concat (es : List String) (n : String) : rooted (es ++ [n]) = opened es ++ n := by
  by_cases hes : es = []
  · rw [opened, if_pos hes, hes, List.nil_append, rooted, String.intercalate_singleton]
  · rw [opened, if_neg hes, rooted, rooted, String.intercalate_append_of_ne_nil hes (by simp),
      String.intercalate_singleton, ← String.append_assoc, ← String.append_assoc]

theorem clean_opened (h : IsPlace es) : clean (opened es) = rooted es := by
  by_cases hes : es = []
  · subst hes
    decide
  · rw [opened, if_neg hes]
    have hclean := clean_below h "" [] fun done => rfl
    rwa [String.append_empty, List.append_nil] at hclean

theorem split_rooted (es : List String) (hn : '/' ∉ n.toList) :
    split (rooted (es ++ [n])) = (opened es, n) := by
  obtain ⟨front, hfront⟩ : ∃ front, (opened es).toList.reverse = '/' :: front := by
    by_cases hes : es = []
    · exact ⟨[], by rw [opened, if_pos hes]; rfl⟩
    · exact ⟨_, by rw [opened, if_neg hes, String.toList_append, List.reverse_append]; rfl⟩
  have hletters : ∀ c ∈ n.toList.reverse, (decide (c ≠ '/')) = true := by
    intro c hc
    refine decide_eq_true fun heq => hn ?_
    exact heq ▸ List.mem_reverse.mp hc
  rw [rooted_concat]
  unfold split
  dsimp only
  rw [String.toList_append, List.reverse_append, List.takeWhile_append_of_pos hletters,
    List.dropWhile_append_of_pos hletters, hfront, List.takeWhile_cons_of_neg (by decide),
    List.dropWhile_cons_of_neg (by decide), ← hfront, List.append_nil, List.reverse_reverse,
    List.reverse_reverse, String.ofList_toList, String.ofList_toList]

theorem parent_rooted (h : IsPlace es) (hn : IsName n) :
    parent (rooted (es ++ [n])) = rooted es := by
  rw [parent, split_rooted es hn.1.2, clean_opened h]

theorem parent_root : parent (rooted []) = rooted [] := by decide

end Rooted

/-- A path from the root, once it is cleaned, goes through names. -/
theorem exists_rooted_clean {path : String} (h : isAbsolute path = true) :
    ∃ es, IsPlace es ∧ clean path = rooted es :=
  ⟨elements path, fun _ he => isName_of_mem h he, clean_eq_rooted h⟩

theorem exists_rooted_join {directory : String} (h : isAbsolute directory = true) (path : String) :
    ∃ es, IsPlace es ∧ join directory path = rooted es := by
  have hne : directory ≠ "" := by
    rintro rfl
    exact absurd h (by decide)
  have hslash : isAbsolute (directory ++ "/" ++ path) = true := by
    unfold isAbsolute at h ⊢
    rw [String.append_assoc, String.toList_append, List.head?_append, of_decide_eq_true h]
    rfl
  rw [join, if_neg hne]
  exact exists_rooted_clean hslash

theorem exists_rooted_absolute {directory : String} (h : isAbsolute directory = true) (path : String) :
    ∃ es, IsPlace es ∧ absolute directory path = rooted es := by
  unfold absolute
  by_cases hpath : isAbsolute path = true
  · rw [if_pos hpath]
    exact exists_rooted_clean hpath
  · rw [if_neg hpath]
    exact exists_rooted_join h path

end SlotBoard.Path
