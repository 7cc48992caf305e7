import Mathlib.Data.List.Induction
import SlotBoard.Editor.Session
import SlotBoard.Proofs.FileTree

/-!
What a session knows. After any events it holds, for each document, the analysis of the latest text that
the document was given since it was last closed, and nothing that an earlier text or another document has
left behind. So every answer is one that a session gives in which the document was only just opened.
Completions come in the order of their labels, and nothing else about their order is fixed.
-/
namespace SlotBoard

namespace EditorEvent

def uri : EditorEvent → String
  | opened uri _ | changed uri _ | closed uri => uri

/-- The text that an event gives to a document. A change gives one if its last part does. -/
def text? : EditorEvent → Option Bytes
  | opened _ text => some text
  | changed _ changes =>
    match changes.getLast? with
    | some (.whole text) => some text
    | _ => none
  | closed _ => none

def sinceClosed (uri : String) (events : List EditorEvent) : List EditorEvent :=
  (events.filter (·.uri = uri)).reverse.takeWhile (· ≠ closed uri)

def latestText? (uri : String) (events : List EditorEvent) : Option Bytes :=
  (sinceClosed uri events).findSome? text?

variable {uri : String} {e : EditorEvent}

theorem latestText?_concat_of_ne (events : List EditorEvent) (h : e.uri ≠ uri) :
    latestText? uri (events ++ [e]) = latestText? uri events := by
  have hfilter : (events ++ [e]).filter (·.uri = uri) = events.filter (·.uri = uri) := by
    simp [List.filter_append, h]
  rw [latestText?, latestText?, sinceClosed, hfilter]
  rfl

theorem sinceClosed_concat (events : List EditorEvent) (h : e.uri = uri) :
    sinceClosed uri (events ++ [e]) =
      if e = closed uri then [] else e :: sinceClosed uri events := by
  have hfilter : (events ++ [e]).filter (·.uri = uri) = events.filter (·.uri = uri) ++ [e] := by
    simp [List.filter_append, h]
  rw [sinceClosed, hfilter, List.reverse_concat]
  split_ifs with hclosed
  · exact List.takeWhile_cons_of_neg (by simpa using hclosed)
  · exact List.takeWhile_cons_of_pos (by simpa using hclosed)

theorem latestText?_concat_closed (events : List EditorEvent) :
    latestText? uri (events ++ [closed uri]) = none := by
  have huri : (closed uri).uri = uri := rfl
  rw [latestText?, sinceClosed_concat events huri, if_pos rfl]
  rfl

theorem latestText?_concat (events : List EditorEvent) (h : e.uri = uri) (hopen : e ≠ closed uri) :
    latestText? uri (events ++ [e]) = e.text?.or (latestText? uri events) := by
  rw [latestText?, sinceClosed_concat events h, if_neg hopen, List.findSome?_cons]
  cases e.text? <;> rfl

end EditorEvent

namespace EditorSession

open EditorEvent

def follow (s : EditorSession) (events : List EditorEvent) : EditorSession :=
  events.foldl (fun s e => (s.handle e).1) s

def justOpened (aliases : Kind.Aliases) (uri : String) : Option Bytes → EditorSession
  | some text => (handle { aliases } (.opened uri text)).1
  | none => { aliases }

theorem follow_concat (s : EditorSession) (events : List EditorEvent) (e : EditorEvent) :
    s.follow (events ++ [e]) = ((s.follow events).handle e).1 := by
  rw [follow, List.foldl_append]
  rfl

/-- What a session can make of an event: a new text is analysed, a closed document is forgotten, and any
other event is passed over. -/
theorem handle_cases (s : EditorSession) (e : EditorEvent) :
    (∃ text, e.text? = some text ∧
      s.handle e = ((s.update e.uri text).1, some (s.update e.uri text).2)) ∨
    (e = closed e.uri ∧ s.handle e = (s.without e.uri, some ⟨e.uri, []⟩)) ∨
    (e.text? = none ∧ e ≠ closed e.uri ∧ s.handle e = (s, none)) := by
  cases e with
  | opened uri text => exact Or.inl ⟨text, rfl, rfl⟩
  | closed uri => exact Or.inr (Or.inl ⟨rfl, rfl⟩)
  | changed uri changes =>
    rw [handle, text?]
    cases changes.getLast? with
    | none => exact Or.inr (Or.inr ⟨rfl, by simp, rfl⟩)
    | some last =>
      cases last with
      | whole text => exact Or.inl ⟨text, rfl, rfl⟩
      | ranged text => exact Or.inr (Or.inr ⟨rfl, by simp, rfl⟩)

theorem aliases_handle (s : EditorSession) (e : EditorEvent) : (s.handle e).1.aliases = s.aliases := by
  obtain ⟨text, -, hstep⟩ | ⟨-, hstep⟩ | ⟨-, -, hstep⟩ := s.handle_cases e
  · rw [hstep]
    rfl
  · rw [hstep]
    rfl
  · rw [hstep]

theorem aliases_follow (s : EditorSession) (events : List EditorEvent) :
    (s.follow events).aliases = s.aliases := by
  induction events using List.reverseRecOn with
  | nil => rfl
  | append_singleton events e ih => rw [follow_concat, aliases_handle, ih]

theorem document?_without (s : EditorSession) (uri other : String) :
    (s.without uri).document? other = if other = uri then none else s.document? other :=
  lookup_filter_ne s.documents uri other

theorem document?_update (s : EditorSession) (uri other : String) (text : Bytes) :
    (s.update uri text).1.document? other =
      if other = uri then some (.ofText s.aliases uri text) else s.document? other := by
  have hlookup : (s.update uri text).1.document? other =
      if other == uri then some (.ofText s.aliases uri text) else (s.without uri).document? other := by
    change List.lookup other ((uri, _) :: (s.without uri).documents) = _
    rw [List.lookup_cons]
    cases other == uri <;> rfl
  rw [hlookup, document?_without]
  by_cases h : other = uri
  · simp [h]
  · simp [h]

/-- An event on one document leaves what is known about another one. -/
theorem document?_handle_of_ne (s : EditorSession) {e : EditorEvent} {uri : String} (h : e.uri ≠ uri) :
    (s.handle e).1.document? uri = s.document? uri := by
  obtain ⟨text, -, hstep⟩ | ⟨-, hstep⟩ | ⟨-, -, hstep⟩ := s.handle_cases e
  · rw [hstep, document?_update, if_neg (Ne.symm h)]
  · rw [hstep, document?_without, if_neg (Ne.symm h)]
  · rw [hstep]

/-- A session knows the analysis of each document's latest text. -/
theorem document?_follow (aliases : Kind.Aliases) (events : List EditorEvent) (uri : String) :
    (follow { aliases } events).document? uri =
      (latestText? uri events).map (Analysis.ofText aliases uri) := by
  induction events using List.reverseRecOn with
  | nil => rfl
  | append_singleton events e ih =>
    rw [follow_concat]
    by_cases huri : e.uri = uri
    · obtain ⟨text, htext, hstep⟩ | ⟨hclosed, hstep⟩ | ⟨htext, hopen, hstep⟩ :=
        (follow { aliases } events).handle_cases e
      · have hopen : e ≠ closed uri := by
          rintro rfl
          cases htext
        rw [hstep, document?_update, if_pos huri.symm, latestText?_concat events huri hopen, htext,
          aliases_follow, huri]
        rfl
      · rw [huri] at hclosed
        rw [hstep, huri, document?_without, if_pos rfl, hclosed, latestText?_concat_closed]
        rfl
      · rw [huri] at hopen
        rw [hstep, ih, latestText?_concat events huri hopen, htext, Option.none_or]
    · rw [document?_handle_of_ne _ huri, ih, latestText?_concat_of_ne events huri]

theorem document?_justOpened (aliases : Kind.Aliases) (uri : String) (text : Option Bytes) :
    (justOpened aliases uri text).document? uri = text.map (Analysis.ofText aliases uri) := by
  cases text with
  | none => rfl
  | some text =>
    change (update { aliases } uri text).1.document? uri = _
    rw [document?_update, if_pos rfl]
    rfl

theorem showModule_ne_unknown (s : EditorSession) (uri command : String) :
    s.showModule uri ≠ .error (.unknownCommand command) := by
  unfold showModule
  split
  · simp
  · split <;> simp

/-- A session knows the commands that it offers, and no others. -/
theorem execute_unknown_iff (s : EditorSession) (command : String) (arguments : List CommandArgument) :
    s.execute command arguments = .error (.unknownCommand command) ↔ command ∉ offer.commands := by
  have hoffer : command ∈ offer.commands ↔ command = showCommand := List.mem_singleton
  rw [hoffer]
  unfold execute
  split_ifs with hcommand
  · exact ⟨fun _ => hcommand, fun _ => rfl⟩
  · refine ⟨fun hunknown => absurd hunknown ?_, fun hother => absurd hother hcommand⟩
    split
    · exact s.showModule_ne_unknown _ command
    · simp
    · simp

end EditorSession

namespace Module

theorem completions_perm (m : Module) (stem : Bytes) :
    (m.completions stem).Perm (m.candidates stem) :=
  List.mergeSort_perm _ _

theorem completions_sorted (m : Module) (stem : Bytes) :
    ((m.completions stem).map Completion.label).Pairwise (· ≤ ·) := by
  have hsorted : (m.completions stem).Pairwise fun a b => !decide (b.label < a.label) := by
    refine List.pairwise_mergeSort ?_ ?_ _
    · intro a b c hab hbc
      simp only [Bool.not_eq_true', decide_eq_false_iff_not, String.not_lt] at hab hbc ⊢
      exact String.le_trans hab hbc
    · intro a b
      simp only [Bool.or_eq_true, Bool.not_eq_true', decide_eq_false_iff_not, String.not_lt]
      exact String.le_total a.label b.label
  rw [List.pairwise_map]
  exact hsorted.imp fun h => String.not_lt.mp (by simpa using h)

/-- However the candidates are sorted by label, their labels come in the same order and each of them
stands for the same items: only the order of a board and a variable of one name is left open. -/
theorem completions_unique_up_to_label (m : Module) (stem : Bytes) {shown : List Completion}
    (hperm : shown.Perm (m.candidates stem))
    (hsorted : (shown.map Completion.label).Pairwise (· ≤ ·)) :
    shown.map Completion.label = (m.completions stem).map Completion.label ∧
      ∀ label, (shown.filter (·.label = label)).Perm
        ((m.completions stem).filter (·.label = label)) := by
  have hsame : shown.Perm (m.completions stem) := hperm.trans (m.completions_perm stem).symm
  refine ⟨?_, fun label => hsame.filter _⟩
  exact (hsame.map _).eq_of_pairwise (fun _ _ _ _ => String.le_antisymm) hsorted
    (m.completions_sorted stem)

end Module

/-- Whatever was opened, changed and closed before, in whatever order, a session answers about a document
as if this had just been opened with its latest text and nothing else had happened; and about a document
without a text as if nothing at all had happened. -/
theorem answers_depend_on_latest_text (aliases : Kind.Aliases) (events : List EditorEvent)
    (uri : String) :
    let s : EditorSession := EditorSession.follow { aliases } events
    let fresh := EditorSession.justOpened aliases uri (EditorEvent.latestText? uri events)
    (∀ line column, s.completions? uri line column = fresh.completions? uri line column) ∧
      (∀ line column, s.preview? uri line column = fresh.preview? uri line column) ∧
      s.execute EditorSession.showCommand [.text uri] =
        fresh.execute EditorSession.showCommand [.text uri] := by
  intro s fresh
  have hknown : s.document? uri = fresh.document? uri := by
    rw [EditorSession.document?_follow, EditorSession.document?_justOpened]
  refine ⟨fun line column => ?_, fun line column => ?_, ?_⟩
  · rw [EditorSession.completions?, EditorSession.completions?, hknown]
  · rw [EditorSession.preview?, EditorSession.preview?, hknown]
  · change s.showModule uri = fresh.showModule uri
    rw [EditorSession.showModule, EditorSession.showModule, hknown]

end SlotBoard
