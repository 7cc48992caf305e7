import SlotBoard.Proofs.Session

/-!
What an editor is shown. A session sends its publications off and goes on with the next event at once, so
several can be under way, and any of them may be the next to arrive. Nothing is lost and the last one sent
about a document always tells how the document stands, but it need not be the last one to arrive. So the
editor is sure to be shown the current findings only if all publications about the document agree.
-/
namespace SlotBoard

namespace EditorSession

open EditorEvent

def findings (s : EditorSession) (uri : String) : List Finding :=
  (s.document? uri).elim [] Analysis.findings

def publications (s : EditorSession) : List EditorEvent → List Publication
  | [] => []
  | e :: events => (s.handle e).2.toList ++ (s.handle e).1.publications events

theorem publications_concat (s : EditorSession) (events : List EditorEvent) (e : EditorEvent) :
    s.publications (events ++ [e]) = s.publications events ++ ((s.follow events).handle e).2.toList := by
  induction events generalizing s with
  | nil => exact List.append_nil _
  | cons first events ih =>
    rw [List.cons_append, publications, publications, ih, List.append_assoc]
    rfl

/-- What the editor is told on an event is about the document of the event, and tells how that document
stands from then on. -/
theorem handle_publishes (s : EditorSession) {e : EditorEvent} {p : Publication}
    (h : (s.handle e).2 = some p) : p.uri = e.uri ∧ p.findings = (s.handle e).1.findings e.uri := by
  obtain ⟨text, -, hstep⟩ | ⟨-, hstep⟩ | ⟨-, -, hstep⟩ := s.handle_cases e
  · rw [hstep] at h ⊢
    obtain rfl := Option.some.inj h
    rw [findings, document?_update, if_pos rfl]
    exact ⟨rfl, rfl⟩
  · rw [hstep] at h ⊢
    obtain rfl := Option.some.inj h
    rw [findings, document?_without, if_pos rfl]
    exact ⟨rfl, rfl⟩
  · rw [hstep] at h
    cases h

/-- An event on which the editor is told nothing changes nothing. -/
theorem handle_silent (s : EditorSession) {e : EditorEvent} (h : (s.handle e).2 = none) :
    (s.handle e).1 = s := by
  obtain ⟨text, -, hstep⟩ | ⟨-, hstep⟩ | ⟨-, -, hstep⟩ := s.handle_cases e
  · rw [hstep] at h
    cases h
  · rw [hstep] at h
    cases h
  · rw [hstep]

/-- The last publication about a document tells how it stands. -/
theorem findings_last_publication (s : EditorSession) (events : List EditorEvent) (uri : String)
    {p : Publication} (h : ((s.publications events).filter (·.uri = uri)).getLast? = some p) :
    p.findings = (s.follow events).findings uri := by
  induction events using List.reverseRecOn with
  | nil => cases h
  | append_singleton events e ih =>
    rw [publications_concat, List.filter_append] at h
    rw [follow_concat]
    cases hsent : ((s.follow events).handle e).2 with
    | none =>
      rw [hsent, Option.toList_none, List.filter_nil, List.append_nil] at h
      rw [handle_silent _ hsent]
      exact ih h
    | some q =>
      obtain ⟨huri, hfindings⟩ := handle_publishes _ hsent
      rw [hsent, Option.toList_some] at h
      by_cases hq : q.uri = uri
      · rw [List.filter_cons_of_pos (by simpa using hq), List.filter_nil, List.getLast?_concat] at h
        obtain rfl := Option.some.inj h
        rw [hfindings, ← huri, hq]
      · rw [List.filter_cons_of_neg (by simpa using hq), List.filter_nil, List.append_nil] at h
        rw [findings, document?_handle_of_ne _ (huri ▸ hq)]
        exact ih h

/-- A document has no findings if the last thing that happened to it is that it was closed. -/
theorem findings_of_last_closed (aliases : Kind.Aliases) {events : List EditorEvent} {uri : String}
    (h : (events.filter (·.uri = uri)).getLast? = some (closed uri)) :
    (follow { aliases } events).findings uri = [] := by
  have hsince : sinceClosed uri events = [] := by
    rw [sinceClosed]
    rw [List.getLast?_eq_head?_reverse] at h
    obtain ⟨rest, hrest⟩ := List.head?_eq_some_iff.mp h
    rw [hrest]
    exact List.takeWhile_cons_of_neg (by simp)
  rw [findings, document?_follow, latestText?, hsince]
  rfl

end EditorSession

/-- A session and its editor, with the publications that are under way from the one to the other. -/
structure Exchange where
  session : EditorSession
  inFlight : List Publication := []
  received : List Publication := []

namespace Exchange

def send (x : Exchange) (e : EditorEvent) : Exchange :=
  { x with
    session := (x.session.handle e).1
    inFlight := x.inFlight ++ (x.session.handle e).2.toList }

/-- What some events can lead to. A publication under way may be delivered at any time. -/
inductive Run (x : Exchange) : List EditorEvent → Exchange → Prop
  | start : Run x [] x
  | event {events : List EditorEvent} {y : Exchange} (h : Run x events y) (e : EditorEvent) :
      Run x (events ++ [e]) (y.send e)
  | delivery {events : List EditorEvent} {y : Exchange} (h : Run x events y)
      {before after : List Publication} {p : Publication} (hp : y.inFlight = before ++ p :: after) :
      Run x events { y with inFlight := before ++ after, received := y.received ++ [p] }

def shown? (x : Exchange) (uri : String) : Option (List Finding) :=
  (x.received.filter (·.uri = uri)).getLast?.map Publication.findings

variable {x y : Exchange} {events : List EditorEvent}

namespace Run

theorem session_eq (h : x.Run events y) : y.session = x.session.follow events := by
  induction h with
  | start => rfl
  | event _ e ih => rw [EditorSession.follow_concat, ← ih, send]
  | delivery _ _ ih => exact ih

/-- Every publication is under way or was received, once. -/
theorem perm (h : x.Run events y) :
    (y.received ++ y.inFlight).Perm
      (x.received ++ x.inFlight ++ x.session.publications events) := by
  induction h with
  | start => exact List.Perm.of_eq (List.append_nil _).symm
  | event h e ih =>
    rw [EditorSession.publications_concat, ← h.session_eq, ← List.append_assoc, send,
      ← List.append_assoc]
    exact ih.append_right _
  | @delivery events y _ before after p hp ih =>
    refine List.Perm.trans ?_ ih
    have hmiddle : (p :: (before ++ after)).Perm (before ++ p :: after) := List.perm_middle.symm
    rw [hp, List.append_assoc]
    exact hmiddle.append_left y.received

/-- Publications under way may arrive in any order. -/
theorem deliverAll (h : x.Run events y) {ps : List Publication} (hperm : ps.Perm y.inFlight) :
    x.Run events { y with inFlight := [], received := y.received ++ ps } := by
  induction ps generalizing y with
  | nil =>
    have hnone : y.inFlight = [] := hperm.nil_eq.symm
    rw [List.append_nil, ← hnone]
    exact h
  | cons p ps ih =>
    obtain ⟨before, after, hp⟩ := List.append_of_mem (hperm.subset List.mem_cons_self)
    rw [hp] at hperm
    have hrest := ih (h.delivery hp) (hperm.trans List.perm_middle).cons_inv
    rw [List.append_assoc] at hrest
    exact hrest

/-- Events alone, with nothing delivered. -/
theorem sendAll (s : EditorSession) (events : List EditorEvent) :
    Run { session := s } events
      { session := s.follow events, inFlight := s.publications events } := by
  induction events using List.reverseRecOn with
  | nil => exact .start
  | append_singleton events e ih =>
    rw [EditorSession.follow_concat, EditorSession.publications_concat]
    exact ih.event e

end Run

/-- All that was sent can arrive in any order. -/
theorem exists_run (s : EditorSession) (events : List EditorEvent) {ps : List Publication}
    (h : ps.Perm (s.publications events)) :
    ∃ y, Run { session := s } events y ∧ y.inFlight = [] ∧ y.received = ps :=
  ⟨_, (Run.sendAll s events).deliverAll h, rfl, rfl⟩

/-- What was received is what was sent, once nothing is under way. -/
theorem Run.received_perm {s : EditorSession} (h : Run { session := s } events y)
    (hnone : y.inFlight = []) : y.received.Perm (s.publications events) := by
  have hperm := h.perm
  rw [hnone, List.append_nil] at hperm
  exact hperm

/-- Any publication about a document may be the one that the editor ends up with. -/
theorem exists_run_shown (s : EditorSession) (events : List EditorEvent) {p : Publication}
    (h : p ∈ s.publications events) :
    ∃ y, Run { session := s } events y ∧ y.inFlight = [] ∧ y.shown? p.uri = some p.findings := by
  obtain ⟨before, after, hp⟩ := List.append_of_mem h
  have hperm : (before ++ after ++ [p]).Perm (s.publications events) := by
    rw [hp, List.append_assoc]
    exact List.Perm.append_left _ (List.perm_append_singleton p after)
  obtain ⟨y, hrun, hnone, hreceived⟩ := exists_run s events hperm
  refine ⟨y, hrun, hnone, ?_⟩
  rw [shown?, hreceived, List.filter_append, List.filter_cons_of_pos (by simp), List.filter_nil,
    List.getLast?_concat]
  rfl

end Exchange

/-- When everything has been delivered, the editor shows the current findings on a document, in whatever
order the publications arrive, exactly if all publications about the document agree with them. For a single
run it is enough that the publication sent last is also the last one to arrive. There are no current
findings on a document that has just been closed. -/
theorem editor_shows_current_findings_iff (aliases : Kind.Aliases) (events : List EditorEvent)
    (uri : String) :
    let start : Exchange := { session := { aliases } }
    let current := (EditorSession.follow { aliases } events).findings uri
    let sent := (EditorSession.publications { aliases } events).filter (·.uri = uri)
    ((∀ x, start.Run events x → x.inFlight = [] →
        ∀ shown, x.shown? uri = some shown → shown = current) ↔ ∀ p ∈ sent, p.findings = current) ∧
      (∀ x, start.Run events x → x.inFlight = [] →
        (x.received.filter (·.uri = uri)).getLast? = sent.getLast? →
          x.shown? uri = if sent.isEmpty then none else some current) ∧
      ((events.filter (·.uri = uri)).getLast? = some (.closed uri) → current = []) := by
  intro start current sent
  refine ⟨⟨?_, ?_⟩, ?_, EditorSession.findings_of_last_closed aliases⟩
  · intro hright p hp
    obtain ⟨hmem, huri⟩ := List.mem_filter.mp hp
    obtain ⟨x, hrun, hnone, hshown⟩ := Exchange.exists_run_shown { aliases } events hmem
    rw [of_decide_eq_true huri] at hshown
    exact hright x hrun hnone _ hshown
  · intro hagree x hrun hnone shown hshown
    obtain ⟨p, hlast, rfl⟩ := Option.map_eq_some_iff.mp hshown
    have hperm := (hrun.received_perm hnone).filter fun q => decide (q.uri = uri)
    exact hagree p (hperm.subset (List.mem_of_getLast? hlast))
  · intro x hrun hnone hlast
    rw [Exchange.shown?, hlast]
    cases hsent : sent.getLast? with
    | none =>
      rw [List.getLast?_eq_none_iff.mp hsent]
      rfl
    | some p =>
      have hne : sent.isEmpty = false := by
        rw [List.isEmpty_eq_false_iff]
        rintro hnil
        rw [hnil] at hsent
        cases hsent
      rw [hne, Option.map_some, EditorSession.findings_last_publication { aliases } events uri hsent]
      rfl

/-- A document is given the same unreadable text twice. The editor shows what is wrong with it, whichever
publication arrives first. -/
theorem repeated_text_shown_as_unreadable :
    let events : List EditorEvent := [.opened "a.json" [], .changed "a.json" [.ranged [], .whole []]]
    ∀ x, Exchange.Run { session := {} } events x → x.inFlight = [] →
      ∀ shown, x.shown? "a.json" = some shown → shown = [.unread (.document "a" .malformed)] := by
  intro events
  refine (editor_shows_current_findings_iff [] events "a.json").1.mpr ?_
  intro p hp
  have hsame : p ∈ List.replicate 2
      (⟨"a.json", [.unread (.document "a" .malformed)]⟩ : Publication) := hp
  rw [List.eq_of_mem_replicate hsame]
  rfl

/-- A document with an unreadable text is closed, and perhaps a change without content follows. Each of the
two publications may be the one to arrive last, so the editor may go on to show what is wrong with a document
that is closed. -/
theorem closed_document_keeps_findings :
    let unreadable : List Finding := [.unread (.document "a" .malformed)]
    ∀ later ∈ [[], [EditorEvent.changed "a.json" []]], ∀ shown ∈ [unreadable, []],
      ∃ x, Exchange.Run { session := {} } ([.opened "a.json" [], .closed "a.json"] ++ later) x ∧
        x.inFlight = [] ∧ x.session.document? "a.json" = none ∧ x.shown? "a.json" = some shown := by
  intro unreadable later hlater shown hshown
  let events := [.opened "a.json" [], .closed "a.json"] ++ later
  have hevents : EditorSession.publications {} events = [unreadable, []].map (Publication.mk "a.json") ∧
      (EditorSession.follow {} events).document? "a.json" = none := by
    rcases List.mem_cons.mp hlater with rfl | hlater
    · exact ⟨rfl, rfl⟩
    · obtain rfl := List.mem_singleton.mp hlater
      exact ⟨rfl, rfl⟩
  have hsent : ⟨"a.json", shown⟩ ∈ EditorSession.publications {} events :=
    hevents.1 ▸ List.mem_map_of_mem hshown
  obtain ⟨x, hrun, hnone, hshown⟩ := Exchange.exists_run_shown {} events hsent
  exact ⟨x, hrun, hnone, hrun.session_eq ▸ hevents.2, hshown⟩

end SlotBoard
