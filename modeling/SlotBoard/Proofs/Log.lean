import SlotBoard.Proofs.Outcome
import SlotBoard.Proofs.Store
import SlotBoard.Proofs.Text

/-!
The archive as a log. A session asks a store to keep modules and to give them back, and may close it and
open it again at any time. As long as the clock does not run backwards and no identifier is given out
twice, every answer is that of a log to which artifacts are only appended. The newest artifact of a fingerprint holds the text of every module
that was put with it, and its snapshot too, unless that has a list too long for the reader.
-/
namespace SlotBoard

/-- What a store can be asked. -/
inductive StoreRequest where
  | put (stamp : Stamp) (module : Module) (diagnostics : Int64)
  | get (fingerprint : String)
  | latest (module : String)
  | list (module : String)
  | reopen

inductive StoreReply where
  | stored (a : Artifact)
  | found (answer : Except ArchiveError Artifact)
  | listed (artifacts : List Artifact)
  | reopened
  | refused (e : StoreError)

namespace Store

variable {m : Type → Type} [Monad m] [MonadFiles m] [MonadArchives m]

def serve (name : String) (s : Store) : StoreRequest → m (StoreReply × Store)
  | .put stamp module diagnostics => do
    let a := Artifact.ofModule stamp module diagnostics
    match ← s.put a with
    | .ok s => return (.stored a, s)
    | .error e => return (.refused e, s)
  | .get fingerprint => return (.found (s.archive.get fingerprint), s)
  | .latest module => return (.found (s.archive.latest module), s)
  | .list module => return (.listed (s.archive.list module), s)
  | .reopen => do
    match ← openAt name with
    | .ok s => return (.reopened, s)
    | .error e => return (.refused e, s)

def serveAll (name : String) (s : Store) : List StoreRequest → m (List StoreReply × Store)
  | [] => return ([], s)
  | request :: requests => do
    let (reply, s) ← s.serve name request
    let (replies, s) ← s.serveAll name requests
    return (reply :: replies, s)

end Store

/-- A log of artifacts. It may be closed to new ones, and it may not outlive a session. -/
structure Log where
  artifacts : List Artifact
  isOpen : Bool
  isTransient : Bool

namespace Log

def newest (artifacts : List Artifact) : Except ArchiveError Artifact :=
  match artifacts.getLast? with
  | some a => .ok a
  | none => .error .notFound

/-- How a log answers: an artifact is put at its end, those of a module are listed with the last one
first, and the last one of a module or of a fingerprint is the one that is found. -/
def step (log : Log) : StoreRequest → StoreReply × Log
  | .put stamp module diagnostics =>
    let a := Artifact.ofModule stamp module diagnostics
    if log.isOpen then (.stored a, { log with artifacts := log.artifacts ++ [a] })
    else (.refused .artifactUnwritable, log)
  | .get fingerprint => (.found (newest (log.artifacts.filter (·.fingerprint = fingerprint))), log)
  | .latest module => (.found (newest (log.artifacts.filter (·.module = module))), log)
  | .list module => (.listed (log.artifacts.filter (·.module = module)).reverse, log)
  | .reopen => (.reopened, if log.isTransient then { log with artifacts := [] } else log)

def run (log : Log) : List StoreRequest → List StoreReply × Log
  | [] => ([], log)
  | request :: requests =>
    let (reply, log) := log.step request
    let (replies, log) := log.run requests
    (reply :: replies, log)

end Log

def Store.log (s : Store) : Log := ⟨s.archive.artifacts, s.location.takesPuts, s.location.isTransient⟩

namespace StoreRequest

def artifact? : StoreRequest → Option Artifact
  | put stamp module diagnostics => some (.ofModule stamp module diagnostics)
  | _ => none

def module? : StoreRequest → Option Module
  | put _ module _ => some module
  | _ => none

end StoreRequest

namespace Store

def history (s : Store) (requests : List StoreRequest) : List Artifact :=
  s.archive.artifacts ++ requests.filterMap StoreRequest.artifact?

def times (s : Store) (requests : List StoreRequest) : List Int64 :=
  (s.history requests).map Artifact.created

def ids (s : Store) (requests : List StoreRequest) : List String :=
  (s.history requests).map Artifact.id

end Store

namespace Archive

variable {archive : Archive}

/-- Artifacts that were put in the order of their times need not be sorted. -/
theorem newest_eq (h : (archive.artifacts.map Artifact.created).Pairwise (· ≤ ·))
    (test : Artifact → Bool) : archive.newest test = (archive.artifacts.filter test).reverse := by
  apply List.mergeSort_of_pairwise
  rw [List.pairwise_map] at h
  rw [List.pairwise_reverse]
  exact (h.sublist List.filter_sublist).imp fun hle => decide_eq_true hle

theorem get_eq (h : (archive.artifacts.map Artifact.created).Pairwise (· ≤ ·)) (fingerprint : String) :
    archive.get fingerprint = Log.newest (archive.artifacts.filter (·.fingerprint = fingerprint)) := by
  rw [get, newest_eq h, Log.newest, List.getLast?_eq_head?_reverse]
  cases (archive.artifacts.filter (·.fingerprint = fingerprint)).reverse <;> rfl

theorem latest_eq (h : (archive.artifacts.map Artifact.created).Pairwise (· ≤ ·)) (module : String) :
    archive.latest module = Log.newest (archive.artifacts.filter (·.module = module)) := by
  rw [latest, list, newest_eq h, Log.newest, List.getLast?_eq_head?_reverse]
  cases (archive.artifacts.filter (·.module = module)).reverse <;> rfl

end Archive

namespace Store

variable {name : String} {s : Store} {t : FileTree}

theorem sorted_of_times {requests : List StoreRequest} (h : (s.times requests).Pairwise (· ≤ ·)) :
    (s.archive.artifacts.map Artifact.created).Pairwise (· ≤ ·) :=
  h.sublist ((List.sublist_append_left _ _).map _)

/-- An artifact with a new identifier is refused only if the store cannot be written. -/
theorem keeping_of_fresh {a : Artifact} (h : a.id ∉ s.archive.ids) :
    s.keeping a = if s.location.takesPuts then .ok { s with archive := ⟨s.archive.artifacts ++ [a]⟩ }
      else .error .artifactUnwritable := by
  rw [keeping, Archive.put?, if_neg h]

theorem id_notMem_of_ids {stamp : Stamp} {module : Module} {diagnostics : Int64}
    {requests : List StoreRequest} (h : (s.ids (.put stamp module diagnostics :: requests)).Nodup) :
    stamp.id ∉ s.archive.ids := by
  rw [ids, history, List.map_append] at h
  exact fun hmem => (List.disjoint_of_nodup_append h) hmem List.mem_cons_self

theorem log_reopened (s : Store) : s.log.step .reopen = (.reopened, s.reopened.log) := by
  rw [Log.step, reopened]
  cases htransient : s.location.isTransient <;> simp [log, htransient]

/-- One request is answered as by the log. -/
theorem serve_spec (h : s.FoundAs name t) (request : StoreRequest) {requests : List StoreRequest}
    (htimes : (s.times (request :: requests)).Pairwise (· ≤ ·))
    (hids : (s.ids (request :: requests)).Nodup) :
    ∃ reply s' u, (s.serve name request : StateM FileTree _).run t = ((reply, s'), u) ∧
      s.log.step request = (reply, s'.log) ∧ s'.FoundAs name u ∧
      (s'.history requests).Sublist (s.history (request :: requests)) := by
  have hsorted := sorted_of_times htimes
  cases request with
  | get fingerprint =>
    refine ⟨_, s, t, rfl, ?_, h, .refl _⟩
    rw [Log.step, Archive.get_eq hsorted]
    rfl
  | latest module =>
    refine ⟨_, s, t, rfl, ?_, h, .refl _⟩
    rw [Log.step, Archive.latest_eq hsorted]
    rfl
  | list module =>
    refine ⟨_, s, t, rfl, ?_, h, .refl _⟩
    rw [Log.step, Archive.list, Archive.newest_eq hsorted]
    rfl
  | reopen =>
    refine ⟨_, s.reopened, t, run_bind_of (openAt_again h), s.log_reopened, h.reopened, ?_⟩
    unfold reopened
    split_ifs with htransient
    · exact List.sublist_append_right _ _
    · exact .refl _
  | put stamp module diagnostics =>
    obtain ⟨u, hrun, hfound⟩ := put_spec h (Artifact.ofModule stamp module diagnostics)
    rw [keeping_of_fresh (id_notMem_of_ids hids)] at hrun hfound
    cases htakes : s.location.takesPuts with
    | true =>
      simp only [htakes, if_true] at hrun hfound
      refine ⟨_, _, u, run_bind_of hrun, ?_, hfound, ?_⟩
      · simp only [Log.step, log, htakes, if_true]
      · rw [history, history, List.append_assoc]
        exact .refl _
    | false =>
      simp only [htakes, Bool.false_eq_true, if_false] at hrun hfound
      refine ⟨_, _, u, run_bind_of hrun, ?_, hfound, ?_⟩
      · simp only [Log.step, log, htakes, Bool.false_eq_true, if_false]
      · exact List.Sublist.append_left ((List.sublist_cons_self _ _).filterMap _) _

/-- So are all requests of a session. -/
theorem serveAll_spec (h : s.FoundAs name t) {requests : List StoreRequest}
    (htimes : (s.times requests).Pairwise (· ≤ ·)) (hids : (s.ids requests).Nodup) :
    ∃ replies s' u, (s.serveAll name requests : StateM FileTree _).run t = ((replies, s'), u) ∧
      s.log.run requests = (replies, s'.log) ∧ (s'.history []).Sublist (s.history requests) := by
  induction requests generalizing s t with
  | nil => exact ⟨[], s, t, rfl, rfl, .refl _⟩
  | cons request requests ih =>
    obtain ⟨reply, s₁, u, hrun, hstep, hfound, hsub₁⟩ := serve_spec h request htimes hids
    obtain ⟨replies, s₂, v, hrun₂, hreplies, hsub₂⟩ :=
      ih hfound (htimes.sublist (hsub₁.map _)) (hids.sublist (hsub₁.map _))
    refine ⟨reply :: replies, s₂, v, ?_, ?_, hsub₂.trans hsub₁⟩
    · rw [serveAll, run_bind_of hrun]
      exact run_bind_of hrun₂
    · rw [Log.run, hstep]
      dsimp only
      rw [hreplies]

end Store

namespace Log

theorem run_append (log : Log) (before after : List StoreRequest) :
    (log.run (before ++ after)).2 = ((log.run before).2.run after).2 := by
  induction before generalizing log with
  | nil => rfl
  | cons request before ih => exact ih (log.step request).2

theorem step_fixed (log : Log) (request : StoreRequest) :
    (log.step request).2.isOpen = log.isOpen ∧ (log.step request).2.isTransient = log.isTransient := by
  cases request with
  | put stamp module diagnostics =>
    rw [step]
    split_ifs
    · exact ⟨rfl, rfl⟩
    · exact ⟨rfl, rfl⟩
  | reopen =>
    rw [step]
    dsimp only
    split_ifs
    · exact ⟨rfl, rfl⟩
    · exact ⟨rfl, rfl⟩
  | get fingerprint => exact ⟨rfl, rfl⟩
  | latest module => exact ⟨rfl, rfl⟩
  | list module => exact ⟨rfl, rfl⟩

theorem run_fixed (log : Log) (requests : List StoreRequest) :
    (log.run requests).2.isOpen = log.isOpen ∧ (log.run requests).2.isTransient = log.isTransient := by
  induction requests generalizing log with
  | nil => exact ⟨rfl, rfl⟩
  | cons request requests ih =>
    obtain ⟨hopen, htransient⟩ := ih (log.step request).2
    exact ⟨hopen.trans (log.step_fixed request).1, htransient.trans (log.step_fixed request).2⟩

/-- A log that is open and not forgotten has in the end what was put, in that order. -/
theorem artifacts_run (log : Log) {requests : List StoreRequest} (hopen : log.isOpen = true)
    (hkept : log.isTransient = true → .reopen ∉ requests) :
    (log.run requests).2.artifacts =
      log.artifacts ++ requests.filterMap StoreRequest.artifact? := by
  induction requests generalizing log with
  | nil => exact (List.append_nil _).symm
  | cons request requests ih =>
    obtain ⟨hopen', htransient'⟩ := log.step_fixed request
    have hrest := ih (log.step request).2 (hopen'.trans hopen) fun htransient hmem =>
      hkept (htransient'.symm.trans htransient) (List.mem_cons_of_mem _ hmem)
    change ((log.step request).2.run requests).2.artifacts = _
    rw [hrest]
    cases request with
    | put stamp module diagnostics =>
      rw [step, if_pos hopen, List.append_assoc]
      rfl
    | reopen =>
      have hdurable : ¬log.isTransient = true := fun htransient =>
        hkept htransient List.mem_cons_self
      rw [step]
      dsimp only
      rw [if_neg hdurable]
      rfl
    | get fingerprint => rfl
    | latest module => rfl
    | list module => rfl

/-- The newest artifact that passes a test is no older than one that does. -/
theorem newest_filter_append (test : Artifact → Bool) (front back : List Artifact) {a : Artifact}
    (h : test a = true) :
    ∃ b ∈ a :: back, test b = true ∧ newest ((front ++ a :: back).filter test) = .ok b := by
  have hne : (a :: back).filter test ≠ [] := by
    rw [List.filter_cons_of_pos h]
    exact List.cons_ne_nil _ _
  obtain ⟨hmem, htest⟩ := List.mem_filter.mp (List.getLast_mem hne)
  refine ⟨_, hmem, htest, ?_⟩
  rw [newest, List.filter_append, List.getLast?_append, List.getLast?_eq_some_getLast hne,
    Option.some_or]

end Log

/-- The snapshot in an artifact of the usual format is that of any module with its bytes, unless one of
its lists is too long to be read. -/
theorem Artifact.snapshot_of_bytes_eq {a : Artifact} {m : Module}
    (hformat : a.format = Snapshot.currentFormat) (hbytes : a.bytes = m.snapshotBytes)
    (hsized : (Snapshot.ofModule m).WordSized) :
    a.snapshot = if ∀ n ∈ (Snapshot.ofModule m).lengths, n ≤ Cbor.maxCount then .ok (.ofModule m)
      else .error .damaged := by
  have hversion : Version.parse Snapshot.currentFormat = .ok { major := 1 } := by decide +kernel
  have hreadable : Version.isReadable { major := 1 } = true := rfl
  have hdecode : Snapshot.decode? a.bytes =
      if ∀ n ∈ (Snapshot.ofModule m).lengths, n ≤ Cbor.maxCount then some (.ofModule m) else none := by
    rw [hbytes]
    exact Snapshot.decode?_encode hsized
  rw [snapshot, hformat, hversion]
  simp only [hreadable, hdecode, Bool.not_true, Bool.false_eq_true, if_false]
  split_ifs
  · rfl
  · rfl

theorem StoreRequest.exists_put_of_mem {requests : List StoreRequest} {a : Artifact}
    (h : a ∈ requests.filterMap artifact?) :
    ∃ stamp m diagnostics, a = .ofModule stamp m diagnostics ∧ m ∈ requests.filterMap module? := by
  obtain ⟨request, hmem, ha⟩ := List.mem_filterMap.mp h
  cases request with
  | put stamp m diagnostics =>
    exact ⟨stamp, m, diagnostics, (Option.some.inj ha).symm, List.mem_filterMap.mpr ⟨_, hmem, rfl⟩⟩
  | get fingerprint => cases ha
  | latest module => cases ha
  | list module => cases ha
  | reopen => cases ha

namespace Log

/-- What is found by the fingerprint of a module that was put, any number of requests later, if no two
modules have one fingerprint and different snapshots: an artifact with the bytes of the module, and with
its text if texts follow snapshots. -/
theorem exists_newest_of_put (log : Log) (before : List StoreRequest) (stamp : Stamp) (m : Module)
    (diagnostics : Int64) {after : List StoreRequest} (hopen : log.isOpen = true)
    (hkept : log.isTransient = true → .reopen ∉ after)
    (hdigest : ∀ n ∈ after.filterMap StoreRequest.module?, n.fingerprint = m.fingerprint →
      n.snapshotBytes = m.snapshotBytes) :
    ∃ a, newest ((log.run (before ++ .put stamp m diagnostics :: after)).2.artifacts.filter
        (·.fingerprint = m.fingerprint)) = .ok a ∧
      a.format = Snapshot.currentFormat ∧ a.bytes = m.snapshotBytes ∧
      (a.text = m.text ∨ ∃ n ∈ after.filterMap StoreRequest.module?,
        a.text = n.text ∧ n.snapshotBytes = m.snapshotBytes) := by
  obtain ⟨hopen₁, htransient₁⟩ := log.run_fixed before
  have hartifacts : (log.run (before ++ .put stamp m diagnostics :: after)).2.artifacts =
      (log.run before).2.artifacts ++
        .ofModule stamp m diagnostics :: after.filterMap StoreRequest.artifact? := by
    rw [run_append]
    refine artifacts_run _ (hopen₁.trans hopen) fun htransient hmem => ?_
    rcases List.mem_cons.mp hmem with hput | hafter
    · cases hput
    · exact hkept (htransient₁.symm.trans htransient) hafter
  obtain ⟨a, hmem, hfingerprint, hnewest⟩ := newest_filter_append (·.fingerprint = m.fingerprint)
    (log.run before).2.artifacts (after.filterMap StoreRequest.artifact?)
    (a := .ofModule stamp m diagnostics) (decide_eq_true rfl)
  rw [hartifacts]
  refine ⟨a, hnewest, ?_⟩
  rcases List.mem_cons.mp hmem with rfl | hlater
  · exact ⟨rfl, rfl, Or.inl rfl⟩
  · obtain ⟨stamp', n, diagnostics', rfl, hn⟩ := StoreRequest.exists_put_of_mem hlater
    have hbytes : n.snapshotBytes = m.snapshotBytes := hdigest n hn (of_decide_eq_true hfingerprint)
    exact ⟨rfl, hbytes, Or.inr ⟨n, hn, rfl, hbytes⟩⟩

end Log

/-- A store answers every session as an append-only log does, whenever it is closed and opened again,
provided that the clock does not run backwards and that no identifier is given out twice. If no two of the modules that are put have the same
fingerprint and different snapshots, then at the end of any session the fingerprint of each of them finds
an artifact with the text of the module, and that artifact gives the snapshot of the module back exactly
if none of its lists is longer than the reader allows. -/
theorem store_answers_as_log {name : String} {t u : FileTree} {s : Store}
    (hopen : (Store.openAt name : StateM FileTree _).run t = (.ok s, u))
    (requests : List StoreRequest) (hclock : (s.times requests).Pairwise (· ≤ ·))
    (hfresh : (s.ids requests).Nodup)
    (hsized : ∀ m ∈ requests.filterMap StoreRequest.module?, (Snapshot.ofModule m).WordSized)
    (hdigest : ∀ m ∈ requests.filterMap StoreRequest.module?,
      ∀ n ∈ requests.filterMap StoreRequest.module?, n.fingerprint = m.fingerprint →
        n.snapshotBytes = m.snapshotBytes) :
    ∃ replies s' v, (s.serveAll name requests : StateM FileTree _).run u = ((replies, s'), v) ∧
      s.log.run requests = (replies, s'.log) ∧
      ∀ before stamp m diagnostics after, requests = before ++ .put stamp m diagnostics :: after →
        s.location.takesPuts = true → (s.location.isTransient = true → .reopen ∉ after) →
        ∃ a, s'.archive.get m.fingerprint = .ok a ∧
          ((∀ n ∈ after.filterMap StoreRequest.module?, m.Addressed ∧ n.Addressed) →
            a.text = m.text) ∧
          a.snapshot = if ∀ n ∈ (Snapshot.ofModule m).lengths, n ≤ Cbor.maxCount
            then .ok (.ofModule m) else .error .damaged := by
  obtain ⟨replies, s', v, hrun, hreplies, hsub⟩ :=
    Store.serveAll_spec (Store.openAt_ok hopen) hclock hfresh
  refine ⟨replies, s', v, hrun, hreplies, ?_⟩
  rintro before stamp m diagnostics after rfl htakes hkept
  have hlater : ∀ n ∈ after.filterMap StoreRequest.module?,
      n ∈ (before ++ .put stamp m diagnostics :: after).filterMap StoreRequest.module? := by
    intro n hn
    rw [List.filterMap_append]
    exact List.mem_append_right _ (List.mem_cons_of_mem _ hn)
  have hm : m ∈ (before ++ .put stamp m diagnostics :: after).filterMap StoreRequest.module? := by
    rw [List.filterMap_append]
    exact List.mem_append_right _ List.mem_cons_self
  obtain ⟨a, hnewest, hformat, hbytes, htext⟩ := s.log.exists_newest_of_put before stamp m diagnostics
    htakes hkept fun n hn => hdigest m hm n (hlater n hn)
  have hlog : s'.archive.artifacts =
      (s.log.run (before ++ .put stamp m diagnostics :: after)).2.artifacts := by
    rw [hreplies]
    rfl
  refine ⟨a, ?_, fun haddressed => ?_, Artifact.snapshot_of_bytes_eq hformat hbytes (hsized m hm)⟩
  · rw [Archive.get_eq (Store.sorted_of_times (hclock.sublist (hsub.map _))), hlog]
    exact hnewest
  · rcases htext with hsame | ⟨n, hn, hsame, hequal⟩
    · exact hsame
    · obtain ⟨hma, hna⟩ := haddressed n hn
      rw [hsame]
      exact Module.text_eq_of_snapshot_eq hna hma
        (Snapshot.encode_inj (hsized n (hlater n hn)) (hsized m hm) hequal)

theorem run_eq_ok {σ ε α : Type} {x : StateM σ (Except ε α)} {t u : σ} {a : α}
    (h : (x.run t).1.toOption = some a) (hu : (x.run t).2 = u) : x.run t = (.ok a, u) := by
  subst hu
  exact Prod.ext (eq_ok_of_toOption h) rfl

/-- Two modules that differ in the next number only are put at one time, and the store is opened again:
the first one is found through the second. -/
theorem assortedModule_found_by_fingerprint :
    let name := "/kept/a.db"
    let twin : Module := { assortedModule with counter := 3 }
    let requests := [.put ⟨"1", 5⟩ assortedModule 0, .put ⟨"2", 5⟩ twin 2, .reopen, .list "démo"]
    let s : Store := ⟨{ path := name }, {}⟩
    ∃ u, (Store.openAt name : StateM FileTree _).run {} = (.ok s, u) ∧
      ∃ replies s' v, (s.serveAll name requests : StateM FileTree _).run u = ((replies, s'), v) ∧
        s.log.run requests = (replies, s'.log) ∧
        ∃ a, s'.archive.get assortedModule.fingerprint = .ok a ∧ a.text = assortedModule.text ∧
          a.snapshot = .ok (.ofModule assortedModule) := by
  intro name twin requests s
  have hopen : (Store.openAt name : StateM FileTree _).run {} =
      (.ok s, ⟨[], [(["kept"], .directory), (["kept", "a.db"], .archive {})]⟩) :=
    run_eq_ok (by decide +kernel) (by decide +kernel)
  have hclock : (s.times requests).Pairwise (· ≤ ·) := by decide +kernel
  have hfresh : (s.ids requests).Nodup := by decide +kernel
  have hsized : (Snapshot.ofModule assortedModule).WordSized :=
    ⟨by decide +kernel, by decide +kernel, by decide +kernel⟩
  have hmodules : ∀ m ∈ requests.filterMap StoreRequest.module?,
      Snapshot.ofModule m = Snapshot.ofModule assortedModule := by
    intro m hm
    rcases List.mem_pair.mp hm with rfl | rfl
    · rfl
    · rfl
  have haddressed : assortedModule.Addressed := by
    intro b hb i slot hslot
    obtain rfl := List.mem_singleton.mp hb
    rcases i with _ | _ | i
    · obtain rfl := Option.some.inj hslot
      rfl
    · obtain rfl := Option.some.inj hslot
      rfl
    · cases hslot
  obtain ⟨replies, s', v, hrun, hreplies, hputs⟩ := store_answers_as_log hopen requests hclock hfresh
    (fun m hm => hmodules m hm ▸ hsized) fun m hm n hn _ => by
      rw [Module.snapshotBytes, Module.snapshotBytes, hmodules m hm, hmodules n hn]
  obtain ⟨a, hget, htext, hsnapshot⟩ :=
    hputs [] ⟨"1", 5⟩ assortedModule 0 (requests.drop 1) rfl rfl
      fun htransient => absurd htransient Bool.false_ne_true
  rw [if_pos (by decide +kernel)] at hsnapshot
  refine ⟨_, hopen, replies, s', v, hrun, hreplies, a, hget, htext fun n hn => ?_, hsnapshot⟩
  obtain rfl := List.mem_singleton.mp hn
  exact ⟨haddressed, haddressed⟩

def hollowModule (slots : Nat) : Module :=
  { name := "m"
    boards := [{
      name := "f"
      kind := .void
      slots := (List.range slots).map fun i => { address := .index i } }] }

theorem snapshot_hollowModule (slots : Nat) :
    Snapshot.ofModule (hollowModule slots) = {
      format := Snapshot.currentFormat
      name := "m"
      boards := [{ name := "f", kind := "VOID", slots := List.replicate slots [] }] } := by
  simp [Snapshot.ofModule, Snapshot.BoardRecord.ofBoard, hollowModule, Kind.void, Function.comp_def]

theorem lengths_hollowModule (slots : Nat) :
    (Snapshot.ofModule (hollowModule slots)).lengths = 0 :: 1 :: 0 :: slots :: List.replicate slots 0 := by
  rw [snapshot_hollowModule]
  simp [Snapshot.lengths, Snapshot.BoardRecord.lengths, List.flatMap_replicate]

theorem hollowModule_wordSized {slots : Nat} (h : slots < Cbor.numberLimit) :
    (Snapshot.ofModule (hollowModule slots)).WordSized where
  texts := by
    rw [snapshot_hollowModule]
    simp only [Snapshot.texts, Snapshot.BoardRecord.texts, List.flatMap_cons, List.flatMap_nil,
      List.flatMap_replicate, List.map_nil, List.flatten_replicate_nil, List.append_nil]
    decide +kernel
  lengths := by
    rw [lengths_hollowModule]
    simp only [List.forall_mem_cons, List.forall_mem_replicate]
    exact ⟨by decide, by decide, by decide, h, Or.inr (by decide)⟩
  successors := by
    rw [snapshot_hollowModule]
    simp [Snapshot.successors]

theorem hollowModule_too_long {slots : Nat} (h : Cbor.maxCount < slots) :
    ¬∀ n ∈ (Snapshot.ofModule (hollowModule slots)).lengths, n ≤ Cbor.maxCount := by
  intro hall
  rw [lengths_hollowModule] at hall
  simp only [List.forall_mem_cons] at hall
  exact Nat.not_le.mpr h hall.2.2.2.1

/-- A module with one slot more than a list may have is stored and found again, with its text, but the
snapshot cannot be read. -/
theorem hollowModule_stored_damaged :
    let m := hollowModule 131073
    ∃ archive a, Archive.put? {} (.ofModule ⟨"1", 0⟩ m 0) = some archive ∧
      archive.get m.fingerprint = .ok a ∧ a.text = m.text ∧ a.snapshot = .error .damaged := by
  intro m
  have hsized : (Snapshot.ofModule m).WordSized := hollowModule_wordSized (by decide)
  have hlong : ¬∀ n ∈ (Snapshot.ofModule m).lengths, n ≤ Cbor.maxCount :=
    hollowModule_too_long (by decide)
  obtain ⟨a, ha, -, hfound⟩ := Log.newest_filter_append (·.fingerprint = m.fingerprint) [] []
    (a := .ofModule ⟨"1", 0⟩ m 0) (decide_eq_true rfl)
  obtain rfl := List.mem_singleton.mp ha
  refine ⟨⟨[.ofModule ⟨"1", 0⟩ m 0]⟩, .ofModule ⟨"1", 0⟩ m 0, rfl, ?_, rfl, ?_⟩
  · rw [Archive.get_eq (List.pairwise_singleton _ _)]
    exact hfound
  · rw [Artifact.snapshot_of_bytes_eq rfl rfl hsized, if_neg hlong]

end SlotBoard
