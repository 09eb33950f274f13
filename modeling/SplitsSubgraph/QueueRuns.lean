/-
SplitsSubgraph/QueueRuns.lean

What is read while writes are under way.

`Queue.run_get` says that the queue can not be told from a store without one by reading.
In every state that the two sides can reach, in whatever order they take their steps, a
lookup that searches the queue and asks the database some steps of the writer later gives
the entity that the plain store has; one that is still in the queue has its nulls and the
attributes that are no columns yet, which the tables drop.  Lookups are made while no push
waits for room: the runner waits for it itself.  It rests on what a run keeps (`Tracks`): the
requests that have been pushed are those that were executed and those still in the queue, one
of them possibly both.

An error of the writer is final: from then on nothing is written, and no push that begins later
passes `check_err` (`Queue.poisoned_forever`).  A push that waits for room when the writer fails
gets it from the cleared queue and returns without an error; its request is never written.
-/
import SplitsSubgraph.QueueReads

namespace SplitsSubgraph

/-! ### The two sides -/

namespace Queue

variable {layout : Layout} {d : Deployment} {reqs : List Request} {q q' : Queue}

/-- The request that has been executed and is still in the queue. -/
def executed (q : Queue) : List Request :=
  match q.writer with
  | .pop _ => q.queue.take 1
  | _ => []

/-- The requests that were pushed are those that have been removed from the queue and those
that are in it, and the database has executed the former and possibly the first of the
latter.  After an error it has executed some of them, and the writer has returned. -/
structure Tracks (layout : Layout) (d : Deployment) (reqs : List Request) (q : Queue) : Prop where
  running : q.poisoned = false → q.writeErr = none ∧ ∃ removed,
    reqs = removed ++ (q.queue ++ q.pushing.toList)
      ∧ q.store = syncStore layout d (removed ++ q.executed)
  front : q.poisoned = false → ∀ res, q.writer = .pop res → q.queue ≠ []
  failed : q.poisoned = true → q.writer = .returned ∧ ∃ done, done <+: reqs
    ∧ q.store = syncStore layout d done

theorem executed_prefix (q : Queue) : q.executed <+: q.queue := by
  unfold executed
  split
  · exact List.take_prefix 1 q.queue
  · exact List.nil_prefix

theorem Tracks.recordErr (h : Tracks layout d reqs q) (hq : q.poisoned = false) (e : StoreError) :
    Tracks layout d reqs (q.recordErr e) where
  running := by simp [Queue.recordErr]
  front := by simp [Queue.recordErr]
  failed := by
    intro _
    obtain ⟨-, removed, hreqs, hstore⟩ := h.running hq
    refine ⟨rfl, removed ++ q.executed, ?_, hstore⟩
    rw [hreqs, List.prefix_append_right_inj]
    exact q.executed_prefix.trans (List.prefix_append _ _)

theorem Tracks.writerStep (h : Tracks layout d reqs q) (hwf : d.WF layout)
    (hreqs : Admitted layout d reqs) (hstep : WriterStep layout q q') :
    Tracks layout d reqs q' := by
  -- a writer that has not returned has not failed
  have halive : q.writer ≠ .returned → q.poisoned = false := by
    intro hw
    by_contra hp
    exact hw (h.failed (by simpa using hp)).1
  cases hstep with
  | @execute req hwriter hqueue =>
    have hok := halive (by simp [hwriter])
    obtain ⟨herr, removed, hsplit, hstore⟩ := h.running hok
    have hnone : q.executed = [] := by simp only [executed, hwriter]
    rw [hnone, List.append_nil] at hstore
    obtain ⟨rest, hrest⟩ : ∃ rest, q.queue = req :: rest := by
      rcases hq : q.queue with - | ⟨r, rest⟩
      · simp [hq] at hqueue
      · rw [hq, List.head?_cons, Option.some.injEq] at hqueue
        exact ⟨rest, by rw [hqueue]⟩
    have hacc : req.Accepted layout q.store := by
      rw [hsplit, admitted_append, ← hstore, hrest, List.cons_append] at hreqs
      exact hreqs.2.1
    have hremoved : Admitted layout d removed := by
      rw [hsplit, admitted_append] at hreqs
      exact hreqs.1
    obtain ⟨res, hexec⟩ := Request.execute_eq (hstore ▸ wf_syncStore hwf hremoved) hacc
    rw [execute, hexec]
    refine ⟨fun _ => ⟨herr, removed, hsplit, ?_⟩, fun _ _ _ => by simp [hrest], by simp [hok]⟩
    show req.apply layout q.store = syncStore layout d (removed ++ q.queue.take 1)
    have hfront : (req :: rest).take 1 = [req] := rfl
    rw [hrest, hfront, syncStore_append, ← hstore]
    rfl
  | fail e hwriter hqueue => exact h.recordErr (halive (by simp [hwriter])) e
  | @pop res hwriter =>
    have hok := halive (by simp [hwriter])
    obtain ⟨herr, removed, hsplit, hstore⟩ := h.running hok
    have hfront : q.executed = q.queue.take 1 := by simp only [executed, hwriter]
    refine ⟨fun _ => ⟨herr, removed ++ q.queue.take 1, ?_, ?_⟩, ?_, by simp [Queue.pop, hok]⟩
    · show reqs = removed ++ q.queue.take 1 ++ (q.queue.tail ++ q.pushing.toList)
      rw [hsplit, List.append_assoc, ← List.append_assoc (q.queue.take 1), ← List.drop_one,
        List.take_append_drop]
    · have hidle : (q.pop res).executed = [] := by
        unfold executed Queue.pop
        by_cases hres : res = .stop <;> simp [hres]
      rw [hidle, List.append_nil, ← hfront]
      exact hstore
    · intro _ res' hpop
      exfalso
      by_cases hres : res = .stop <;> simp [Queue.pop, hres] at hpop

theorem checkErr_of_running (hq : q.poisoned = false) (herr : q.writeErr = none) :
    q.checkErr = (.ok (), q) := by
  simp [checkErr, hq, herr]

theorem checkErr_state (q : Queue) :
    q.checkErr.2.poisoned = q.poisoned ∧ q.checkErr.2.writer = q.writer
      ∧ q.checkErr.2.store = q.store := by
  unfold checkErr
  rcases q.writeErr with - | e
  · exact ⟨rfl, rfl, rfl⟩
  · exact ⟨rfl, rfl, rfl⟩

/-- A push that passes the check meets no error. -/
theorem checkErr_ok (h : q.checkErr.1 = .ok ()) :
    q.poisoned = false ∧ q.writeErr = none ∧ q.checkErr.2 = q := by
  unfold checkErr at h ⊢
  rcases e : q.writeErr with - | err
  · rw [e] at h
    by_cases hp : q.poisoned = true
    · simp [hp] at h
    · exact ⟨by simpa using hp, rfl, rfl⟩
  · rw [e] at h
    simp at h

theorem Tracks.step {label : Option Request} (h : Tracks layout d reqs q) (hwf : d.WF layout)
    (hreqs : Admitted layout d reqs) (hstep : Step layout q label q') :
    Tracks layout d (reqs ++ label.toList) q' := by
  cases hstep with
  | push req hidle hok =>
    obtain ⟨hpoisoned, herr, hsame⟩ := checkErr_ok hok
    obtain ⟨-, removed, hsplit, hstore⟩ := h.running hpoisoned
    rw [hsame]
    refine ⟨fun _ => ⟨herr, removed, ?_, hstore⟩, h.front, by simp [hpoisoned]⟩
    rw [hsplit, hidle]
    simp
  | @pushFailed e hidle herr =>
    rw [Option.toList_none, List.append_nil]
    obtain ⟨hp, hw, hs⟩ := q.checkErr_state
    -- without an error the push would not have failed
    have hfailed : q.poisoned = true := by
      by_contra hok
      rw [Bool.not_eq_true] at hok
      rw [checkErr_of_running hok (h.running hok).1] at herr
      simp at herr
    refine ⟨by simp [hp, hfailed], by simp [hp, hfailed], fun _ => ?_⟩
    rw [hw, hs]
    exact h.failed hfailed
  | @enqueue req hpush hroom =>
    rw [Option.toList_none, List.append_nil]
    refine ⟨?_, fun _ _ _ => by simp, h.failed⟩
    intro hok
    obtain ⟨herr, removed, hsplit, hstore⟩ := h.running hok
    refine ⟨herr, removed, ?_, ?_⟩
    · rw [hsplit, hpush]
      simp
    · have hsame : ({ q with queue := q.queue ++ [req], pushing := none } : Queue).executed
          = q.executed := by
        unfold executed
        rcases e : q.writer with - | res | -
        · rfl
        · -- the front was in the queue before
          exact List.take_append_of_le_length
            (List.length_pos_of_ne_nil (h.front hok res e))
        · rfl
      rw [hsame]
      exact hstore
  | writer hwriter =>
    rw [Option.toList_none, List.append_nil]
    exact h.writerStep hwf hreqs hwriter

theorem Tracks.start (layout : Layout) (capacity : ℕ) (d : Deployment) :
    Tracks layout d [] (Queue.start capacity d) :=
  ⟨fun _ => ⟨rfl, [], rfl, rfl⟩, nofun, nofun⟩

theorem tracks_of_reachable {capacity : ℕ} (hwf : d.WF layout)
    (h : Reachable layout capacity d q reqs) (hreqs : Admitted layout d reqs) :
    Tracks layout d reqs q := by
  induction h with
  | start => exact Tracks.start layout capacity d
  | step _ hstep ih =>
    have hbefore := (admitted_append.mp hreqs).1
    exact (ih hbefore).step hwf hbefore hstep

theorem Tracks.writerSteps (h : Tracks layout d reqs q) (hwf : d.WF layout)
    (hreqs : Admitted layout d reqs) (hlater : Relation.ReflTransGen (WriterStep layout) q q') :
    Tracks layout d reqs q' := by
  induction hlater with
  | refl => exact h
  | tail _ hstep ih => exact ih.writerStep hwf hreqs hstep

/-- The database has executed some of the requests that were pushed, from the first on. -/
theorem Tracks.store_eq (h : Tracks layout d reqs q) :
    ∃ done, done <+: reqs ∧ q.store = syncStore layout d done := by
  by_cases hok : q.poisoned = true
  · exact (h.failed hok).2
  · obtain ⟨-, removed, hsplit, hstore⟩ := h.running (by simpa using hok)
    refine ⟨removed ++ q.executed, ?_, hstore⟩
    rw [hsplit, List.prefix_append_right_inj]
    exact q.executed_prefix.trans (List.prefix_append _ _)

/-- Once it has removed some requests, the queue is as if it had started after them. -/
theorem Tracks.restart {removed : List Request} (hok : q.poisoned = false)
    (herr : q.writeErr = none) (hidle : q.pushing = none) (hfront : ∀ res, q.writer = .pop res →
      q.queue ≠ []) (hstore : q.store = syncStore layout d (removed ++ q.executed)) :
    Tracks layout (syncStore layout d removed) q.queue q := by
  refine ⟨fun _ => ⟨herr, [], by simp [hidle], ?_⟩, fun _ => hfront, by simp [hok]⟩
  rw [hstore, syncStore_append, List.nil_append]

/-- What a lookup gives that asks the database later. -/
theorem Tracks.norm_get (h : Tracks layout d reqs q) (hwf : d.WF layout)
    (hreqs : Admitted layout d reqs) (hok : q.poisoned = false) (hidle : q.pushing = none)
    (hlater : Relation.ReflTransGen (WriterStep layout) q q') (key : EntityKey) :
    key.norm layout.schema (q.get layout q'.store key)
      = (syncStore layout d reqs).get layout key BLOCK_NUMBER_MAX := by
  obtain ⟨herr, removed, hsplit, hstore⟩ := h.running hok
  rw [hidle, Option.toList_none, List.append_nil] at hsplit
  rw [hsplit, admitted_append] at hreqs
  -- from here on, the requests that were removed are part of the store
  set base := syncStore layout d removed with hbase
  have hwf' : base.WF layout := wf_syncStore hwf hreqs.1
  have htracks : Tracks layout base q.queue q :=
    Tracks.restart hok herr hidle (h.front hok) hstore
  obtain ⟨done, hdone, hlast⟩ := (htracks.writerSteps hwf' hreqs.2 hlater).store_eq
  have hdoneAdm : Admitted layout base done := by
    obtain ⟨rest, hrest⟩ := hdone
    have hall := hreqs.2
    rw [← hrest, admitted_append] at hall
    exact hall.1
  have hprefix : done.map (Request.abstract layout.schema)
      <+: q.queue.map (Request.abstract layout.schema) := hdone.map _
  rw [Queue.norm_get (by rw [hlast]; exact wf_syncStore hwf' hdoneAdm), hlast,
    view_syncStore hwf' hdoneAdm,
    WriteBehind.read_eq_exec (admissible_of_admitted hwf' hreqs.2) hwf'.steady hwf'.head_lt
      hprefix, ← view_syncStore hwf' hreqs.2, hsplit, syncStore_append]
  rfl

/-- A lookup gives the entity itself, if what was written was normal. -/
theorem Tracks.get_eq (h : Tracks layout d reqs q) (hwf : d.WF layout)
    (hreqs : Admitted layout d reqs) (hnormal : ∀ req ∈ reqs, req.Normal layout.schema)
    (hok : q.poisoned = false) (hidle : q.pushing = none)
    (hlater : Relation.ReflTransGen (WriterStep layout) q q') (key : EntityKey) :
    q.get layout q'.store key = (syncStore layout d reqs).get layout key BLOCK_NUMBER_MAX := by
  obtain ⟨-, removed, hsplit, -⟩ := h.running hok
  obtain ⟨done, ⟨rest, hrest⟩, hstore⟩ := (h.writerSteps hwf hreqs hlater).store_eq
  have hwf' : q'.store.WF layout := by
    rw [hstore]
    rw [← hrest, admitted_append] at hreqs
    exact wf_syncStore hwf hreqs.1
  rw [← h.norm_get hwf hreqs hok hidle hlater key, q.get_normal hwf']
  intro req hreq
  apply hnormal
  rw [hsplit]
  simp [hreq]

variable {capacity : ℕ}

/-- One recipient is to be saved, and the writer has not begun. -/
def waiting : Queue :=
  { Queue.start 1 Deployment.empty with
    queue := [.write 1 [.insert EntityCache.recipientKey EntityCache.recipientEntity]] }

theorem reachable_waiting : Reachable splitsLayout 1 Deployment.empty waiting waiting.queue := by
  have hstart : Reachable splitsLayout 1 Deployment.empty (start 1 Deployment.empty) [] := .start
  exact (hstart.step (.push _ rfl rfl)).step (.enqueue rfl (by decide))

/-- After an error the writer has returned. -/
theorem returned_of_poisoned (h : Reachable layout capacity d q reqs) :
    q.poisoned = true → q.writer = .returned := by
  induction h with
  | start => nofun
  | @step q q' label reqs _ hstep ih =>
    cases hstep with
    | push req hidle hok =>
      intro hp
      rw [(checkErr_ok hok).2.2] at hp ⊢
      exact ih hp
    | pushFailed hidle herr =>
      obtain ⟨hp, hw, -⟩ := q.checkErr_state
      rw [hp, hw]
      exact ih
    | enqueue hpush hroom => exact ih
    | writer hwriter =>
      cases hwriter with
      | @execute req hpeek hqueue =>
        intro hp
        unfold execute at hp ⊢
        rcases hexec : req.execute layout q.store with e | ⟨store, res⟩
        · rfl
        · simp only [hexec] at hp
          have hold : q.writer = .returned := ih hp
          rw [hpeek] at hold
          simp at hold
      | fail e hpeek hqueue => exact fun _ => rfl
      | @pop res hpop =>
        intro hp
        have hold : q.writer = .returned := ih hp
        rw [hpop] at hold
        simp at hold

/-- A step after an error. -/
theorem step_of_poisoned {label : Option Request} (hp : q.poisoned = true)
    (hw : q.writer = .returned) (hstep : Step layout q label q') :
    q'.poisoned = true ∧ q'.writer = .returned ∧ q'.store = q.store ∧ label = none := by
  cases hstep with
  | push req hidle hok =>
    have := (checkErr_ok hok).1
    rw [hp] at this
    simp at this
  | pushFailed hidle herr =>
    obtain ⟨hp', hw', hs'⟩ := q.checkErr_state
    exact ⟨by rw [hp', hp], by rw [hw', hw], hs', rfl⟩
  | enqueue hpush hroom => exact ⟨hp, hw, rfl, rfl⟩
  | writer hwriter =>
    exfalso
    cases hwriter with
    | execute hpeek hqueue => simp [hw] at hpeek
    | fail e hpeek hqueue => simp [hw] at hpeek
    | pop hpop => simp [hw] at hpop

/-- **An error is final.**  Once the writer has failed, no step writes to the database and no
push that begins later passes `check_err`, whatever was pushed before.  One that had passed it
and waits for room is still let through, to a queue that nobody empties. -/
theorem poisoned_forever (h : Reachable layout capacity d q reqs) (hp : q.poisoned = true)
    {steps : List (Option Request × Queue)}
    (hsteps : List.IsChain (fun a b => Step layout a.2 b.1 b.2) ((none, q) :: steps)) :
    ∀ s ∈ steps, s.2.poisoned = true ∧ s.2.store = q.store ∧ s.1 = none := by
  have hw := returned_of_poisoned h hp
  clear h
  suffices hall : ∀ (steps : List (Option Request × Queue)) (p : Option Request × Queue),
      p.2.poisoned = true → p.2.writer = .returned →
      List.IsChain (fun a b => Step layout a.2 b.1 b.2) (p :: steps) →
        ∀ s ∈ steps, s.2.poisoned = true ∧ s.2.store = p.2.store ∧ s.1 = none by
    exact hall steps (none, q) hp hw hsteps
  intro steps
  induction steps with
  | nil => intro p _ _ _ s hs; simp at hs
  | cons next steps ih =>
    intro p hp hw hchain s hs
    rw [List.isChain_cons_cons] at hchain
    obtain ⟨hp', hw', hs', hlabel⟩ := step_of_poisoned hp hw hchain.1
    rcases List.mem_cons.mp hs with rfl | hmem
    · exact ⟨hp', hs', hlabel⟩
    · obtain ⟨hpoisoned, hstore, hnone⟩ := ih next hp' hw' hchain.2 s hmem
      exact ⟨hpoisoned, hstore.trans hs', hnone⟩

/-- The connection to the database was lost while the writer was at work. -/
def failed : Queue := waiting.recordErr (.databaseError "connection reset")

theorem poisoned_forever_failed : failed.checkErr.2.poisoned = true
    ∧ failed.checkErr.2.store = failed.store := by
  have hfailed : Reachable splitsLayout 1 Deployment.empty failed waiting.queue :=
    reachable_waiting.step (.writer (.fail _ rfl (by decide)))
  have hsteps : List.IsChain (fun a b => Step splitsLayout a.2 b.1 b.2)
      [((none : Option Request), failed), (none, failed.checkErr.2)] :=
    List.isChain_pair.mpr (.pushFailed rfl rfl)
  obtain ⟨hpoisoned, hstore, -⟩ := poisoned_forever hfailed rfl hsteps
    (none, failed.checkErr.2) (by simp)
  exact ⟨hpoisoned, hstore⟩

end Queue

end SplitsSubgraph
