import Snowpatch.GitHub
import Snowpatch.Library.Firsts
import Snowpatch.Library.Machine

/-! One call of `wait_for_completion`, from its first poll to its return, against any
sequence of answers of `get_progress`. The call keeps a record of its inserts beside the
database; what other tasks write in between does not enter its decisions. -/
namespace Snowpatch

def Completion.Pc.todo : Completion.Pc → List RunnerResult
  | .reporting _ todo => todo
  | .polling | .removing => []

namespace Polling

open Firsts

inductive Position where
  | running (t : Completion.Task)
  | returned (ok : Bool)
  deriving DecidableEq, Repr

structure Call where
  db : Db
  position : Position
  inserted : List (String × RunnerResult)

/-- A failed `get_progress` ends the call; a step is one of `wait_for_completion`. -/
inductive Event where
  | step (e : Completion.Event)
  | error (message : String)
  deriving DecidableEq, Repr

def Call.start (db : Db) (k : ℕ) (branch : String) : Call :=
  ⟨db, .running ⟨k, branch, [], .polling⟩, []⟩

section Machine

variable (handle : String)

def Enabled (c : Call) : Event → Prop
  | .step e => ∃ t, c.position = .running t ∧ Completion.Enabled t e
  | .error _ => ∃ t, c.position = .running t ∧ t.pc = .polling

/-- The insert that a step makes into "needs dispatch". -/
def written (t : Completion.Task) : Completion.Event → Option (String × RunnerResult)
  | .report job =>
    if job.name ∈ t.completed then none else some (dispatchKey handle t.branch job.name, job)
  | _ => none

def next (c : Call) : Event → Call
  | .step e => match c.position with
    | .running t =>
      { db := Completion.nextDb handle c.db t e
        position := ((Completion.next t e).map Position.running).getD (.returned true)
        inserted := c.inserted ++ (written handle t e).toList }
    | .returned _ => c
  | .error _ => { c with position := .returned false }

def machine : Machine Call Event := ⟨Enabled, next handle⟩

end Machine

def answer : Event → Option (Except String (List RunnerResult))
  | .step (.progress jobs) => some (.ok jobs)
  | .step _ => none
  | .error message => some (.error message)

def answers (tr : List Event) : List (Except String (List RunnerResult)) := tr.filterMap answer

def responses (tr : List Event) : List (List RunnerResult) := Fallible.values (answers tr)

def results (tr : List Event) : List RunnerResult := (responses tr).flatMap Completion.finished

def AllFinished (jobs : List RunnerResult) : Prop := ∀ job ∈ jobs, job.isFinished

theorem length_finished {jobs : List RunnerResult} :
    jobs.length = (Completion.finished jobs).length ↔ AllFinished jobs := by
  rw [eq_comm, Completion.finished, List.length_filter_eq_length_iff, AllFinished]

def Position.todo : Position → List RunnerResult
  | .running t => t.pc.todo
  | .returned _ => []

/-- The loop goes on until the first response with nothing but finished runs. -/
def Rounds (responses : List (List RunnerResult)) : Position → Prop
  | .running ⟨_, _, _, .polling⟩ | .returned false => ∀ jobs ∈ responses, ¬ AllFinished jobs
  | .running ⟨_, _, _, .reporting jobs _⟩ => ∃ earlier, responses = earlier ++ [jobs] ∧
      ∀ jobs ∈ earlier, ¬ AllFinished jobs
  | .running ⟨_, _, _, .removing⟩ | .returned true => ∃ earlier jobs,
      responses = earlier ++ [jobs] ∧ AllFinished jobs ∧ ∀ jobs ∈ earlier, ¬ AllFinished jobs

def entry (handle branch : String) (job : RunnerResult) : String × RunnerResult :=
  (dispatchKey handle branch job.name, job)

/-- What the database holds once the inserts have been made and the call has got this far. -/
structure Stored (handle branch : String) (db₀ : Db) (c : Call) : Prop where
  entries : c.db.needsDispatch =
    c.inserted.foldl (fun tree p => Finmap.insert p.1 p.2 tree) db₀.needsDispatch
  branches : c.db.branches = if c.position = .returned true then
    (db₀.removeBranch (.working handle) branch).branches else db₀.branches

structure Tracks (handle branch : String) (db₀ : Db) (tr : List Event) (c : Call) : Prop where
  branch_eq : ∀ t, c.position = .running t → t.branch = branch
  reported : ∃ done, results tr = done ++ c.position.todo ∧
    c.inserted = (firsts RunnerResult.name done).map (entry handle branch) ∧
    ∀ t, c.position = .running t → t.completed = (firsts RunnerResult.name done).map (·.name)
  rounds : Rounds (responses tr) c.position
  stored : Stored handle branch db₀ c

section Append

variable {tr : List Event}

theorem answers_append (e : Event) : answers (tr ++ [e]) = answers tr ++ (answer e).toList := by
  cases h : answer e <;> simp [answers, h]

theorem responses_append (e : Event) : responses (tr ++ [e]) =
    responses tr ++ ((answer e).bind Except.toOption).toList := by
  cases h : answer e with
  | none => simp [responses, answers, Fallible.values, h]
  | some a => cases a <;> simp [responses, answers, Fallible.values, h, Except.toOption]

theorem mem_results {job : RunnerResult} : job ∈ results tr ↔
    ∃ jobs ∈ responses tr, job ∈ jobs ∧ job.isFinished := by
  simp [results, Completion.finished]

theorem results_append (e : Event) : results (tr ++ [e]) =
    results tr ++ ((answer e).bind Except.toOption).toList.flatMap Completion.finished := by
  rw [results, responses_append, List.flatMap_append]
  rfl

end Append

section Steps

variable {handle branch : String} {db₀ : Db} {tr : List Event} {c : Call}

theorem tracks_start (k : ℕ) : Tracks handle branch db₀ [] (Call.start db₀ k branch) where
  branch_eq := by
    rintro _ ⟨⟩
    rfl
  reported := by
    refine ⟨[], rfl, rfl, ?_⟩
    rintro _ ⟨⟩
    rfl
  rounds := by simp [Rounds, Call.start, responses, answers, Fallible.values]
  stored := ⟨rfl, rfl⟩

theorem Tracks.returns {e : Event} {c' : Call} {ok : Bool} (h : Tracks handle branch db₀ tr c)
    (hpos : c'.position = .returned ok) (htodo : c.position.todo = [])
    (hins : c'.inserted = c.inserted) (hresults : results (tr ++ [e]) = results tr)
    (hrounds : Rounds (responses (tr ++ [e])) c'.position) (hs : Stored handle branch db₀ c') :
    Tracks handle branch db₀ (tr ++ [e]) c' := by
  obtain ⟨done, hdone, hinserted, _⟩ := h.reported
  refine ⟨by simp [hpos], ⟨done, ?_, hins.trans hinserted, by simp [hpos]⟩, hrounds, hs⟩
  rw [hresults, hdone, htodo, hpos, Position.todo]

theorem tracks_error {message : String} (h : Tracks handle branch db₀ tr c)
    (he : Enabled c (.error message)) :
    Tracks handle branch db₀ (tr ++ [.error message]) (next handle c (.error message)) := by
  obtain ⟨⟨k, b, completed, _⟩, hpos, rfl⟩ := he
  have hresponses : responses (tr ++ [.error message]) = responses tr := by
    simp [responses_append, answer, Except.toOption]
  have hr := h.rounds
  rw [hpos, ← hresponses] at hr
  have hs := h.stored
  refine h.returns rfl (by rw [hpos]; rfl) rfl ?_ hr
    ⟨hs.entries, by simpa [next, hpos] using hs.branches⟩
  rw [results, hresponses, results]

theorem tracks_report {job : RunnerResult} (h : Tracks handle branch db₀ tr c)
    (he : Enabled c (.step (.report job))) :
    Tracks handle branch db₀ (tr ++ [.step (.report job)])
      (next handle c (.step (.report job))) := by
  obtain ⟨⟨k, b, completed, _⟩, hpos, jobs, rest, rfl⟩ := he
  obtain ⟨done, hdone, hins, hcompleted⟩ := h.reported
  obtain rfl : b = branch := h.branch_eq _ hpos
  obtain rfl : completed = (firsts RunnerResult.name done).map (·.name) := hcompleted _ hpos
  have hresponses : responses (tr ++ [.step (.report job)]) = responses tr := by
    simp [responses_append, answer]
  have hdone' : results (tr ++ [.step (.report job)]) = (done ++ [job]) ++ rest := by
    rw [results, hresponses, ← results, hdone, hpos]
    simp [Position.todo, Completion.Pc.todo]
  have hr := h.rounds
  rw [hpos] at hr
  have hs := h.stored
  by_cases hmem : job.name ∈ (firsts RunnerResult.name done).map (·.name)
  · have hfirsts : firsts RunnerResult.name (done ++ [job]) = firsts RunnerResult.name done := by
      rw [firsts_concat, if_pos hmem]
    have hnext : next handle c (.step (.report job)) =
        { c with
          position := .running
            ⟨k, b, (firsts RunnerResult.name done).map (·.name), .reporting jobs rest⟩ } := by
      simp only [next, hpos, Completion.nextDb, Completion.next, written, if_pos hmem]
      simp
    rw [hnext]
    refine ⟨?_, ⟨done ++ [job], hdone', by rw [hfirsts]; exact hins, ?_⟩, ?_, ?_⟩
    · rintro _ ⟨⟩
      rfl
    · rintro _ ⟨⟩
      rw [hfirsts]
    · rw [hresponses]
      exact hr
    · exact ⟨hs.entries, by simpa [hpos] using hs.branches⟩
  · have hfirsts : firsts RunnerResult.name (done ++ [job]) =
        firsts RunnerResult.name done ++ [job] := by
      rw [firsts_concat, if_neg hmem]
    have hnext : next handle c (.step (.report job)) =
        { db := { c.db with
            needsDispatch :=
              Finmap.insert (dispatchKey handle b job.name) job c.db.needsDispatch }
          position := .running ⟨k, b, (firsts RunnerResult.name done).map (·.name) ++ [job.name],
            .reporting jobs rest⟩
          inserted := c.inserted ++ [entry handle b job] } := by
      simp only [next, hpos, Completion.nextDb, Completion.next, written, if_neg hmem]
      rfl
    rw [hnext]
    refine ⟨?_, ⟨done ++ [job], hdone', ?_, ?_⟩, ?_, ?_⟩
    · rintro _ ⟨⟩
      rfl
    · rw [hfirsts, List.map_append, ← hins]
      rfl
    · rintro _ ⟨⟩
      rw [hfirsts, List.map_append]
      rfl
    · rw [hresponses]
      exact hr
    · refine ⟨?_, by simpa [hpos] using hs.branches⟩
      simp [List.foldl_append, ← hs.entries, entry]

theorem Tracks.turn {t : Completion.Task} {e : Event} (h : Tracks handle branch db₀ tr c)
    (t' : Completion.Task) (hpos : c.position = .running t) (htodo : t.pc.todo = [])
    (hnext : next handle c e = { c with position := .running t' })
    (hsame : t'.branch = t.branch ∧ t'.completed = t.completed)
    (hresults : results (tr ++ [e]) = results tr ++ t'.pc.todo)
    (hrounds : Rounds (responses (tr ++ [e])) (.running t')) :
    Tracks handle branch db₀ (tr ++ [e]) (next handle c e) := by
  obtain ⟨done, hdone, hins, hcompleted⟩ := h.reported
  rw [hnext]
  refine ⟨?_, ⟨done, ?_, hins, ?_⟩, hrounds, ?_⟩
  · rintro _ ⟨⟩
    exact hsame.1.trans (h.branch_eq t hpos)
  · rw [hresults, hdone, hpos, Position.todo, htodo, List.append_nil]
    rfl
  · rintro _ ⟨⟩
    exact hsame.2.trans (hcompleted t hpos)
  · exact ⟨h.stored.entries, by simpa [hpos] using h.stored.branches⟩

theorem tracks_step {e : Event} (h : Tracks handle branch db₀ tr c) (he : Enabled c e) :
    Tracks handle branch db₀ (tr ++ [e]) (next handle c e) := by
  cases e with
  | error message => exact tracks_error h he
  | step e => cases e with
  | report job => exact tracks_report h he
  | progress jobs =>
    obtain ⟨⟨k, b, completed, _⟩, hpos, rfl⟩ := he
    have hresponses : responses (tr ++ [.step (.progress jobs)]) = responses tr ++ [jobs] := by
      simp [responses_append, answer, Except.toOption]
    have hr := h.rounds
    rw [hpos] at hr
    refine h.turn (⟨k, b, completed, .reporting jobs (Completion.finished jobs)⟩) hpos rfl
      ?_ ⟨rfl, rfl⟩ ?_ ?_
    · simp [next, hpos, Completion.nextDb, Completion.next, written]
    · simp [results_append, answer, Except.toOption, Completion.Pc.todo]
    · rw [hresponses]
      exact ⟨_, rfl, hr⟩
  | again =>
    obtain ⟨⟨k, b, completed, _⟩, hpos, jobs, rfl, hlen⟩ := he
    have hr := h.rounds
    rw [hpos] at hr
    obtain ⟨earlier, hresponses, hearlier⟩ := hr
    refine h.turn (⟨k, b, completed, .polling⟩) hpos rfl ?_ ⟨rfl, rfl⟩ ?_ ?_
    · simp [next, hpos, Completion.nextDb, Completion.next, written]
    · simp [results_append, answer, Completion.Pc.todo]
    · intro jobs' hjobs hall
      have hcases : jobs' ∈ earlier ∨ jobs' = jobs := by
        simpa [responses_append, hresponses, answer] using hjobs
      rcases hcases with hmem | rfl
      · exact hearlier jobs' hmem hall
      · exact hlen (length_finished.mpr hall)
  | settle =>
    obtain ⟨⟨k, b, completed, _⟩, hpos, jobs, rfl, hlen⟩ := he
    have hr := h.rounds
    rw [hpos] at hr
    obtain ⟨earlier, hresponses, hearlier⟩ := hr
    refine h.turn (⟨k, b, completed, .removing⟩) hpos rfl ?_ ⟨rfl, rfl⟩ ?_ ?_
    · simp [next, hpos, Completion.nextDb, Completion.next, written]
    · simp [results_append, answer, Completion.Pc.todo]
    · refine ⟨earlier, jobs, ?_, length_finished.mp hlen, hearlier⟩
      simpa [responses_append, answer] using hresponses
  | remove =>
    obtain ⟨⟨k, b, completed, _⟩, hpos, rfl⟩ := he
    obtain rfl : b = branch := h.branch_eq _ hpos
    have hresponses : responses (tr ++ [.step .remove]) = responses tr := by
      simp [responses_append, answer]
    have hnext : next handle c (.step .remove) =
        { c with
          db := c.db.removeBranch (.working handle) b
          position := .returned true } := by
      simp [next, hpos, Completion.nextDb, Completion.next, written]
    have hr := h.rounds
    rw [hpos, ← hresponses] at hr
    have hb : c.db.branches = db₀.branches := by simpa [hpos] using h.stored.branches
    rw [hnext]
    refine h.returns rfl (by rw [hpos]; rfl) rfl ?_ hr
      ⟨h.stored.entries, by simp [Db.removeBranch, hb]⟩
    rw [results, hresponses, results]

theorem execution_tracks {k : ℕ} (hx : (machine handle).Execution (Call.start db₀ k branch) tr c) :
    Tracks handle branch db₀ tr c :=
  hx.history (tracks_start k) fun _ _ _ _ h he => tracks_step h he

end Steps

section Results

variable {handle branch : String} {db₀ : Db} {tr : List Event} {c : Call}

theorem dispatchKey_name_inj {a b : String}
    (h : dispatchKey handle branch a = dispatchKey handle branch b) : a = b := by
  simpa [dispatchKey] using h

theorem filter_inserted (done : List RunnerResult) (name : String) :
    ((firsts RunnerResult.name done).map (entry handle branch)).filter
        (fun p => decide (p.1 = dispatchKey handle branch name)) =
      ((done.find? fun job => decide (job.name = name)).map (entry handle branch)).toList := by
  have hkey : (fun p : String × RunnerResult => decide (p.1 = dispatchKey handle branch name)) ∘
      entry handle branch = fun job => decide (job.name = name) := by
    funext job
    exact decide_eq_decide.mpr ⟨dispatchKey_name_inj, fun h => by rw [entry, h]⟩
  rw [List.filter_map, hkey, filter_firsts]
  cases done.find? fun job => decide (job.name = name) <;> rfl

/-- What `wait_for_completion` maintains. `done` are the finished results looked at so far:
all of them except in the middle of a response. -/
structure LoopInvariant (handle branch : String) (db₀ : Db) (tr : List Event) (c : Call) :
    Prop where
  reported : ∃ done, results tr = done ++ c.position.todo ∧
    (∀ t, c.position = .running t → t.completed.Nodup ∧
      ∀ name, name ∈ t.completed ↔ ∃ job ∈ done, job.name = name) ∧
    (∀ name, c.inserted.filter (fun p => decide (p.1 = dispatchKey handle branch name)) =
      ((done.find? fun job => decide (job.name = name)).map fun job =>
        (dispatchKey handle branch name, job)).toList) ∧
    ∀ p ∈ c.inserted, p.1 = dispatchKey handle branch p.2.name
  rounds : Rounds (responses tr) c.position
  removed : c.position = .returned true ↔ Event.step .remove ∈ tr
  stored : Stored handle branch db₀ c

theorem removed_iff {k : ℕ} (hx : (machine handle).Execution (Call.start db₀ k branch) tr c) :
    c.position = .returned true ↔ Event.step .remove ∈ tr := by
  refine hx.history (I := fun tr c => c.position = .returned true ↔ Event.step .remove ∈ tr)
    (by simp [Call.start]) fun tr c e _ ih he => ?_
  cases e with
  | error message =>
    obtain ⟨t, hpos, _⟩ := he
    have hno : Event.step .remove ∉ tr := fun h => by simpa [hpos] using ih.mpr h
    simp [machine, next, hno]
  | step e =>
    obtain ⟨t, hpos, he⟩ := he
    have hno : Event.step .remove ∉ tr := fun h => by simpa [hpos] using ih.mpr h
    cases hn : Completion.next t e with
    | none =>
      obtain rfl := Completion.eq_remove_of_next hn
      simp [machine, next, hpos, hn]
    | some t' =>
      have hne : e ≠ .remove := by
        rintro rfl
        cases hn
      simp [machine, next, hpos, hn, hno, Ne.symm hne]

theorem polling_loop_invariant {k : ℕ}
    (hx : (machine handle).Execution (Call.start db₀ k branch) tr c) :
    LoopInvariant handle branch db₀ tr c := by
  have h := execution_tracks hx
  obtain ⟨done, hdone, hins, hcompleted⟩ := h.reported
  refine ⟨⟨done, hdone, ?_, ?_, ?_⟩, h.rounds, removed_iff hx, h.stored⟩
  · intro t hpos
    rw [hcompleted t hpos]
    refine ⟨nodup_map_firsts _ _, fun name => ?_⟩
    rw [mem_map_firsts, List.mem_map]
  · intro name
    rw [hins, filter_inserted]
    cases hf : done.find? fun job => decide (job.name = name) with
    | none => rfl
    | some job =>
      have hname : job.name = name := by simpa using List.find?_some hf
      simp [entry, hname]
  · intro p hp
    rw [hins] at hp
    obtain ⟨job, _, rfl⟩ := List.mem_map.mp hp
    rfl

def lint : RunnerResult := ⟨"lint", .failed, .warning, none, some "Job skipped."⟩

def build (state : JobState) (outcome : TestState) : RunnerResult :=
  ⟨"build", state, outcome, none, none⟩

/-- Two polls: the build is running in the first and finished in the second. -/
def sampleTrace : List Event :=
  [.step (.progress [build .running .fail, lint]), .step (.report lint), .step .again,
    .step (.progress [build .completed .success, lint]),
    .step (.report (build .completed .success)), .step (.report lint), .step .settle,
    .step .remove]

def sampleCall : Call :=
  (machine "github").run (Call.start Db.empty 0 "300") sampleTrace

theorem sample_execution :
    (machine "github").Execution (Call.start Db.empty 0 "300") sampleTrace sampleCall := by
  refine Machine.Runs.execution ⟨⟨_, rfl, rfl⟩, ⟨_, rfl, _, _, rfl⟩, ⟨_, rfl, _, rfl, ?_⟩,
    ⟨_, rfl, rfl⟩, ⟨_, rfl, _, _, rfl⟩, ⟨_, rfl, _, _, rfl⟩, ⟨_, rfl, _, rfl, ?_⟩, ⟨_, rfl, rfl⟩,
    trivial⟩
  all_goals decide

theorem polling_loop_invariant_sample :
    LoopInvariant "github" "300" Db.empty sampleTrace sampleCall :=
  polling_loop_invariant sample_execution

/-- Once the call has returned Ok, each run of the last response has an entry under its name:
the first result of that name that was finished in any response. -/
theorem first_result_reported {k : ℕ} {earlier : List (List RunnerResult)}
    {last : List RunnerResult}
    (hx : (machine handle).Execution (Call.start db₀ k branch) tr c)
    (hr : c.position = .returned true) (hlast : responses tr = earlier ++ [last]) :
    ∀ job ∈ last, ∃ first,
      (results tr).find? (fun j => decide (j.name = job.name)) = some first ∧
        (dispatchKey handle branch job.name, first) ∈ c.inserted := by
  have h := execution_tracks hx
  obtain ⟨done, hdone, hins, _⟩ := h.reported
  rw [hr, Position.todo, List.append_nil] at hdone
  intro job hjob
  have hrounds := h.rounds
  rw [hr] at hrounds
  obtain ⟨earlier', last', heq, hall, _⟩ := hrounds
  obtain ⟨rfl, hl⟩ := List.append_inj' (hlast.symm.trans heq) rfl
  obtain rfl := List.singleton_inj.mp hl
  have hmem : job ∈ done := by
    rw [← hdone, mem_results]
    exact ⟨last, by simp [hlast], hjob, hall job hjob⟩
  obtain ⟨first, hfirst, hname⟩ := exists_mem_firsts RunnerResult.name hmem
  refine ⟨first, ?_, ?_⟩
  · rw [hdone, ← hname]
    exact (mem_firsts RunnerResult.name).mp hfirst
  · rw [hins, ← hname]
    exact List.mem_map_of_mem hfirst

theorem first_result_reported_sample : ∃ first,
    (results sampleTrace).find? (fun j => decide (j.name = lint.name)) = some first ∧
      (dispatchKey "github" "300" lint.name, first) ∈ sampleCall.inserted := by
  have hlast : responses sampleTrace = [[build .running .fail, lint]] ++
    [[build .completed .success, lint]] := rfl
  exact first_result_reported sample_execution rfl hlast lint (by simp)

def sameName : List RunnerResult := [build .completed .success, build .completed .fail]

def sameNameTrace : List Event :=
  [.step (.progress sameName), .step (.report (build .completed .success)),
    .step (.report (build .completed .fail)), .step .settle, .step .remove]

theorem later_failure_hidden : ∃ c last,
    (machine "github").Execution (Call.start Db.empty 0 "300") sameNameTrace c ∧
      c.position = .returned true ∧ responses sameNameTrace = [] ++ [last] ∧
      ∃ job ∈ last, ¬ ∃ p ∈ c.inserted, p.2.outcome = job.outcome ∧ p.2.url = job.url ∧
        p.2.description = job.description := by
  have hruns : (machine "github").Runs (Call.start Db.empty 0 "300") sameNameTrace := by
    refine ⟨⟨_, rfl, rfl⟩, ⟨_, rfl, _, _, rfl⟩, ⟨_, rfl, _, _, rfl⟩, ⟨_, rfl, _, rfl, ?_⟩,
      ⟨_, rfl, rfl⟩, trivial⟩
    decide
  refine ⟨_, sameName, hruns.execution, rfl, rfl, build .completed .fail, by simp [sameName], ?_⟩
  rintro ⟨p, hp, houtcome, _⟩
  have hins : ((machine "github").run (Call.start Db.empty 0 "300") sameNameTrace).inserted =
      [entry "github" "300" (build .completed .success)] := by decide
  rw [hins, List.mem_singleton] at hp
  rw [hp] at houtcome
  cases houtcome

end Results

/-! The loop does not get stuck: it takes any responses up to the first finished one. -/
section Progress

variable (handle : String)

theorem reports_all (jobs todo : List RunnerResult) (c : Call) (k : ℕ) (b : String)
    (completed : List String)
    (hpos : c.position = .running ⟨k, b, completed, .reporting jobs todo⟩) :
    ∃ tr c' completed', (machine handle).Execution c tr c' ∧ answers tr = [] ∧
      c'.position = .running ⟨k, b, completed', .reporting jobs []⟩ := by
  induction todo generalizing c completed with
  | nil => exact ⟨[], c, completed, .nil, rfl, hpos⟩
  | cons job rest ih =>
    have he : (machine handle).Enabled c (.step (.report job)) := ⟨_, hpos, jobs, rest, rfl⟩
    have hstep : ∃ completed', (next handle c (.step (.report job))).position =
        .running ⟨k, b, completed', .reporting jobs rest⟩ := by
      by_cases hm : job.name ∈ completed
      · exact ⟨completed, by simp [next, hpos, Completion.next, hm]⟩
      · exact ⟨completed ++ [job.name], by simp [next, hpos, Completion.next, hm]⟩
    obtain ⟨completed', hstep⟩ := hstep
    obtain ⟨tr, c', completed'', hx, hans, hend⟩ := ih _ completed' hstep
    refine ⟨.step (.report job) :: tr, c', completed'', .cons he hx, ?_, hend⟩
    simpa [answers, answer] using hans

/-- One turn of the loop: a response is taken and its finished results are reported. -/
theorem takes_response (jobs : List RunnerResult) (c : Call) (k : ℕ) (b : String)
    (completed : List String) (hpos : c.position = .running ⟨k, b, completed, .polling⟩) :
    ∃ tr c' completed', (machine handle).Execution c tr c' ∧ responses tr = [jobs] ∧
      c'.position = .running ⟨k, b, completed', .reporting jobs []⟩ := by
  have he : (machine handle).Enabled c (.step (.progress jobs)) := ⟨_, hpos, rfl⟩
  obtain ⟨tr, c', completed', hx, hans, hend⟩ := reports_all handle jobs
    (Completion.finished jobs) (next handle c (.step (.progress jobs))) k b completed
    (by simp [next, hpos, Completion.next])
  refine ⟨.step (.progress jobs) :: tr, c', completed', .cons he hx, ?_, hend⟩
  have hcons : answers (.step (.progress jobs) :: tr) = .ok jobs :: answers tr := rfl
  rw [responses, hcons, hans]
  rfl

theorem responses_append_list (tr tr' : List Event) :
    responses (tr ++ tr') = responses tr ++ responses tr' := by
  simp [responses, answers, Fallible.values]

theorem takes_responses (earlier : List (List RunnerResult)) (last : List RunnerResult)
    (hearlier : ∀ jobs ∈ earlier, ¬ AllFinished jobs) (hlast : AllFinished last) (c : Call)
    (k : ℕ) (b : String) (completed : List String)
    (hpos : c.position = .running ⟨k, b, completed, .polling⟩) :
    ∃ tr c', (machine handle).Execution c tr c' ∧ responses tr = earlier ++ [last] ∧
      c'.position = .returned true := by
  induction earlier generalizing c completed with
  | nil =>
    obtain ⟨tr, c', completed', hx, hresp, hend⟩ :=
      takes_response handle last c k b completed hpos
    have hsettle : (machine handle).Enabled c' (.step .settle) :=
      ⟨_, hend, last, rfl, length_finished.mpr hlast⟩
    have hpos' : (next handle c' (.step .settle)).position =
        .running ⟨k, b, completed', .removing⟩ := by simp [next, hend, Completion.next]
    have hremove : (machine handle).Enabled (next handle c' (.step .settle)) (.step .remove) :=
      ⟨_, hpos', rfl⟩
    have hend2 : (machine handle).Execution c' [.step .settle, .step .remove] _ :=
      .cons hsettle (.single hremove)
    refine ⟨tr ++ [.step .settle, .step .remove], _, hx.append hend2, ?_, ?_⟩
    · rw [responses_append_list, hresp]
      rfl
    · change (next handle (next handle c' (.step .settle)) (.step .remove)).position = _
      simp [next, hend, Completion.next]
  | cons jobs rest ih =>
    obtain ⟨tr, c', completed', hx, hresp, hend⟩ :=
      takes_response handle jobs c k b completed hpos
    have hagain : (machine handle).Enabled c' (.step .again) := by
      refine ⟨_, hend, jobs, rfl, fun h => ?_⟩
      exact hearlier jobs List.mem_cons_self (length_finished.mp h)
    obtain ⟨tr', c'', hx', hresp', hret⟩ := ih
      (fun j hj => hearlier j (List.mem_cons_of_mem _ hj)) (next handle c' (.step .again))
      completed' (by simp [next, hend, Completion.next])
    refine ⟨tr ++ .step .again :: tr', c'', hx.append (.cons hagain hx'), ?_, hret⟩
    have hcons : responses (.step .again :: tr') = responses tr' := rfl
    rw [responses_append_list, hresp, hcons, hresp']
    rfl

/-- For every sequence of responses the call returns Ok at the first finished one. -/
theorem call_returns (db₀ : Db) (k : ℕ) (branch : String) (earlier : List (List RunnerResult))
    (last : List RunnerResult) (hearlier : ∀ jobs ∈ earlier, ¬ AllFinished jobs)
    (hlast : AllFinished last) : ∃ tr c,
      (machine handle).Execution (Call.start db₀ k branch) tr c ∧
        responses tr = earlier ++ [last] ∧ c.position = .returned true :=
  takes_responses handle earlier last hearlier hlast _ k branch [] rfl

end Progress

end Polling

end Snowpatch
