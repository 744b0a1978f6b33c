import Mathlib.Logic.Relation
import AndOrFlow.Proofs.Memory.Answers
import AndOrFlow.Proofs.Memory.Block

/-!
# The plans that a search evaluates

Up to the last part of the sweep a search evaluates one plan after the other. Then there is a batch
of plans, which may be left to workers: any of them takes any plan that waits, and when a plan fails
the others may still go on for a while. The trials are recorded in the order of the batch, whatever
order they were made in, and the greedy phase goes on from there, one plan after the other.
-/
namespace AndOrFlow
open Relation

variable {Op : Type} {s : Search Op} {trials swept : List Trial} {plans : List DropFlags}
  {flags : DropFlags} {report : Report} {failure : Failure PlanError}

/-- A batch of plans in the hands of workers. -/
structure Batch where
  /-- The plans that nobody has taken. -/
  waiting : List DropFlags
  /-- The plans evaluated, in the order of the calls. -/
  called : List DropFlags
  /-- What a plan has failed with. -/
  failed : Option (Failure PlanError)

/-- The plans that a search evaluates, in the order of the calls. -/
structure Calls where
  /-- All that are evaluated up to the end of the sweep. -/
  sweep : List DropFlags
  /-- The plan that the greedy phase sets out from, if it gets there and there is one. -/
  start : Option DropFlags
  /-- Those that the greedy phase evaluates. -/
  greedy : List DropFlags

def Calls.all (c : Calls) : List DropFlags := c.sweep ++ c.greedy

namespace Search

def Reports (s : Search Op) (flags : DropFlags) : Prop :=
  ∃ report, s.evaluate (.ofDropped s.flow flags) = .ok report

def FailsWith (s : Search Op) (failure : Failure PlanError) (flags : DropFlags) : Prop :=
  s.evaluate (.ofDropped s.flow flags) = .error failure

/-- Of several workers anybody takes any plan; a single one goes in order, up to a failure. -/
def MayTake (s : Search Op) (before : List DropFlags) (failed : Option (Failure PlanError)) :
    Prop :=
  s.settings.parallel = true ∨ before = [] ∧ failed = none

/-- One plan is evaluated. Of two failures either may be kept. -/
inductive Works (s : Search Op) : Batch → Batch → Prop
  | report {before after called : List DropFlags} {flags : DropFlags}
      {failed : Option (Failure PlanError)} (hturn : s.MayTake before failed)
      (h : s.Reports flags) :
      Works s ⟨before ++ flags :: after, called, failed⟩
        ⟨before ++ after, called ++ [flags], failed⟩
  | fail {before after called : List DropFlags} {flags : DropFlags}
      {failed : Option (Failure PlanError)} {failure kept : Failure PlanError}
      (hturn : s.MayTake before failed) (h : s.FailsWith failure flags)
      (hkept : kept = failure ∨ failed = some kept) :
      Works s ⟨before ++ flags :: after, called, failed⟩
        ⟨before ++ after, called ++ [flags], some kept⟩

def opening (s : Search Op) : SearchStep (Report × List Trial × List DropFlags) := do
  let (report, trials) ← s.attempt [] (Array.replicate s.flow.size false)
  return (report, ← s.batch trials)

/-- What workers can make of a search: the plans evaluated, and the outcome. -/
inductive Runs (s : Search Op) : Calls → SearchStep Selection → Prop
  | opening {stop : Stop PlanError DropFlags} (h : s.opening = .error stop) :
      Runs s ⟨stop.done, none, []⟩ (.error stop)
  | broken {report : Report} {trials : List Trial} {plans : List DropFlags} {b : Batch}
      {failure : Failure PlanError} (h : s.opening = .ok (report, trials, plans))
      (hworks : ReflTransGen s.Works ⟨plans, [], none⟩ b) (hfailed : b.failed = some failure) :
      Runs s ⟨trials.map Trial.dropped ++ b.called, none, []⟩
        (.error ⟨failure, trials.map Trial.dropped ++ b.called⟩)
  | greedy {report : Report} {trials swept : List Trial} {plans : List DropFlags} {b : Batch}
      (h : s.opening = .ok (report, trials, plans))
      (hworks : ReflTransGen s.Works ⟨plans, [], none⟩ b) (hwaiting : b.waiting = [])
      (hfailed : b.failed = none) (hswept : s.attemptAll trials plans = .ok swept) :
      Runs s ⟨trials.map Trial.dropped ++ b.called, (s.budget.bestOf swept).map Trial.dropped,
          (s.greedy swept).called.drop swept.length⟩
        (s.greedy swept >>= s.select (s.baseline report))

/-- If a call fails, it is the last one, and the outcome is its failure. -/
def Halts (s : Search Op) (calls : List DropFlags) (outcome : SearchStep Selection) : Prop :=
  ∀ flags ∈ calls, ∀ failure, s.FailsWith failure flags →
    outcome = .error ⟨failure, calls⟩ ∧
      ∃ before, calls = before ++ [flags] ∧ ∀ other ∈ before, s.Reports other

structure Accounts (s : Search Op) (calls : Calls) (outcome : SearchStep Selection) : Prop where
  length_le : calls.all.length ≤ max 1 s.settings.maxTrials
  first : ∃ rest, calls.all.map (Plan.ofDropped s.flow) = .retainAll s.flow :: rest
  made : ∀ p ∈ calls.all.map (Plan.ofDropped s.flow),
    p = .ofDropped s.flow p.dropped ∧ p.KeepsOutput s.flow
  counted : ∀ r, outcome = .ok r → r.trials.length = calls.all.length
  distinct : (calls.greedy.map (Plan.ofDropped s.flow)).Nodup
  fresh : ∀ start ∈ calls.start,
    Plan.ofDropped s.flow start ∉ calls.greedy.map (Plan.ofDropped s.flow)
  /-- With one worker it is the run of the search. -/
  serial : s.settings.parallel = false → outcome = s.run ∧ calls.all = s.run.evaluated
  halts : s.settings.parallel = false → s.Halts calls.all outcome

/-! ## Trying a batch in order -/

theorem attemptAll_of_reports (h : ∀ flags ∈ plans, s.Reports flags) (trials : List Trial) :
    ∃ swept, s.attemptAll trials plans = .ok swept := by
  induction plans generalizing trials with
  | nil => exact ⟨trials, rfl⟩
  | cons flags rest ih =>
    obtain ⟨⟨report, hreport⟩, hrest⟩ := List.forall_mem_cons.mp h
    rw [attemptAll_cons, attempt, hreport]
    exact ih hrest _

theorem map_dropped_of_attemptAll (h : s.attemptAll trials plans = .ok swept) :
    swept.map Trial.dropped = trials.map Trial.dropped ++ plans := by
  induction plans generalizing trials with
  | nil =>
    obtain rfl := Except.ok.inj h
    rw [List.append_nil]
  | cons flags rest ih =>
    rw [attemptAll_cons] at h
    obtain ⟨result, hresult, h⟩ := bind_eq_ok_iff.mp h
    obtain ⟨report, -, rfl⟩ := attempt_eq_ok_iff.mp hresult
    rw [ih h, List.map_append, List.append_assoc]
    rfl

/-- A batch that fails does so at its first plan that fails. -/
theorem attemptAll_of_fails {before after : List DropFlags}
    (hbefore : ∀ other ∈ before, s.Reports other) (hfails : s.FailsWith failure flags)
    (trials : List Trial) : s.attemptAll trials (before ++ flags :: after) =
      .error ⟨failure, trials.map Trial.dropped ++ (before ++ [flags])⟩ := by
  induction before generalizing trials with
  | nil =>
    rw [List.nil_append, attemptAll_cons, attempt, hfails]
    rfl
  | cons other rest ih =>
    obtain ⟨⟨report, hreport⟩, hrest⟩ := List.forall_mem_cons.mp hbefore
    rw [List.cons_append, attemptAll_cons, attempt, hreport]
    refine (ih hrest _).trans ?_
    rw [List.map_append, List.append_assoc]
    rfl

theorem reports_or_fails (plans : List DropFlags) : (∀ flags ∈ plans, s.Reports flags) ∨
    ∃ before flags after failure, plans = before ++ flags :: after ∧
      (∀ other ∈ before, s.Reports other) ∧ s.FailsWith failure flags := by
  induction plans with
  | nil => exact Or.inl (by simp)
  | cons flags rest ih =>
    cases hreport : s.evaluate (.ofDropped s.flow flags) with
    | error failure => exact Or.inr ⟨[], flags, rest, failure, rfl, by simp, hreport⟩
    | ok report =>
      rcases ih with hrest | ⟨before, other, after, failure, rfl, hbefore, hfails⟩
      · exact Or.inl (List.forall_mem_cons.mpr ⟨⟨report, hreport⟩, hrest⟩)
      · exact Or.inr ⟨flags :: before, other, after, failure, rfl,
          List.forall_mem_cons.mpr ⟨⟨report, hreport⟩, hbefore⟩, hfails⟩

/-! ## What workers do -/

theorem MayTake.serial {before : List DropFlags} {failed : Option (Failure PlanError)}
    (h : s.MayTake before failed) (hserial : s.settings.parallel = false) :
    before = [] ∧ failed = none := by
  rcases h with h | h
  · cases hserial.symm.trans h
  · exact h

/-- What holds of a batch while workers see to it. -/
structure Handles (s : Search Op) (plans : List DropFlags) (b : Batch) : Prop where
  perm : (b.called ++ b.waiting).Perm plans
  reports : b.failed = none → ∀ flags ∈ b.called, s.Reports flags
  inOrder : s.settings.parallel = false → b.called ++ b.waiting = plans
  fails : s.settings.parallel = false → ∀ failure, b.failed = some failure →
    ∃ before flags, b.called = before ++ [flags] ∧ (∀ other ∈ before, s.Reports other) ∧
      s.FailsWith failure flags

theorem perm_take (called before after : List DropFlags) (flags : DropFlags) :
    ((called ++ [flags]) ++ (before ++ after)).Perm (called ++ (before ++ flags :: after)) := by
  have hmiddle : (flags :: (before ++ after)).Perm (before ++ flags :: after) :=
    List.perm_middle.symm
  rw [List.append_assoc]
  exact hmiddle.append_left called

theorem Handles.works {b c : Batch} (h : s.Handles plans b) (hworks : s.Works b c) :
    s.Handles plans c := by
  cases hworks with
  | report hturn hreports =>
    constructor
    · exact (perm_take ..).trans h.perm
    · intro hnone other hother
      rcases List.mem_append.mp hother with hother | hother
      · exact h.reports hnone other hother
      · obtain rfl := List.mem_singleton.mp hother
        exact hreports
    · intro hserial
      obtain ⟨rfl, -⟩ := hturn.serial hserial
      simpa using h.inOrder hserial
    · intro hserial failure hfailed
      obtain ⟨-, rfl⟩ := hturn.serial hserial
      cases hfailed
  | @fail before after called flags failed failure kept hturn hfails hkept =>
    constructor
    · exact (perm_take ..).trans h.perm
    · intro hnone
      cases hnone
    · intro hserial
      obtain ⟨rfl, -⟩ := hturn.serial hserial
      simpa using h.inOrder hserial
    · intro hserial last hlast
      obtain ⟨-, rfl⟩ := hturn.serial hserial
      -- There was no failure before, so the one that is kept is that of this plan.
      obtain rfl : kept = failure := hkept.resolve_right (by simp)
      obtain rfl := Option.some.inj hlast
      exact ⟨called, flags, rfl, h.reports rfl, hfails⟩

theorem handles_of_works {b : Batch} (h : ReflTransGen s.Works ⟨plans, [], none⟩ b) :
    s.Handles plans b := by
  induction h with
  | refl => exact ⟨.refl _, by simp, fun _ => rfl, fun _ _ hfailed => by cases hfailed⟩
  | tail _ hworks ih => exact ih.works hworks

/-- One worker after the other sees to plans that report. -/
theorem works_of_reports {before : List DropFlags} (h : ∀ flags ∈ before, s.Reports flags)
    (called after : List DropFlags) :
    ReflTransGen s.Works ⟨before ++ after, called, none⟩ ⟨after, called ++ before, none⟩ := by
  induction before generalizing called with
  | nil =>
    rw [List.append_nil]
    exact .refl
  | cons flags rest ih =>
    obtain ⟨hreports, hrest⟩ := List.forall_mem_cons.mp h
    have hnext := ih hrest (called ++ [flags])
    rw [List.append_assoc] at hnext
    exact .head (.report (Or.inr ⟨rfl, rfl⟩) hreports) hnext

/-! ## Up to the batch -/

theorem opening_ends (s : Search Op) :
    Outcome (fun r => s.Samples [s.baseline r.1] r.2.1 ∧ (∀ flags ∈ r.2.2, s.IsBlockPlan flags) ∧
        r.2.1.length + r.2.2.length ≤ s.maxTrials)
      (fun stop => [Array.replicate s.flow.size false] <+: stop.done ∧
        ∃ more, s.Record more ∧ s.StopsAfter more stop)
      s.opening := by
  rw [opening]
  cases hreport : s.evaluate (.ofDropped s.flow (Array.replicate s.flow.size false)) with
  | error failure =>
    simp only [attempt, hreport]
    exact ⟨List.prefix_rfl, [], s.record_nil, .failure s.maxTrials_pos hreport⟩
  | ok report =>
    have hbase : s.attempt [] (Array.replicate s.flow.size false) =
        .ok (report, [s.baseline report]) := attempt_eq_ok_iff.mpr ⟨report, hreport, rfl⟩
    have hrecord : s.Record [s.baseline report] := by
      have hends := attempt_ends (Array.replicate s.flow.size false) s.record_nil s.maxTrials_pos
      rw [hbase] at hends
      exact hends.2.record
    rw [hbase]
    change Outcome _ _ (s.batch [s.baseline report] >>= fun batch => pure (report, batch))
    refine Outcome.bind ((batch_ends hrecord).imp_error ?_) fun r hr => hr
    intro stop hstop
    obtain ⟨more, hmore, hafter⟩ := hstop
    exact ⟨(hmore.extend.map Trial.dropped).trans hafter.prefix_done, more, hmore.record, hafter⟩

theorem run_eq_opening (s : Search Op) : s.run = s.opening >>= fun (report, trials, plans) =>
    s.attemptAll trials plans >>= fun swept => s.greedy swept >>= s.select (s.baseline report) := by
  simp only [run, opening, sweep_eq_batch, bind_assoc, pure_bind]
  rfl

theorem run_of_opening (h : s.opening = .ok (report, trials, plans)) : s.run =
    s.attemptAll trials plans >>= fun swept => s.greedy swept >>= s.select (s.baseline report) := by
  rw [run_eq_opening, h]
  rfl

theorem run_of_opening_error {stop : Stop PlanError DropFlags} (h : s.opening = .error stop) :
    s.run = .error stop := by
  rw [run_eq_opening, h]
  rfl

/-! ## The calls of a run -/

theorem evaluated_greedy (swept : List Trial) (first : Trial) :
    (s.greedy swept >>= s.select first).evaluated = (s.greedy swept).called := by
  cases s.greedy swept with
  | error stop => rfl
  | ok trials => exact evaluated_select s first trials

theorem length_called_le (h : s.Record swept) : (s.greedy swept).called.length ≤ s.maxTrials := by
  rcases (greedy_ends h).ok_or_error with
    ⟨trials, hgreedy, htrials⟩ | ⟨stop, hgreedy, more, hmore, hafter⟩
  · rw [hgreedy]
    simpa [SearchStep.called] using htrials.record.length_le
  · rw [hgreedy]
    exact hafter.length_le hmore.record

theorem Record.reports (h : s.Record trials) (hflags : flags ∈ trials.map Trial.dropped) :
    s.Reports flags := by
  obtain ⟨t, ht, rfl⟩ := List.mem_map.mp hflags
  exact ⟨t.report, h.evaluated t ht⟩

theorem Reports.not_failsWith (h : s.Reports flags) : ¬ s.FailsWith failure flags := by
  obtain ⟨report, hreport⟩ := h
  intro hfails
  cases hreport.symm.trans hfails

theorem Record.halts (h : s.Record trials) (outcome : SearchStep Selection) :
    s.Halts (trials.map Trial.dropped) outcome :=
  fun _ hflags _ hfails => absurd hfails (h.reports hflags).not_failsWith

theorem StopsAfter.halts {stop : Stop PlanError DropFlags} (h : s.StopsAfter trials stop)
    (hrecord : s.Record trials) : s.Halts stop.done (.error stop) := by
  cases h with
  | fault f => exact hrecord.halts _
  | @failure last failure hroom hlast =>
    intro flags hflags other hfails
    rcases List.mem_append.mp hflags with hflags | hflags
    · exact absurd hfails (hrecord.reports hflags).not_failsWith
    · obtain rfl := List.mem_singleton.mp hflags
      obtain rfl := Except.error.inj (hlast.symm.trans hfails)
      exact ⟨rfl, _, rfl, fun _ hbefore => hrecord.reports hbefore⟩

theorem run_halts (s : Search Op) : s.Halts s.run.evaluated s.run := by
  rcases s.course_or_stops with
    ⟨report, swept, trials, hcourse⟩ | ⟨stop, more, hrun, hmore, hafter⟩
  · rw [hcourse.run_eq, evaluated_select]
    exact hcourse.continues.record.halts _
  · rw [hrun]
    exact hafter.halts hmore

theorem exists_retainAll_of_prefix {calls : List DropFlags}
    (h : [Array.replicate s.flow.size false] <+: calls) :
    ∃ rest, calls.map (Plan.ofDropped s.flow) = .retainAll s.flow :: rest := by
  obtain ⟨rest, rfl⟩ := h
  rw [List.map_append, List.map_singleton, Plan.ofDropped_replicate]
  exact ⟨_, rfl⟩

theorem made_of_mem {calls : List DropFlags} {p : Plan}
    (h : p ∈ calls.map (Plan.ofDropped s.flow)) :
    p = .ofDropped s.flow p.dropped ∧ p.KeepsOutput s.flow := by
  obtain ⟨flags, -, rfl⟩ := List.mem_map.mp h
  exact ⟨(Plan.ofDropped_dropped s.flow flags).symm, Plan.keepsOutput_ofDropped s.flow flags⟩

theorem halts_of_serial {calls : List DropFlags} {outcome : SearchStep Selection}
    (h : outcome = s.run ∧ calls = s.run.evaluated) : s.Halts calls outcome := by
  rw [h.1, h.2]
  exact s.run_halts

theorem accounts_of_error {calls : List DropFlags}
    (hfirst : [Array.replicate s.flow.size false] <+: calls) (hlength : calls.length ≤ s.maxTrials)
    (hserial : s.settings.parallel = false → s.run = .error ⟨failure, calls⟩) :
    s.Accounts ⟨calls, none, []⟩ (.error ⟨failure, calls⟩) := by
  have hall : Calls.all ⟨calls, none, []⟩ = calls := List.append_nil _
  have hrun : s.settings.parallel = false →
      .error ⟨failure, calls⟩ = s.run ∧ Calls.all ⟨calls, none, []⟩ = s.run.evaluated := by
    intro hone
    rw [hall, hserial hone]
    exact ⟨rfl, rfl⟩
  constructor
  · rwa [hall, Nat.max_comm]
  · rw [hall]
    exact exists_retainAll_of_prefix hfirst
  · exact fun p hp => made_of_mem hp
  · exact fun r hr => by cases hr
  · exact List.nodup_nil
  · exact fun start hstart => by cases hstart
  · exact hrun
  · exact fun hone => halts_of_serial (hrun hone)

/-- The greedy phase goes on from the trials of the sweep, whatever order they were made in. -/
theorem accounts_of_greedy {calls : List DropFlags}
    (hswept : s.Samples [s.baseline report] swept)
    (hrun : s.run = s.greedy swept >>= s.select (s.baseline report))
    (hperm : calls.Perm (swept.map Trial.dropped))
    (hfirst : [Array.replicate s.flow.size false] <+: calls)
    (hserial : s.settings.parallel = false → calls = swept.map Trial.dropped) :
    s.Accounts
      ⟨calls, (s.budget.bestOf swept).map Trial.dropped, (s.greedy swept).called.drop swept.length⟩
      (s.greedy swept >>= s.select (s.baseline report)) := by
  obtain ⟨tried, hcalled, hnodup, hfresh⟩ := greedy_tries hswept.size_dropped
  have hdrop : (s.greedy swept).called.drop swept.length = tried := by
    rw [hcalled, List.drop_left' (List.length_map ..)]
  have hlength : (calls ++ tried).length = s.run.evaluated.length := by
    rw [hrun, evaluated_greedy, hcalled, List.length_append, List.length_append, hperm.length_eq]
  have hone : s.settings.parallel = false → s.run = s.run ∧ calls ++ tried = s.run.evaluated := by
    intro hone
    refine ⟨rfl, ?_⟩
    rw [hrun, evaluated_greedy, hcalled, hserial hone]
  rw [hdrop, ← hrun]
  constructor
  · rw [Calls.all, hlength, hrun, evaluated_greedy, Nat.max_comm]
    exact length_called_le hswept.record
  · exact exists_retainAll_of_prefix (hfirst.trans (List.prefix_append calls tried))
  · exact fun p hp => made_of_mem hp
  · intro r hr
    rw [Calls.all, hlength, hr]
    exact (List.length_map ..).symm
  · exact hnodup
  · exact hfresh
  · exact hone
  · exact fun hserial => halts_of_serial (hone hserial)

theorem Runs.accounts {calls : Calls} {outcome : SearchStep Selection} (h : s.Runs calls outcome) :
    s.Accounts calls outcome := by
  have hends := opening_ends s
  cases h with
  | opening hopening =>
    rw [hopening] at hends
    obtain ⟨hfirst, more, hmore, hafter⟩ := hends
    exact accounts_of_error hfirst (hafter.length_le hmore) fun _ => run_of_opening_error hopening
  | @broken report trials plans b failure hopening hworks hfailed =>
    rw [hopening] at hends
    obtain ⟨hsamples, -, hroom⟩ := hends
    have hhandles := handles_of_works hworks
    have hlength := hhandles.perm.length_eq
    have hfirst : [Array.replicate s.flow.size false] <+: trials.map Trial.dropped :=
      hsamples.extend.map Trial.dropped
    refine accounts_of_error (hfirst.trans (List.prefix_append _ _)) ?_ fun hone => ?_
    · dsimp only at hroom
      rw [List.length_append] at hlength ⊢
      rw [List.length_map]
      omega
    · obtain ⟨before, flags, hcalled, hbefore, hfails⟩ := hhandles.fails hone failure hfailed
      have hplans := hhandles.inOrder hone
      rw [hcalled, List.append_assoc] at hplans
      rw [run_of_opening hopening, ← hplans, hcalled]
      exact congrArg (· >>= _) (attemptAll_of_fails hbefore hfails trials)
  | @greedy report trials swept plans b hopening hworks hwaiting hfailed hswept =>
    have hrun := run_of_opening hopening
    rw [hswept] at hrun
    rw [hopening] at hends
    obtain ⟨hsamples, hblocks, hroom⟩ := hends
    have hhandles := handles_of_works hworks
    have hall := map_dropped_of_attemptAll hswept
    have hmore := attemptAll_samples hblocks hsamples.record hroom
    rw [hswept] at hmore
    have hfirst : [Array.replicate s.flow.size false] <+: trials.map Trial.dropped :=
      hsamples.extend.map Trial.dropped
    have hperm := hhandles.perm
    have hinOrder := hhandles.inOrder
    rw [hwaiting, List.append_nil] at hperm hinOrder
    refine accounts_of_greedy (hsamples.trans hmore) hrun ?_
      (hfirst.trans (List.prefix_append _ _)) fun hone => ?_
    · rw [hall]
      exact hperm.append_left _
    · rw [hall, hinOrder hone]

/-- The search itself is what a single worker makes of it. -/
theorem exists_runs (s : Search Op) :
    ∃ calls, s.Runs calls s.run ∧ calls.all = s.run.evaluated := by
  cases hopening : s.opening with
  | error stop =>
    rw [run_of_opening_error hopening]
    exact ⟨_, .opening hopening, List.append_nil _⟩
  | ok r =>
    obtain ⟨report, trials, plans⟩ := r
    have hends := opening_ends s
    rw [hopening] at hends
    obtain ⟨hsamples, hblocks, hroom⟩ := hends
    have hrun := run_of_opening hopening
    rcases s.reports_or_fails plans with
      hreports | ⟨before, flags, after, failure, rfl, hbefore, hfails⟩
    · obtain ⟨swept, hswept⟩ := attemptAll_of_reports hreports trials
      have hmore := attemptAll_samples hblocks hsamples.record hroom
      rw [hswept] at hmore hrun
      change s.run = s.greedy swept >>= s.select (s.baseline report) at hrun
      obtain ⟨tried, htried, -⟩ := greedy_tries (hsamples.trans hmore).size_dropped
      have hworks := works_of_reports hreports [] []
      rw [List.append_nil] at hworks
      rw [hrun, evaluated_greedy]
      refine ⟨_, .greedy hopening hworks rfl rfl hswept, ?_⟩
      rw [Calls.all, htried, List.drop_left' (List.length_map ..), map_dropped_of_attemptAll hswept]
      rfl
    · have hturn : s.MayTake [] none := Or.inr ⟨rfl, rfl⟩
      have hworks := (works_of_reports hbefore [] (flags :: after)).tail
        (.fail hturn hfails (Or.inl rfl))
      rw [attemptAll_of_fails hbefore hfails] at hrun
      rw [hrun]
      exact ⟨_, .broken hopening hworks rfl, List.append_nil _⟩

/-! ## Another evaluator -/

theorem opening_follows (s : Search Op) (other : Evaluator) :
    s.Follows other (fun r => r.2.1) [] s.opening (s.answeredBy other).opening :=
  (attempt_follows _).bind fun result => (batch_follows result.2).bind fun _ => follows_pure rfl

section

variable {other : Evaluator}

theorem attemptAll_answeredBy (hagrees : s.Agrees other (swept.map Trial.dropped))
    (h : s.attemptAll trials plans = .ok swept) :
    (s.answeredBy other).attemptAll trials plans = .ok swept := by
  have hfollows : s.Follows other (fun trials => trials) trials (s.attemptAll trials plans)
      ((s.answeredBy other).attemptAll trials plans) := attemptAll_follows plans
  rw [h] at hfollows
  exact hfollows.same hagrees

/-- The greedy phase needs the answers of the sweep and of its own plans. -/
theorem greedy_answeredBy (hswept : s.Agrees other (swept.map Trial.dropped))
    (hlate : s.Agrees other ((s.greedy swept).called.drop swept.length)) :
    (s.answeredBy other).greedy swept = s.greedy swept := by
  have hfollows : s.Follows other (fun trials => trials) swept (s.greedy swept)
      ((s.answeredBy other).greedy swept) := greedy_follows swept
  obtain ⟨tried, htried⟩ := hfollows.grows
  rw [← SearchStep.calls_trials, ← htried, List.drop_left' (List.length_map ..)] at hlate
  apply hfollows.same
  rw [← htried]
  exact List.forall_mem_append.mpr ⟨hswept, hlate⟩

/-- Workers can do the same with an evaluator that says the same of the plans that they take. -/
theorem works_answeredBy {start b : Batch} (h : ReflTransGen s.Works start b)
    (hagrees : s.Agrees other b.called) : ReflTransGen (s.answeredBy other).Works start b := by
  induction h with
  | refl => exact .refl
  | tail _ hworks ih =>
    cases hworks with
    | @report before after called flags failed hturn hreports =>
      obtain ⟨report, hreport⟩ := hreports
      have hanswer := hagrees flags (by simp)
      exact (ih (hagrees.subset (List.subset_append_left ..))).tail
        (.report hturn ⟨report, hanswer.trans hreport⟩)
    | @fail before after called flags failed failure kept hturn hfails hkept =>
      have hanswer := hagrees flags (by simp)
      exact (ih (hagrees.subset (List.subset_append_left ..))).tail
        (.fail hturn (hanswer.trans hfails) hkept)

theorem Runs.answeredBy {calls : Calls} {outcome : SearchStep Selection} (h : s.Runs calls outcome)
    (hagrees : s.Agrees other calls.all) : (s.answeredBy other).Runs calls outcome := by
  have hsame := (opening_follows s other).same
  cases h with
  | opening hopening =>
    rw [hopening] at hsame
    rw [Calls.all, List.append_nil] at hagrees
    exact .opening (hsame hagrees)
  | @broken report trials plans b failure hopening hworks hfailed =>
    rw [hopening] at hsame
    rw [Calls.all, List.append_nil] at hagrees
    have hfirst := hagrees.subset (List.subset_append_left ..)
    have hcalled := hagrees.subset (List.subset_append_right ..)
    exact .broken (hsame hfirst) (works_answeredBy hworks hcalled) hfailed
  | @greedy report trials swept plans b hopening hworks hwaiting hfailed hswept =>
    rw [hopening] at hsame
    have hearly : s.Agrees other (trials.map Trial.dropped ++ b.called) :=
      hagrees.subset (List.subset_append_left ..)
    have hfirst := hearly.subset (List.subset_append_left ..)
    have hcalled := hearly.subset (List.subset_append_right ..)
    -- The history of the sweep holds the calls up to its end, in another order.
    have hhistory : s.Agrees other (swept.map Trial.dropped) := by
      have hperm := (handles_of_works hworks).perm
      rw [hwaiting, List.append_nil] at hperm
      rw [map_dropped_of_attemptAll hswept]
      exact hearly.subset (hperm.symm.append_left _).subset
    have hruns := Runs.greedy (hsame hfirst) (works_answeredBy hworks hcalled) hwaiting hfailed
      (attemptAll_answeredBy hhistory hswept)
    rw [greedy_answeredBy hhistory (hagrees.subset (List.subset_append_right ..))] at hruns
    exact hruns

end

end Search

/-- The calls of a search are accounted for, whatever workers make of it; and the search is one
thing that they can make of it. Neither depends on what the evaluator says of other plans. -/
theorem search_calls (g : Dataflow Op) (z : Sizing) (b : Budget) (settings : Settings)
    (evaluate : Evaluator) :
    (∃ calls, (Search.mk g z b settings .standard evaluate).Runs calls
        (search g z b settings evaluate) ∧
      calls.all = (search g z b settings evaluate).evaluated) ∧
    (∀ other, (Search.mk g z b settings .standard evaluate).Agrees other
        (search g z b settings evaluate).evaluated →
      search g z b settings other = search g z b settings evaluate) ∧
    ∀ calls outcome, (Search.mk g z b settings .standard evaluate).Runs calls outcome →
      (Search.mk g z b settings .standard evaluate).Accounts calls outcome ∧
      ∀ other, (Search.mk g z b settings .standard evaluate).Agrees other calls.all →
        (Search.mk g z b settings .standard other).Runs calls outcome :=
  ⟨Search.exists_runs _, fun _ hagrees => Search.run_of_agrees hagrees,
    fun _ _ h => ⟨h.accounts, fun _ hagrees => h.answeredBy hagrees⟩⟩

/-- An evaluator that fails on the plans that drop two outputs. -/
def refusePairs (p : Plan) : Except (Failure PlanError) Report :=
  if p.numDropped = 2 then .error (.error (.mismatch 4 5)) else .ok (countDropped p)

/-- One that fails on those that drop more, too. -/
def refuseMore (p : Plan) : Except (Failure PlanError) Report :=
  if 2 ≤ p.numDropped then .error (.error (.mismatch 4 5)) else .ok (countDropped p)

/-- One worker evaluates three plans and stops at the third. None of them drops three outputs, so
what the evaluator says of those that do makes no difference. -/
theorem search_calls_unevenChain :
    (∃ calls : Calls, calls.all = [#[false, false, false, false], #[false, true, false, false],
        #[true, true, false, false]] ∧
      (Search.mk unevenChain ⟨1, .u8⟩ {} { guesses := 0, parallel := false } .standard
        refusePairs).Accounts calls
        (.error ⟨.error (.mismatch 4 5), [#[false, false, false, false],
          #[false, true, false, false], #[true, true, false, false]]⟩)) ∧
    search unevenChain ⟨1, .u8⟩ {} { guesses := 0, parallel := false } refuseMore =
      .error ⟨.error (.mismatch 4 5), [#[false, false, false, false], #[false, true, false, false],
        #[true, true, false, false]]⟩ := by
  obtain ⟨⟨calls, hruns, hall⟩, hdepends, haccounts⟩ := search_calls unevenChain ⟨1, .u8⟩ {}
    { guesses := 0, parallel := false } refusePairs
  have hsearch : search unevenChain ⟨1, .u8⟩ {} { guesses := 0, parallel := false } refusePairs =
      .error ⟨.error (.mismatch 4 5), [#[false, false, false, false],
        #[false, true, false, false], #[true, true, false, false]]⟩ := by decide +kernel
  rw [hsearch] at hruns hall hdepends
  refine ⟨⟨calls, hall, (haccounts calls _ hruns).1⟩, hdepends refuseMore ?_⟩
  unfold Search.Agrees SearchStep.evaluated
  decide +kernel

end AndOrFlow
