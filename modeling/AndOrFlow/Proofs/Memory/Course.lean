import AndOrFlow.Proofs.Memory.Sweep

/-!
# The course of a search

A search that does not break off evaluates the plan that retains everything, sweeps over thresholds
and drops outputs one after the other. Its parts compose to a history that begins with that plan.
-/
namespace AndOrFlow

variable {Op : Type} {s : Search Op} {trials : List Trial}

namespace Search

def baseline (s : Search Op) (report : Report) : Trial :=
  ⟨Array.replicate s.flow.size false, report⟩

theorem Samples.size_dropped {report : Report} (h : s.Samples [s.baseline report] trials) :
    ∀ t ∈ trials, t.dropped.size = s.flow.size := by
  intro t ht
  rcases h.blocks t ht with hbase | ⟨threshold, w, hwalk, hflags⟩
  · obtain rfl := List.mem_singleton.mp hbase
    simp [baseline]
  · rw [← hflags, BlockWalk.size_flags_ofFlow hwalk]

/-- The parts of a search that does not break off: the history that the sweep leaves, and the whole
one. -/
structure Course (s : Search Op) (report : Report) (swept trials : List Trial) : Prop where
  baseline_eq : s.attempt [] (Array.replicate s.flow.size false) = .ok (report, [s.baseline report])
  sweep_eq : s.sweep [s.baseline report] = .ok swept
  greedy_eq : s.greedy swept = .ok trials

namespace Course

variable {report : Report} {swept : List Trial}

theorem run_eq (h : s.Course report swept trials) : s.run = s.select (s.baseline report) trials := by
  simp only [run, h.baseline_eq, h.sweep_eq, h.greedy_eq, bind, Except.bind]
  rfl

theorem swept_samples (h : s.Course report swept trials) :
    s.Samples [s.baseline report] swept := by
  have hbase := attempt_ends (Array.replicate s.flow.size false) s.record_nil s.maxTrials_pos
  rw [h.baseline_eq] at hbase
  have hsweep := sweep_samples hbase.2.record
  rwa [h.sweep_eq] at hsweep

theorem swept_continues (h : s.Course report swept trials) :
    s.Continues [s.baseline report] swept := h.swept_samples.toContinues

theorem greedy_continues (h : s.Course report swept trials) : s.Continues swept trials := by
  have hgreedy := greedy_ends h.swept_continues.record
  rwa [h.greedy_eq] at hgreedy

theorem continues (h : s.Course report swept trials) : s.Continues [s.baseline report] trials :=
  h.swept_continues.trans h.greedy_continues

theorem size_dropped (h : s.Course report swept trials) :
    ∀ t ∈ swept, t.dropped.size = s.flow.size := h.swept_samples.size_dropped

end Course

/-- A search takes its course or breaks off, and until then it has a history. -/
theorem course_or_stops (s : Search Op) :
    (∃ report swept trials, s.Course report swept trials) ∨
      ∃ stop more, s.run = .error stop ∧ s.Record more ∧ s.StopsAfter more stop := by
  rcases (attempt_ends (Array.replicate s.flow.size false) s.record_nil
    s.maxTrials_pos).ok_or_error with
    ⟨⟨report, first⟩, hfirst, hbase, hrecord⟩ | ⟨stop, hstop, more, hmore, hafter⟩
  · obtain rfl : first = [s.baseline report] := hbase
    rcases (sweep_samples hrecord.record).ok_or_error with
      ⟨swept, hsweep, hswept⟩ | ⟨stop, hstop, more, hmore, hafter⟩
    · rcases (greedy_ends hswept.record).ok_or_error with
        ⟨trials, hgreedy, -⟩ | ⟨stop, hstop, more, hmore, hafter⟩
      · exact Or.inl ⟨report, swept, trials, hfirst, hsweep, hgreedy⟩
      · refine Or.inr ⟨stop, more, ?_, hmore.record, hafter⟩
        simp only [run, hfirst, hsweep, hstop, bind, Except.bind]
    · refine Or.inr ⟨stop, more, ?_, hmore.record, hafter⟩
      simp only [run, hfirst, hstop, bind, Except.bind]
  · refine Or.inr ⟨stop, more, ?_, hmore.record, hafter⟩
    simp only [run, hstop, bind, Except.bind]

theorem course_or_breaks (s : Search Op) :
    (∃ report swept trials, s.Course report swept trials) ∨
      ∃ stop, s.run = .error stop ∧ s.Breaks stop := by
  rcases s.course_or_stops with hcourse | ⟨stop, more, hrun, -, hafter⟩
  · exact Or.inl hcourse
  · exact Or.inr ⟨stop, hrun, hafter.breaks⟩

theorem run_cases (s : Search Op) :
    (∃ report trials, s.Continues [s.baseline report] trials ∧
      s.run = s.select (s.baseline report) trials) ∨
    ∃ stop, s.run = .error stop ∧ s.Breaks stop := by
  rcases s.course_or_breaks with ⟨report, swept, trials, hcourse⟩ | hbreaks
  · exact Or.inl ⟨report, trials, hcourse.continues, hcourse.run_eq⟩
  · exact Or.inr hbreaks

end Search
end AndOrFlow
