import AndOrFlow.Proofs.Memory.History

/-!
# The sweep over thresholds

Which thresholds a search tries depends on the peaks that are reported, and not on the budget. So
the searches of a graph that differ in their budget alone have the same history up to the greedy
phase, and apart from the plan that retains everything that history is one of threshold plans. The
last of these are a batch: which plans they are is known before any of them is evaluated.
-/
namespace AndOrFlow

variable {Op : Type} {z : Sizing} {threshold : Nat}

namespace BlockWalk

variable {w u : BlockWalk} {isOutput : Bool} {bytes : Nat} {steps : List (Step Op)}

theorem size_flags_next (h : w.next threshold isOutput bytes = .ok u) :
    u.flags.size = w.flags.size + 1 := by
  obtain ⟨block, -, h⟩ := bind_eq_ok_iff.mp h
  split at h
  · obtain ⟨saved, -, h⟩ := bind_eq_ok_iff.mp h
    obtain rfl := Except.ok.inj h
    simp
  · obtain rfl := Except.ok.inj h
    simp

theorem size_flags_onward (h : onward z threshold steps w = .ok u) :
    u.flags.size = w.flags.size + steps.length := by
  induction steps generalizing w with
  | nil =>
    obtain rfl := Except.ok.inj h
    rfl
  | cons s rest ih =>
    obtain ⟨bytes, -, h⟩ := bind_eq_ok_iff.mp h
    obtain ⟨v, hv, h⟩ := bind_eq_ok_iff.mp h
    rw [ih h, size_flags_next hv, List.length_cons, Nat.add_right_comm, Nat.add_assoc]

theorem size_flags_ofFlow {g : Dataflow Op} (h : ofFlow g z threshold = .ok u) :
    u.flags.size = g.size := by
  rw [size_flags_onward h]
  simp [start, Dataflow.size]

end BlockWalk

namespace Search

variable {s : Search Op} {b : Budget} {trials more : List Trial} {flags : DropFlags}

def withBudget (s : Search Op) (b : Budget) : Search Op := { s with budget := b }

theorem guessThresholds_withBudget (n guess : Nat) (lowest : Option (Nat × Nat)) :
    (s.withBudget b).guessThresholds n guess lowest trials =
      s.guessThresholds n guess lowest trials := by
  induction n generalizing guess lowest trials with
  | zero => rfl
  | succ n ih =>
    simp only [guessThresholds, ih]
    rfl

theorem sweep_withBudget : (s.withBudget b).sweep trials = s.sweep trials := by
  simp only [sweep, guessThresholds_withBudget]
  rfl

def IsBlockPlan (s : Search Op) (flags : DropFlags) : Prop :=
  ∃ threshold w, BlockWalk.ofFlow s.flow s.sizing threshold = .ok w ∧ w.flags = flags

/-- A history that continues another one by trials of threshold plans. -/
structure Samples (s : Search Op) (trials more : List Trial) : Prop extends
    s.Continues trials more where
  blocks : ∀ t ∈ more, t ∈ trials ∨ s.IsBlockPlan t.dropped

theorem Samples.refl (h : s.Record trials) : s.Samples trials trials :=
  ⟨.refl h, fun _ ht => Or.inl ht⟩

theorem Samples.trans {last : List Trial} (h : s.Samples trials more)
    (hlast : s.Samples more last) : s.Samples trials last := by
  refine ⟨h.toContinues.trans hlast.toContinues, fun t ht => ?_⟩
  rcases hlast.blocks t ht with hmore | hblock
  · exact h.blocks t hmore
  · exact Or.inr hblock

theorem attempt_samples (hblock : s.IsBlockPlan flags) (h : s.Record trials)
    (hroom : trials.length < s.maxTrials) :
    s.Ends trials (fun result => result.2.length = trials.length + 1 ∧ s.Samples trials result.2)
      (s.attempt trials flags) := by
  refine (attempt_ends flags h hroom).imp fun result hresult => ?_
  obtain ⟨hmore, hcontinues⟩ := hresult
  refine ⟨by simp [hmore], hcontinues, fun t ht => ?_⟩
  rw [hmore, List.mem_append, List.mem_singleton] at ht
  rcases ht with ht | rfl
  · exact Or.inl ht
  · exact Or.inr hblock

theorem attemptAll_cons (trials : List Trial) (flags : DropFlags) (rest : List DropFlags) :
    s.attemptAll trials (flags :: rest) =
      s.attempt trials flags >>= fun result => s.attemptAll result.2 rest := by
  rw [attemptAll, List.foldlM_cons, bind_assoc]
  rfl

theorem attemptAll_samples {plans : List DropFlags}
    (hblocks : ∀ flags ∈ plans, s.IsBlockPlan flags) (h : s.Record trials)
    (hroom : trials.length + plans.length ≤ s.maxTrials) :
    s.Ends trials (s.Samples trials) (s.attemptAll trials plans) := by
  induction plans generalizing trials with
  | nil => exact .refl h
  | cons flags rest ih =>
    obtain ⟨hblock, hrest⟩ := List.forall_mem_cons.mp hblocks
    rw [List.length_cons] at hroom
    rw [attemptAll_cons]
    refine (attempt_samples hblock h (by omega)).bind fun result hresult => ?_
    obtain ⟨hlength, hsamples⟩ := hresult
    exact hsamples.toContinues.ends
      ((ih hrest hsamples.record (by omega)).imp fun last hlast => hsamples.trans hlast)

theorem guessThresholds_samples (n guess : Nat) (lowest : Option (Nat × Nat))
    (h : s.Record trials) :
    s.Ends trials (fun result => s.Samples trials result.1)
      (s.guessThresholds n guess lowest trials) := by
  induction n generalizing guess lowest trials with
  | zero => exact .refl h
  | succ n ih =>
    rw [guessThresholds]
    split
    · exact .refl h
    · rename_i hroom
      refine (ends_ofChecked h _).bind fun blocks hblocks => ?_
      refine (attempt_samples ⟨guess, blocks, hblocks, rfl⟩ h (lt_of_not_exhausted hroom)).bind
        fun result hresult => ?_
      exact hresult.2.toContinues.ends
        ((ih _ _ hresult.2.record).imp fun last hlast => hresult.2.trans hlast)

theorem addSpaced_blocks {low step k : Nat} {found plans : List DropFlags}
    (hfound : ∀ flags ∈ found, s.IsBlockPlan flags) (h : s.addSpaced low step found k = .ok plans) :
    ∀ flags ∈ plans, s.IsBlockPlan flags := by
  obtain ⟨offset, -, h⟩ := bind_eq_ok_iff.mp h
  obtain ⟨threshold, -, h⟩ := bind_eq_ok_iff.mp h
  obtain ⟨blocks, hwalk, h⟩ := bind_eq_ok_iff.mp h
  obtain rfl := Except.ok.inj h
  intro flags hflags
  split at hflags
  · exact hfound flags hflags
  · rcases List.mem_append.mp hflags with hflags | hflags
    · exact hfound flags hflags
    · obtain rfl := List.mem_singleton.mp hflags
      exact ⟨threshold, blocks, hwalk, rfl⟩

theorem foldlM_addSpaced_blocks {low step : Nat} {ks : List Nat} {found plans : List DropFlags}
    (hfound : ∀ flags ∈ found, s.IsBlockPlan flags)
    (h : ks.foldlM (s.addSpaced low step) found = .ok plans) :
    ∀ flags ∈ plans, s.IsBlockPlan flags := by
  induction ks generalizing found with
  | nil =>
    obtain rfl := Except.ok.inj h
    exact hfound
  | cons k ks ih =>
    rw [List.foldlM_cons] at h
    obtain ⟨next, hnext, h⟩ := bind_eq_ok_iff.mp h
    exact ih (addSpaced_blocks hfound hnext) h

/-- The spaced plans that a search still has trials for. -/
def spacing (s : Search Op) (best guess : Nat) (trials : List Trial) :
    SearchStep (List DropFlags) :=
  let high := s.rule.stretch guess
  let count := s.settings.spaced
  if count = 0 ∨ high ≤ best then .ok []
  else do
    let step := max ((high - best) / count) 1
    let plans ← SearchStep.ofChecked trials (s.spacedPlans best step count)
    return plans.take (s.maxTrials - trials.length)

/-- The plans that are left to try in any order when the thresholds have been guessed. -/
def batch (s : Search Op) (trials : List Trial) : SearchStep (List Trial × List DropFlags) :=
  if s.flow.isEmpty then .ok (trials, [])
  else do
    match ← s.guessThresholds s.settings.guesses 0 none trials with
    | (trials, none) => return (trials, [])
    | (trials, some (best, guess)) => return (trials, ← s.spacing best guess trials)

theorem spaceThresholds_eq_spacing (best guess : Nat) (trials : List Trial) :
    s.spaceThresholds best guess trials =
      s.spacing best guess trials >>= s.attemptAll trials := by
  rw [spaceThresholds, spacing]
  split
  · rfl
  · simp only [bind_assoc, pure_bind]

/-- The sweep ends with a batch of plans that do not depend on one another. -/
theorem sweep_eq_batch (trials : List Trial) : s.sweep trials =
    s.batch trials >>= fun (trials, plans) => s.attemptAll trials plans := by
  unfold sweep batch
  split
  · rfl
  · rw [bind_assoc]
    congr 1
    funext result
    obtain ⟨more, _ | ⟨best, guess⟩⟩ := result
    · rfl
    · simp only [spaceThresholds_eq_spacing, bind_assoc, pure_bind]

theorem spacing_ends (best guess : Nat) (h : s.Record trials) :
    s.Ends trials (fun plans => (∀ flags ∈ plans, s.IsBlockPlan flags) ∧
      trials.length + plans.length ≤ s.maxTrials) (s.spacing best guess trials) := by
  have hlength := h.length_le
  rw [spacing]
  split
  · exact ⟨by simp, hlength⟩
  · refine (ends_ofChecked h _).bind fun plans hplans => ?_
    have htake := List.length_take_le (s.maxTrials - trials.length) plans
    refine ⟨fun flags hflags => ?_, by omega⟩
    exact foldlM_addSpaced_blocks (by simp) hplans flags (List.mem_of_mem_take hflags)

/-- A batch of threshold plans, for each of which there is a trial left. -/
theorem batch_ends (h : s.Record trials) :
    s.Ends trials (fun result => s.Samples trials result.1 ∧
      (∀ flags ∈ result.2, s.IsBlockPlan flags) ∧
      result.1.length + result.2.length ≤ s.maxTrials) (s.batch trials) := by
  unfold batch
  split
  · exact ⟨.refl h, by simp, h.length_le⟩
  · refine (guessThresholds_samples _ _ _ h).bind fun result hresult => ?_
    obtain ⟨more, _ | ⟨best, guess⟩⟩ := result
    · exact ⟨hresult, by simp, hresult.record.length_le⟩
    · refine hresult.toContinues.ends ?_
      exact (spacing_ends best guess hresult.record).bind fun plans hplans => ⟨hresult, hplans⟩

theorem sweep_samples (h : s.Record trials) :
    s.Ends trials (s.Samples trials) (s.sweep trials) := by
  rw [sweep_eq_batch]
  refine (batch_ends h).bind fun result hbatch => ?_
  obtain ⟨hsamples, hblocks, hroom⟩ := hbatch
  exact hsamples.toContinues.ends
    ((attemptAll_samples hblocks hsamples.record hroom).imp fun last hlast => hsamples.trans hlast)

end Search
end AndOrFlow
