import AndOrFlow.Proofs.Memory.Course
import AndOrFlow.Proofs.Memory.Threshold
import AndOrFlow.Proofs.Memory.Volume

/-!
# Searches that do not break off

Where the evaluator reports on every plan and the bytes of every step come out as a word, the greedy
phase has nothing to fail on. The sweep adds up bytes and moves thresholds; where all bytes together
are a word and the spaced thresholds are not too many, these numbers are words too.
-/
namespace AndOrFlow

variable {Op : Type} {g : Dataflow Op} {z : Sizing} {threshold : Nat}

theorem exists_candidates (flags : DropFlags)
    (hbytes : ∀ s ∈ g.steps, ∃ n, z.bytes s.shape = .ok n) :
    ∃ order, candidates g z flags = .ok order := by
  obtain ⟨retained, hretained⟩ : ∃ retained, retained = g.steps.toList.zipIdx.filter fun e =>
    decide (flags[e.2]? ≠ some true ∧ g.output? ≠ some e.2) := ⟨_, rfl⟩
  have hfound : (retained.mapM fun e => do
      return (⟨← z.bytes e.1.shape, e.1.cost, e.2⟩ : Candidate) : Checked (List Candidate)) =
      .ok (retained.map fun e => ⟨z.volume e.1.shape, e.1.cost, e.2⟩) := by
    refine mapM_eq_ok fun e he => ?_
    rw [hretained] at he
    have hmem : e.1 ∈ g.steps := Array.mem_toList_iff.mp
      (List.fst_mem_of_mem_zipIdx (List.mem_filter.mp he).1)
    obtain ⟨n, hn⟩ := hbytes e.1 hmem
    rw [hn, Sizing.volume_of_bytes hn]
    rfl
  rw [hretained] at hfound
  exact ⟨_, bind_eq_ok_iff.mpr ⟨_, hfound, rfl⟩⟩

namespace BlockWalk

variable {w : BlockWalk} {isOutput : Bool} {bytes total : Nat} {steps : List (Step Op)}

/-- With `left` bytes to come, no count of the walk will exceed the total. -/
structure Within (total left : Nat) (w : BlockWalk) : Prop where
  block_le : w.block + left ≤ total
  largest_le : w.largest ≤ total
  saved_le : w.saved + left ≤ total

theorem next_completes {left : Nat} (htotal : total < Word.limit)
    (h : w.Within total (bytes + left)) :
    Outcome (Within total left) (fun _ => False) (w.next threshold isOutput bytes) := by
  obtain ⟨hblock, hlargest, hsaved⟩ := h
  have hadd : Word.add w.block bytes = .ok (w.block + bytes) :=
    Word.add_eq_ok_iff.mpr ⟨rfl, by omega⟩
  have hsave : Word.add w.saved bytes = .ok (w.saved + bytes) :=
    Word.add_eq_ok_iff.mpr ⟨rfl, by omega⟩
  rw [next, hadd]
  change Outcome _ _ (if threshold < w.block + bytes ∨ isOutput = true then _ else _)
  split
  · rw [hsave]
    exact ⟨by simpa using by omega, Nat.max_le.mpr ⟨hlargest, by omega⟩, by simpa using by omega⟩
  · exact ⟨by simpa using by omega, hlargest, by simpa using by omega⟩

theorem onward_completes (htotal : total < Word.limit)
    (hbytes : ∀ s ∈ steps, ∃ n, z.bytes s.shape = .ok n)
    (h : w.Within total (steps.map fun s => z.volume s.shape).sum) :
    Outcome (Within total 0) (fun _ => False) (onward z threshold steps w) := by
  induction steps generalizing w with
  | nil => exact h
  | cons s rest ih =>
    obtain ⟨⟨n, hn⟩, hrest⟩ := List.forall_mem_cons.mp hbytes
    rw [List.map_cons, List.sum_cons, Sizing.volume_of_bytes hn] at h
    rw [onward, hn]
    exact (next_completes htotal h).bind fun u hu => ih hrest hu

theorem ofFlow_completes (threshold : Nat) (hbytes : ∀ s ∈ g.steps, ∃ n, z.bytes s.shape = .ok n)
    (htotal : (g.volumes z).toList.sum < Word.limit) :
    Outcome (Within (g.volumes z).toList.sum 0) (fun _ => False) (ofFlow g z threshold) := by
  refine onward_completes htotal (fun s hs => hbytes s (Array.mem_toList_iff.mp hs)) ?_
  rw [Dataflow.volumes, Array.toList_map]
  exact ⟨Nat.le_of_eq (Nat.zero_add _), Nat.zero_le _, Nat.le_of_eq (Nat.zero_add _)⟩

end BlockWalk

namespace Search

variable {s : Search Op} {trials : List Trial} {bound : Nat}

def ReportsAll (s : Search Op) : Prop :=
  ∀ flags, ∃ report, s.evaluate (.ofDropped s.flow flags) = .ok report

/-- What a part of a search ends with, where it is known not to break off. -/
abbrev Completes {α : Type} (post : α → Prop) : SearchStep α → Prop := Outcome post fun _ => False

theorem attempt_completes (h : s.ReportsAll) (flags : DropFlags) :
    Completes (fun _ => True) (s.attempt trials flags) := by
  obtain ⟨report, hreport⟩ := h flags
  rw [attempt, hreport]
  exact trivial

theorem attemptAll_completes (h : s.ReportsAll) (plans : List DropFlags) :
    Completes (fun _ => True) (s.attemptAll trials plans) := by
  refine Outcome.foldlM trivial fun trials _ flags _ => ?_
  exact (attempt_completes h flags).bind fun _ _ => trivial

/-- At every threshold the blocks are known, and the next guess is within the bound. -/
def Guesses (s : Search Op) (bound : Nat) : Prop :=
  ∀ threshold, Outcome (fun w => s.rule.next w.largest w.saved ≤ bound) (fun _ => False)
    (BlockWalk.ofFlow s.flow s.sizing threshold)

theorem ofChecked_completes {α : Type} {post : α → Prop} {x : Checked α}
    (h : Outcome post (fun _ => False) x) : Completes post (SearchStep.ofChecked trials x) := by
  cases x with
  | ok a => exact h
  | error f => exact h.elim

theorem lower_le {lowest : Option (Nat × Nat)} {peak guess : Nat}
    (h : ∀ e ∈ lowest, e.2 ≤ bound) (hguess : guess ≤ bound) :
    ∀ e ∈ lower lowest peak guess, e.2 ≤ bound := by
  cases lowest with
  | none => simpa [lower] using hguess
  | some least =>
    rw [lower]
    split
    · simpa using hguess
    · exact h

theorem guessThresholds_completes (h : s.ReportsAll) (hguesses : s.Guesses bound) (n : Nat)
    {guess : Nat} (hguess : guess ≤ bound) {lowest : Option (Nat × Nat)}
    (hlowest : ∀ e ∈ lowest, e.2 ≤ bound) :
    Completes (fun result => ∀ e ∈ result.2, e.1 ≤ bound)
      (s.guessThresholds n guess lowest trials) := by
  induction n generalizing guess lowest trials with
  | zero =>
    intro e he
    obtain ⟨low, hlow, rfl⟩ := Option.mem_map.mp he
    exact hlowest low hlow
  | succ n ih =>
    rw [guessThresholds]
    split
    · exact fun e he => by cases he
    · refine (ofChecked_completes (hguesses guess)).bind fun blocks hblocks => ?_
      refine (attempt_completes h _).bind fun result _ => ?_
      exact ih hblocks (lower_le hlowest hguess)

/-- The thresholds do not go beyond `high`, unless they are one apart. -/
theorem spaced_lt {low high count k : Nat} (hhigh : high < Word.limit)
    (hlow : low ≤ high) (hroom : low + count < Word.limit) (hk : k ≤ count) :
    low + max ((high - low) / count) 1 * k < Word.limit := by
  rcases Nat.lt_or_ge 1 ((high - low) / count) with hstep | hstep
  · rw [Nat.max_eq_left (Nat.le_of_lt hstep)]
    have hmul := Nat.mul_le_mul_left ((high - low) / count) hk
    have hdiv := Nat.div_mul_le_self (high - low) count
    omega
  · rw [Nat.max_eq_right hstep, Nat.one_mul]
    omega

theorem addSpaced_completes (hguesses : s.Guesses bound) {low step k : Nat}
    (hlt : low + step * k < Word.limit) (plans : List DropFlags) :
    Outcome (fun _ => True) (fun _ => False) (s.addSpaced low step plans k) := by
  have hmul : Word.mul step k = .ok (step * k) := Word.mul_eq_ok_iff.mpr ⟨rfl, by omega⟩
  have hadd : Word.add low (step * k) = .ok (low + step * k) := Word.add_eq_ok_iff.mpr ⟨rfl, hlt⟩
  rw [addSpaced, hmul]
  change Outcome _ _ (Word.add low (step * k) >>= _)
  rw [hadd]
  exact (hguesses _).bind fun blocks _ => trivial

theorem spacedPlans_completes (hguesses : s.Guesses bound) {low high count : Nat}
    (hhigh : high < Word.limit) (hlow : low ≤ high) (hroom : low + count < Word.limit) :
    Outcome (fun _ => True) (fun _ => False)
      (s.spacedPlans low (max ((high - low) / count) 1) count) := by
  refine Outcome.foldlM trivial fun plans _ k hk => addSpaced_completes hguesses ?_ plans
  have hcount := (List.mem_range'_1.mp hk).2
  exact spaced_lt hhigh hlow hroom (by omega)

theorem spaceThresholds_completes (h : s.ReportsAll) (hguesses : s.Guesses bound)
    (hroom : bound + s.settings.spaced < Word.limit) {best guess : Nat} (hbest : best ≤ bound)
    (hhigh : s.rule.stretch guess < Word.limit) :
    Completes (fun _ => True) (s.spaceThresholds best guess trials) := by
  rw [spaceThresholds]
  split
  · exact trivial
  · rename_i hspaced
    have hplans := spacedPlans_completes (s := s) hguesses hhigh
      (Nat.le_of_lt (Nat.lt_of_not_le fun hle => hspaced (Or.inr hle)))
      (Nat.lt_of_le_of_lt (Nat.add_le_add_right hbest _) hroom)
    exact (ofChecked_completes hplans).bind fun plans _ => attemptAll_completes h _

theorem sweep_completes (trials : List Trial) (h : s.ReportsAll) (hguesses : s.Guesses bound)
    (hroom : bound + s.settings.spaced < Word.limit)
    (hhigh : ∀ guess, s.rule.stretch guess < Word.limit) :
    Completes (fun _ => True) (s.sweep trials) := by
  rw [sweep]
  split
  · exact trivial
  · refine (guessThresholds_completes h hguesses _ (Nat.zero_le _) (by simp)).bind
      fun result hresult => ?_
    obtain ⟨more, _ | ⟨best, guess⟩⟩ := result
    · exact trivial
    · exact spaceThresholds_completes h hguesses hroom (hresult _ rfl) (hhigh guess)

theorem refine_completes (h : s.ReportsAll) (order : List Candidate) (flags : DropFlags)
    (peak cost : Nat) : Completes (fun _ => True) (s.refine order flags peak cost trials) := by
  induction order generalizing flags peak cost trials with
  | nil => exact trivial
  | cons c rest ih =>
    rw [refine]
    split
    · exact trivial
    · split
      · exact ih ..
      · refine (attempt_completes h _).bind fun result _ => ?_
        dsimp only
        split
        · exact ih ..
        · exact ih ..

theorem greedy_completes (trials : List Trial) (h : s.ReportsAll)
    (hbytes : ∀ st ∈ s.flow.steps, ∃ n, s.sizing.bytes st.shape = .ok n) :
    Completes (fun _ => True) (s.greedy trials) := by
  rw [greedy]
  split
  · exact trivial
  · rename_i best hbest
    obtain ⟨order, horder⟩ := exists_candidates best.dropped hbytes
    rw [horder]
    exact refine_completes h ..

/-- A search whose numbers are words takes its course. -/
theorem exists_course (h : s.ReportsAll) (hguesses : s.Guesses bound)
    (hroom : bound + s.settings.spaced < Word.limit)
    (hhigh : ∀ guess, s.rule.stretch guess < Word.limit)
    (hbytes : ∀ st ∈ s.flow.steps, ∃ n, s.sizing.bytes st.shape = .ok n) :
    ∃ report swept trials, s.Course report swept trials := by
  obtain ⟨report, hreport⟩ := h (Array.replicate s.flow.size false)
  have hbase : s.attempt [] (Array.replicate s.flow.size false) =
      .ok (report, [s.baseline report]) := by
    rw [attempt, hreport]
    rfl
  obtain ⟨swept, hswept, -⟩ :=
    (sweep_completes [s.baseline report] h hguesses hroom hhigh).exists_ok
  obtain ⟨trials, htrials, -⟩ := (greedy_completes swept h hbytes).exists_ok
  exact ⟨report, swept, trials, hbase, hswept, htrials⟩

end Search

/-- With the standard rule, guesses are at most three quarters of the limit of words. -/
theorem Search.guesses_standard {s : Search Op} (hrule : s.rule = .standard)
    (hbytes : ∀ st ∈ s.flow.steps, ∃ n, s.sizing.bytes st.shape = .ok n)
    (htotal : (s.flow.volumes s.sizing).toList.sum < Word.limit) : s.Guesses (3 * 2 ^ 62) := by
  intro threshold
  refine (BlockWalk.ofFlow_completes threshold hbytes htotal).imp fun w hw => ?_
  rw [hrule]
  refine nextThreshold_le (Nat.le_of_lt (Nat.lt_of_le_of_lt hw.largest_le htotal)) ?_
  exact Nat.le_of_lt (Nat.lt_of_le_of_lt hw.saved_le htotal)

end AndOrFlow
