import AndOrFlow.Proofs.Memory.Block
import AndOrFlow.Proofs.Memory.Limit

/-!
# Other units of size

With another batch and another element type the bytes of every output are multiplied by one number.
A simulation, a walk over blocks and a search add bytes up and compare them, and each of these steps
comes out the same when all bytes are multiplied. So the whole run takes the same course, with all
sizes multiplied at its end, as long as the larger ones are words; then the smaller ones are words
too.
-/
namespace AndOrFlow

variable {Op : Type} {g : Dataflow Op} {z y : Sizing} {k : Nat}

section

variable (hk : 0 < k)
include hk

theorem Word.add_covers (a b : Nat) : Covers (k * ·) (add a b) (add (k * a) (k * b)) := by
  intro c hc
  rw [add_eq_ok_iff, ← Nat.mul_add] at hc
  have hle : a + b ≤ k * (a + b) := Nat.le_mul_of_pos_left _ hk
  exact ⟨a + b, add_eq_ok_iff.mpr ⟨rfl, by omega⟩, hc.1⟩

theorem Word.sub_covers (a b : Nat) : Covers (k * ·) (sub a b) (sub (k * a) (k * b)) := by
  intro c hc
  rw [sub_eq_ok_iff, ← Nat.mul_sub] at hc
  exact ⟨a - b, sub_eq_ok_iff.mpr ⟨Nat.le_of_mul_le_mul_left hc.1 hk, rfl⟩, hc.2⟩

/-- A product of which one factor is multiplied. -/
theorem Word.foldlM_mul_covers (xs : List Nat) (a : Nat) :
    Covers (k * ·) (xs.foldlM mul a) (xs.foldlM mul (k * a)) := by
  refine Covers.foldlM (fun a x => ?_) xs a
  intro c hc
  rw [mul_eq_ok_iff, Nat.mul_assoc] at hc
  have hle : a * x ≤ k * (a * x) := Nat.le_mul_of_pos_left _ hk
  exact ⟨a * x, mul_eq_ok_iff.mpr ⟨rfl, by omega⟩, hc.1⟩

end

namespace Sizing

/-- In this graph the bytes at the second sizing are those at the first, multiplied. -/
structure Scales (g : Dataflow Op) (z y : Sizing) (k : Nat) : Prop where
  pos : 0 < k
  bytes : ∀ s ∈ g.steps, Covers (k * ·) (z.bytes s.shape) (y.bytes s.shape)

/-- The first size is replaced by the batch, and the other ones stay. -/
theorem bytes_covers {s : Shape} {b : Nat} (hrank : 1 ≤ s.rank) (hb : 1 ≤ b) (d : Element) :
    Covers (b * d.width * ·) (bytes ⟨1, .u8⟩ s) (bytes ⟨b, d⟩ s) := by
  obtain ⟨_ | ⟨first, rest⟩⟩ := s
  · simp [Shape.rank] at hrank
  · intro n hn
    obtain ⟨count, hcount, hn⟩ := bind_eq_ok_iff.mp hn
    change (b :: rest).foldlM Word.mul 1 = .ok count at hcount
    rw [List.foldlM_cons] at hcount
    obtain ⟨one, hone, hcount⟩ := bind_eq_ok_iff.mp hcount
    obtain rfl : b * 1 = one := by rw [← (Word.mul_eq_ok_iff.mp hone).1, Nat.mul_comm]
    obtain ⟨m, hm, rfl⟩ := Word.foldlM_mul_covers hb rest 1 count hcount
    obtain ⟨hmul, hlt⟩ := Word.mul_eq_ok_iff.mp hn
    have hle : m ≤ b * d.width * m := Nat.le_mul_of_pos_left _ (Nat.mul_pos hb d.width_pos)
    have hscaled : b * d.width * m = n := by rw [← hmul, Nat.mul_right_comm]
    have hsize : Element.sizeOf .u8 m = .ok m := Word.mul_eq_ok_iff.mpr ⟨Nat.mul_one m, by omega⟩
    exact ⟨m, bind_eq_ok_iff.mpr ⟨m, hm, hsize⟩, hscaled⟩

/-- A batch of one, with one byte for an element, is the unit of all sizings. -/
theorem scales_unit {b : Nat} (hrank : ∀ s ∈ g.steps, 1 ≤ s.shape.rank) (hb : 1 ≤ b)
    (d : Element) : Scales g ⟨1, .u8⟩ ⟨b, d⟩ (b * d.width) :=
  ⟨Nat.mul_pos hb d.width_pos, fun s hs => bytes_covers (hrank s hs) hb d⟩

end Sizing

namespace Memory

variable {bytes : Array Nat}

def scale (k : Nat) (m : Memory) : Memory := { m with total := k * m.total, peak := k * m.peak }

theorem getD_map_mul (bytes : Array Nat) (i : Nat) :
    (bytes.map (k * ·)).getD i 0 = k * bytes.getD i 0 := by
  simp only [Array.getD_eq_getD_getElem?, Array.getElem?_map]
  cases bytes[i]? <;> rfl

theorem alloc_covers (hk : 0 < k) (m : Memory) (i : Nat) :
    Covers (scale k) (m.alloc bytes i) ((m.scale k).alloc (bytes.map (k * ·)) i) := by
  unfold alloc
  apply Covers.ite Iff.rfl
  · exact .ok m
  · rw [getD_map_mul]
    exact (Word.add_covers hk _ _).bind fun total => .ok { m with live := _, total := total }

theorem free_covers (hk : 0 < k) (m : Memory) (i : Nat) :
    Covers (scale k) (m.free bytes i) ((m.scale k).free (bytes.map (k * ·)) i) := by
  unfold free
  apply Covers.ite Iff.rfl
  · rw [getD_map_mul]
    exact (Word.sub_covers hk _ _).bind fun total => .ok { m with live := _, total := total }
  · exact .ok m

theorem observe_scale (m : Memory) : (m.scale k).observe = m.observe.scale k := by
  simp only [observe, scale, Nat.mul_max_mul_left]

end Memory

def Report.scale (k : Nat) (r : Report) : Report where
  forwardPeak := k * r.forwardPeak
  backwardPeak := k * r.backwardPeak
  peak := k * r.peak
  recomputeCost := r.recomputeCost

namespace Workload

variable {w : Workload} {p : Plan}

def scale (k : Nat) (w : Workload) : Workload := { w with bytes := w.bytes.map (k * ·) }

theorem size_scale : (w.scale k).size = w.size := by simp [size, scale]

theorem ofFlow_covers (h : z.Scales g y k) : Covers (scale k) (ofFlow g z) (ofFlow g y) := by
  have hlist := Covers.mapM fun s hs => h.bytes s (Array.mem_toList_iff.mp hs)
  unfold ofFlow
  rw [Array.mapM_eq_mapM_toList, Array.mapM_eq_mapM_toList, map_eq_pure_bind, map_eq_pure_bind,
    bind_assoc, bind_assoc]
  refine hlist.bind fun bytes => ?_
  rw [← List.map_toArray]
  exact .ok (Workload.mk _ _ _ bytes.toArray)

section

variable (hk : 0 < k)
include hk

theorem release_covers (m : Memory) (i j : Nat) :
    Covers (Memory.scale k) (w.release p i m j) ((w.scale k).release p i (m.scale k) j) :=
  .ite Iff.rfl (m.free_covers hk j) (.ok m)

theorem forwardStep_covers (m : Memory) (i : Nat) : Covers (Memory.scale k)
    (w.forwardStep p m i) ((w.scale k).forwardStep p (m.scale k) i) := by
  refine (m.alloc_covers hk i).bind fun m => ?_
  rw [Memory.observe_scale]
  refine (Covers.foldlM (fun m j => release_covers hk m i j) _ _).bind fun m => ?_
  exact .ite Iff.rfl (m.free_covers hk i) (.ok m)

theorem rerun_covers (m : Memory) (r : Nat) :
    Covers (Memory.scale k) (w.rerun m r) ((w.scale k).rerun (m.scale k) r) := by
  refine .ite Iff.rfl (.ok m) ((m.alloc_covers hk r).bind fun m => ?_)
  intro n hn
  obtain ⟨cost, hcost, hn⟩ := bind_eq_ok_iff.mp hn
  exact ⟨_, bind_eq_ok_iff.mpr ⟨cost, hcost, rfl⟩, Except.ok.inj hn⟩

theorem supply_covers (m : Memory) (v : Nat) :
    Covers (Memory.scale k) (w.supply p m v) ((w.scale k).supply p (m.scale k) v) :=
  .ite Iff.rfl (.ok m) (.foldlM (rerun_covers hk) _ m)

theorem backwardStep_covers (m : Memory) (i : Nat) : Covers (Memory.scale k)
    (w.backwardStep p m i) ((w.scale k).backwardStep p (m.scale k) i) := by
  refine (Covers.foldlM (supply_covers hk) _ m).bind fun m => ?_
  rw [Memory.observe_scale]
  exact m.observe.free_covers hk i

theorem forward_covers : Covers (Memory.scale k) (w.forward p) ((w.scale k).forward p) := by
  unfold forward
  rw [size_scale]
  exact .foldlM (forwardStep_covers hk) _ (.empty w.size)

theorem backward_covers (m : Memory) :
    Covers (Memory.scale k) (w.backward p m) ((w.scale k).backward p (m.scale k)) := by
  unfold backward
  rw [size_scale]
  exact .foldlM (backwardStep_covers hk) _ { m with peak := 0 }

/-- All three peaks are multiplied, and the cost is the same. -/
theorem run_covers : Covers (Report.scale k) (w.run p) ((w.scale k).run p) := by
  refine (forward_covers hk).bind fun m => (backward_covers hk m).bind fun n => ?_
  have hpeak : max (m.scale k).peak (n.scale k).peak = k * max m.peak n.peak :=
    Nat.mul_max_mul_left ..
  rw [hpeak]
  exact .ok (Report.mk m.peak n.peak (max m.peak n.peak) n.cost)

end

end Workload

theorem simulate_covers (h : z.Scales g y k) (p : Plan) :
    Covers (Report.scale k) (simulate g p z) (simulate g p y) := by
  intro r hr
  obtain ⟨hsize, w, hw, hr⟩ := simulate_eq_ok_iff.mp hr
  obtain ⟨v, hv, rfl⟩ := Workload.ofFlow_covers h w hw
  obtain ⟨q, hq, hqr⟩ := Workload.run_covers h.pos r hr
  exact ⟨q, simulate_eq_ok_iff.mpr ⟨hsize, v, hv, hq⟩, hqr⟩

namespace BlockWalk

def scale (k : Nat) (w : BlockWalk) : BlockWalk :=
  { w with block := k * w.block, largest := k * w.largest, saved := k * w.saved }

/-- A block is above its threshold just when it is so with both multiplied. -/
theorem next_covers (hk : 0 < k) (threshold : Nat) (isOutput : Bool) (bytes : Nat) (w : BlockWalk) :
    Covers (scale k) (w.next threshold isOutput bytes)
      ((w.scale k).next (k * threshold) isOutput (k * bytes)) := by
  refine (Word.add_covers hk w.block bytes).bind fun block => ?_
  apply Covers.ite
  · rw [Nat.mul_lt_mul_left hk]
  · refine (Word.add_covers hk w.saved bytes).bind fun saved => ?_
    have hlargest : max (w.scale k).largest (k * block) = k * max w.largest block :=
      Nat.mul_max_mul_left ..
    rw [hlargest]
    exact .ok (BlockWalk.mk (w.flags.push false) 0 (max w.largest block) saved)
  · exact .ok (BlockWalk.mk (w.flags.push true) block w.largest w.saved)

theorem onward_covers (h : z.Scales g y k) (threshold : Nat) {steps : List (Step Op)}
    (hsteps : ∀ s ∈ steps, s ∈ g.steps) (w : BlockWalk) :
    Covers (scale k) (onward z threshold steps w) (onward y (k * threshold) steps (w.scale k)) := by
  induction steps generalizing w with
  | nil => exact .ok w
  | cons s rest ih =>
    obtain ⟨hs, hrest⟩ := List.forall_mem_cons.mp hsteps
    refine (h.bytes s hs).bind fun bytes => ?_
    exact (next_covers h.pos threshold rest.isEmpty bytes w).bind (ih hrest)

end BlockWalk

def BlockPlan.scale (k : Nat) (m : BlockPlan) : BlockPlan :=
  ⟨m.plan, k * m.threshold, k * m.largest, k * m.saved⟩

theorem BlockPlan.make_covers (h : z.Scales g y k) (threshold : Nat) :
    Covers (scale k) (make g z threshold) (make g y (k * threshold)) := by
  have hsteps : ∀ s ∈ g.steps.toList, s ∈ g.steps := fun s hs => Array.mem_toList_iff.mp hs
  refine (BlockWalk.onward_covers h threshold hsteps .start).bind fun w => ?_
  exact .ok (BlockPlan.mk (.ofDropped g w.flags) threshold w.largest w.saved)

def Candidate.scale (k : Nat) (c : Candidate) : Candidate := { c with bytes := k * c.bytes }

/-- A ratio to the cost keeps its place among the others. -/
theorem Candidate.before_scale (hk : 0 < k) (a b : Candidate) :
    before (a.scale k) (b.scale k) = before a b := by
  have hratio : compareRatio (b.scale k) (a.scale k) = compareRatio b a := by
    simp only [compareRatio, scale, Nat.mul_assoc]
    simp only [compare, compareOfLessAndEq, Nat.mul_lt_mul_left hk, Nat.mul_right_inj hk.ne']
  rw [before, hratio]
  rfl

theorem candidates_covers (h : z.Scales g y k) (flags : DropFlags) :
    Covers (List.map (Candidate.scale k)) (candidates g z flags) (candidates g y flags) := by
  refine (Covers.mapM (f := Candidate.scale k) fun e he => ?_).bind fun found => ?_
  · have hmem := List.fst_mem_of_mem_zipIdx (List.mem_filter.mp he).1
    exact (h.bytes e.1 (Array.mem_toList_iff.mp hmem)).bind fun bytes =>
      .ok (Candidate.mk bytes e.1.cost e.2)
  · rw [Sorting.sort_map (Candidate.before_scale h.pos)]
    exact .ok _

def Trial.scale (k : Nat) (t : Trial) : Trial := ⟨t.dropped, t.report.scale k⟩

theorem Trial.better_scale_iff (hk : 0 < k) (t u : Trial) :
    (t.scale k).Better (u.scale k) ↔ t.Better u := by
  simp only [Better, scale, Report.scale, Nat.mul_lt_mul_left hk, Nat.mul_right_inj hk.ne']

theorem Budget.bestOf_scale (hk : 0 < k) (b : Budget) (trials : List Trial) :
    b.bestOf (trials.map (Trial.scale k)) = (b.bestOf trials).map (Trial.scale k) := by
  have hkeep : ∀ best t, bestOf.keep (Option.map (Trial.scale k) best) (t.scale k) =
      (bestOf.keep best t).map (Trial.scale k) := by
    intro best t
    cases best with
    | none => rfl
    | some best =>
      simp only [bestOf.keep, Option.map_some, Trial.better_scale_iff hk]
      split <;> rfl
  unfold bestOf
  rw [List.filter_map, List.foldl_map]
  change List.foldl _ (Option.map (Trial.scale k) none) _ = _
  exact List.foldl_hom (Option.map (Trial.scale k)) hkeep

def Selection.scale (k : Nat) (r : Selection) : Selection :=
  ⟨r.plan, r.report.scale k, r.trials.map (Trial.scale k)⟩

namespace Search

variable {b : Budget} {settings : Settings} {rule : GuessRule}

theorem attempt_covers (h : z.Scales g y k) (trials : List Trial) (flags : DropFlags) :
    Covers (Prod.map (Report.scale k) (List.map (Trial.scale k)))
      ((simulated g z b settings rule).attempt trials flags)
      ((simulated g y b settings rule).attempt (trials.map (Trial.scale k)) flags) := by
  intro result hresult
  obtain ⟨report, hreport, rfl⟩ := attempt_eq_ok_iff.mp hresult
  obtain ⟨unscaled, hunscaled, rfl⟩ := simulate_covers h _ report hreport
  refine ⟨_, attempt_eq_ok_iff.mpr ⟨unscaled, hunscaled, rfl⟩, ?_⟩
  simp [Trial.scale]

theorem refine_covers (h : z.Scales g y k) (order : List Candidate) (flags : DropFlags)
    (peak cost : Nat) (trials : List Trial) :
    Covers (List.map (Trial.scale k))
      ((simulated g z b settings rule).refine order flags peak cost trials)
      ((simulated g y b settings rule).refine (order.map (Candidate.scale k)) flags (k * peak) cost
        (trials.map (Trial.scale k))) := by
  induction order generalizing flags peak cost trials with
  | nil => exact .ok trials
  | cons c rest ih =>
    rw [List.map_cons, refine, refine]
    apply Covers.ite
    · rw [Exhausted, Exhausted, List.length_map]
      rfl
    · exact .ok trials
    · apply Covers.ite Iff.rfl
      · exact ih flags peak cost trials
      · refine (attempt_covers h trials _).bind fun result => ?_
        obtain ⟨report, more⟩ := result
        apply Covers.ite
        · exact and_congr_left' (Nat.mul_lt_mul_left h.pos).symm
        · exact ih _ report.peak report.recomputeCost more
        · exact ih flags peak cost more

theorem ofChecked_covers {α β : Type} {f : α → β} {x : Checked α} {x' : Checked β}
    (h : Covers f x x') (trials more : List Trial) :
    Covers f (SearchStep.ofChecked trials x) (SearchStep.ofChecked more x') := by
  intro c hc
  obtain ⟨a, ha, hac⟩ := h c (ofChecked_eq_ok_iff.mp hc)
  exact ⟨a, ofChecked_eq_ok_iff.mpr ha, hac⟩

theorem greedy_covers (h : z.Scales g y k) (trials : List Trial) :
    Covers (List.map (Trial.scale k)) ((simulated g z b settings rule).greedy trials)
      ((simulated g y b settings rule).greedy (trials.map (Trial.scale k))) := by
  have hbest : (simulated g y b settings rule).budget.bestOf (trials.map (Trial.scale k)) =
      ((simulated g z b settings rule).budget.bestOf trials).map (Trial.scale k) :=
    b.bestOf_scale h.pos trials
  rw [greedy, greedy, hbest]
  cases (simulated g z b settings rule).budget.bestOf trials with
  | none => exact .ok trials
  | some best =>
    have horder := ofChecked_covers (candidates_covers h best.dropped) trials
      (trials.map (Trial.scale k))
    exact horder.bind fun order => refine_covers h order _ _ _ trials

theorem sweep_of_no_guesses {s : Search Op} (hnone : s.settings.guesses = 0)
    (trials : List Trial) : s.sweep trials = .ok trials := by
  unfold sweep
  split
  · rfl
  · rw [hnone]
    rfl

theorem select_covers (hk : 0 < k) (hlimit : b.memoryLimit = none) (report : Report)
    (trials : List Trial) :
    Covers (Selection.scale k)
      ((simulated g z b settings rule).select
        ((simulated g z b settings rule).baseline report) trials)
      ((simulated g y b settings rule).select
        ((simulated g y b settings rule).baseline (report.scale k))
        (trials.map (Trial.scale k))) := by
  have hsettled : (simulated g y b settings rule).settled (report.scale k)
      (trials.map (Trial.scale k)) =
      ((simulated g z b settings rule).settled report trials).scale k := by
    have hbest : (simulated g y b settings rule).budget.bestOf (trials.map (Trial.scale k)) =
        (b.bestOf trials).map (Trial.scale k) := b.bestOf_scale hk trials
    rw [settled, hbest]
    exact Option.getD_map (Trial.scale k) ((simulated g z b settings rule).baseline report) _
  rw [select_of_no_limit hlimit, select_of_no_limit hlimit, hsettled]
  exact .ok (Selection.mk _ _ trials)

theorem run_covers (h : z.Scales g y k) (hlimit : b.memoryLimit = none)
    (hnone : settings.guesses = 0) :
    Covers (Selection.scale k) (simulated g z b settings rule).run
      (simulated g y b settings rule).run := by
  refine (attempt_covers h [] _).bind fun result => ?_
  obtain ⟨report, trials⟩ := result
  change Covers _ ((simulated g z b settings rule).sweep trials >>= _)
    ((simulated g y b settings rule).sweep (trials.map (Trial.scale k)) >>= _)
  rw [sweep_of_no_guesses hnone, sweep_of_no_guesses hnone]
  exact (greedy_covers h trials).bind fun trials => select_covers h.pos hlimit report trials

/-- Without a memory limit a search by simulation fails at most by a fault. -/
theorem exists_of_not_faults (hlimit : b.memoryLimit = none)
    (h : ¬ (simulated g z b settings rule).run.Faults) :
    ∃ r, (simulated g z b settings rule).run = .ok r := by
  rcases (simulated g z b settings rule).run_cases with
    ⟨report, trials, -, hrun⟩ | ⟨stop, hrun, hbreaks⟩
  · rw [select_of_no_limit hlimit] at hrun
    exact ⟨_, hrun⟩
  · obtain ⟨f, hf⟩ := exists_fault_of_breaks hbreaks
    exact absurd ⟨f, stop.done, by rw [hrun, ← hf]⟩ h

theorem exists_run_of_no_guesses (h : z.Suits g) (hlimit : b.memoryLimit = none)
    (hnone : settings.guesses = 0) : ∃ r, (simulated g z b settings rule).run = .ok r := by
  have hreports : (simulated g z b settings rule).ReportsAll := h.exists_report
  obtain ⟨report, hreport⟩ := hreports (Array.replicate g.size false)
  have hbase : (simulated g z b settings rule).attempt [] (Array.replicate g.size false) =
      .ok (report, [(simulated g z b settings rule).baseline report]) :=
    attempt_eq_ok_iff.mpr ⟨report, hreport, rfl⟩
  obtain ⟨trials, htrials, -⟩ := (greedy_completes
    [(simulated g z b settings rule).baseline report] hreports h.bytes).exists_ok
  have hcourse : (simulated g z b settings rule).Course report _ trials :=
    ⟨hbase, sweep_of_no_guesses hnone _, htrials⟩
  exact ⟨_, hcourse.run_eq.trans (select_of_no_limit hlimit report trials)⟩

end Search

/-- What becomes of a graph's runs when all bytes are multiplied: unless a number at the second
sizing is no word, they take the course that they take at the first one. -/
structure Sizing.Homogeneous (g : Dataflow Op) (z y : Sizing) (k : Nat) : Prop where
  simulates : ∀ p : Plan, p.size = g.size → (∀ f, simulate g p y ≠ .error (.fault f)) →
    ∃ r, simulate g p z = .ok r ∧ simulate g p y = .ok (r.scale k)
  cuts : ∀ threshold, (∀ f, BlockPlan.make g y (k * threshold) ≠ .error f) →
    ∃ m, BlockPlan.make g z threshold = .ok m ∧
      BlockPlan.make g y (k * threshold) = .ok (m.scale k)
  plans : ∀ maxCost settings, settings.guesses = 0 →
    ¬ (planWith g y { maxCost := maxCost } settings).Faults →
    ∃ r, planWith g z { maxCost := maxCost } settings = .ok r ∧
      planWith g y { maxCost := maxCost } settings = .ok (r.scale k)

structure Sizing.Faultless (g : Dataflow Op) (y : Sizing) : Prop where
  simulates : ∀ flags, ∃ r, simulate g (.ofDropped g flags) y = .ok r
  cuts : ∀ threshold, ∃ m, BlockPlan.make g y threshold = .ok m
  plans : ∀ maxCost settings, settings.guesses = 0 →
    ∃ r, planWith g y { maxCost := maxCost } settings = .ok r

theorem Sizing.Scales.homogeneous (h : z.Scales g y k) : Sizing.Homogeneous g z y k := by
  constructor
  · intro p hsize hfaults
    cases hrun : simulate g p y with
    | error failure =>
      obtain ⟨f, rfl⟩ := exists_fault_of_simulate hsize hrun
      exact absurd hrun (hfaults f)
    | ok r =>
      obtain ⟨q, hq, rfl⟩ := simulate_covers h p r hrun
      exact ⟨q, hq, rfl⟩
  · intro threshold hfaults
    cases hmake : BlockPlan.make g y (k * threshold) with
    | error f => exact absurd hmake (hfaults f)
    | ok m =>
      obtain ⟨q, hq, rfl⟩ := BlockPlan.make_covers h threshold m hmake
      exact ⟨q, hq, rfl⟩
  · intro maxCost settings hnone hfaults
    obtain ⟨r, hr⟩ := Search.exists_of_not_faults rfl hfaults
    obtain ⟨q, hq, rfl⟩ := Search.run_covers h rfl hnone r hr
    exact ⟨q, hq, hr⟩

theorem Sizing.Suits.faultless (h : z.Suits g) : Sizing.Faultless g z where
  simulates := h.exists_report
  cuts threshold := BlockPlan.exists_make h.bytes h.total_lt threshold
  plans _ _ hnone := Search.exists_run_of_no_guesses h rfl hnone

/-- Every sizing is a multiple of the unit, in a graph whose outputs have an axis for the batch. -/
theorem Sizing.homogeneous_unit (g : Dataflow Op) (hrank : ∀ s ∈ g.steps, 1 ≤ s.shape.rank)
    {b : Nat} (hb : 1 ≤ b) (d : Element) :
    Homogeneous g ⟨1, .u8⟩ ⟨b, d⟩ (b * d.width) ∧
      ((⟨b, d⟩ : Sizing).Suits g → Faultless g ⟨b, d⟩) :=
  ⟨(scales_unit hrank hb d).homogeneous, fun h => h.faultless⟩

theorem Sizing.homogeneous_unit_unevenChain :
    (∀ s ∈ unevenChain.steps, 1 ≤ s.shape.rank) ∧ 1 ≤ 2 ∧ (⟨2, .f32⟩ : Sizing).Suits unevenChain ∧
      planWith unevenChain ⟨1, .u8⟩ { maxCost := 1 } { guesses := 0 } =
        .ok ⟨.ofDropped unevenChain #[false, true, false, false], ⟨4, 4, 4, 1⟩,
          [⟨#[false, false, false, false], ⟨6, 6, 6, 0⟩⟩,
            ⟨#[false, true, false, false], ⟨4, 4, 4, 1⟩⟩]⟩ ∧
      planWith unevenChain ⟨2, .f32⟩ { maxCost := 1 } { guesses := 0 } =
        .ok ⟨.ofDropped unevenChain #[false, true, false, false], ⟨32, 32, 32, 1⟩,
          [⟨#[false, false, false, false], ⟨48, 48, 48, 0⟩⟩,
            ⟨#[false, true, false, false], ⟨32, 32, 32, 1⟩⟩]⟩ := by
  have hrank : ∀ s ∈ unevenChain.steps, 1 ≤ s.shape.rank := by decide
  have hsuits : (⟨2, .f32⟩ : Sizing).Suits unevenChain :=
    Sizing.suits_of_pos (by decide +kernel) (by decide +kernel) (by decide +kernel)
  have hunit : planWith unevenChain ⟨1, .u8⟩ { maxCost := 1 } { guesses := 0 } =
      .ok ⟨.ofDropped unevenChain #[false, true, false, false], ⟨4, 4, 4, 1⟩,
        [⟨#[false, false, false, false], ⟨6, 6, 6, 0⟩⟩,
          ⟨#[false, true, false, false], ⟨4, 4, 4, 1⟩⟩]⟩ := by decide +kernel
  obtain ⟨hscales, hfaultless⟩ := homogeneous_unit unevenChain hrank (by decide : 1 ≤ 2) .f32
  obtain ⟨r, hr⟩ := (hfaultless hsuits).plans 1 { guesses := 0 } rfl
  have hfaults : ¬ (planWith unevenChain ⟨2, .f32⟩ { maxCost := 1 } { guesses := 0 }).Faults := by
    rintro ⟨f, done, hfault⟩
    cases hr.symm.trans hfault
  obtain ⟨q, hq, hscaled⟩ := hscales.plans 1 { guesses := 0 } rfl hfaults
  obtain rfl := Except.ok.inj (hq.symm.trans hunit)
  exact ⟨hrank, by decide, hsuits, hunit, hscaled⟩

end AndOrFlow
