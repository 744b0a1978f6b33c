import AndOrFlow.Proofs.Memory.Verdict
import Mathlib.Algebra.Order.Field.Rat

/-!
# The order in which outputs are dropped

Candidates are compared by cross products, which is to compare the ratios themselves; for words the
products have less than 128 bits. Equal ratios are told apart by the step, so the candidates of a
graph have one order only, and the greedy phase goes through them in this order.
-/
namespace AndOrFlow

namespace Candidate

variable {a b c : Candidate} {order other : List Candidate}

def Fits (c : Candidate) : Prop := c.bytes < Word.limit ∧ c.cost < Word.limit

/-- Bytes per cost, where every cost counts one more than it is. -/
def ratio (c : Candidate) : ℚ := c.bytes / (c.cost + 1)

/-- A cross product computed in 128 bits. -/
def wideProduct (a b : Candidate) : BitVec 128 :=
  BitVec.ofNat 128 a.bytes * (BitVec.ofNat 128 b.cost + 1)

/-- Decreasing ratio, then increasing step. -/
def compareRank (a b : Candidate) : Ordering :=
  (compareRatio b a).then (compare a.step b.step)

/-- The first has the greater ratio, or the same and the smaller step. -/
def Precedes (a b : Candidate) : Prop := b.ratio < a.ratio ∨ a.ratio = b.ratio ∧ a.step < b.step

theorem product_lt (ha : a.Fits) (hb : b.Fits) : a.bytes * (b.cost + 1) < 2 ^ 128 := by
  have hle : a.bytes * (b.cost + 1) ≤ a.bytes * Word.limit := Nat.mul_le_mul_left _ hb.2
  have hlt : a.bytes * Word.limit < Word.limit * Word.limit :=
    Nat.mul_lt_mul_of_pos_right ha.1 (by decide)
  have hlimit : Word.limit * Word.limit = 2 ^ 128 := by decide
  omega

theorem toNat_wideProduct (ha : a.Fits) (hb : b.Fits) :
    (a.wideProduct b).toNat = a.bytes * (b.cost + 1) := by
  have hbytes : a.bytes < 2 ^ 128 := Nat.lt_trans ha.1 (by decide)
  have hcost : b.cost + 1 < 2 ^ 128 := Nat.lt_of_le_of_lt hb.2 (by decide)
  have hsum : (BitVec.ofNat 128 b.cost + 1).toNat = b.cost + 1 := by
    rw [BitVec.toNat_add, BitVec.toNat_ofNat, Nat.mod_eq_of_lt (Nat.lt_of_succ_lt hcost)]
    exact Nat.mod_eq_of_lt hcost
  rw [wideProduct, BitVec.toNat_mul, BitVec.toNat_ofNat, Nat.mod_eq_of_lt hbytes, hsum,
    Nat.mod_eq_of_lt (product_lt ha hb)]

theorem compareRatio_eq (a b : Candidate) : compareRatio a b = compare a.ratio b.ratio := by
  have ha : (0 : ℚ) < a.cost + 1 := Nat.cast_add_one_pos a.cost
  have hb : (0 : ℚ) < b.cost + 1 := Nat.cast_add_one_pos b.cost
  have hlt : a.bytes * (b.cost + 1) < b.bytes * (a.cost + 1) ↔ a.ratio < b.ratio := by
    rw [ratio, ratio, div_lt_div_iff₀ ha hb]
    exact_mod_cast Iff.rfl
  have heq : a.bytes * (b.cost + 1) = b.bytes * (a.cost + 1) ↔ a.ratio = b.ratio := by
    rw [ratio, ratio, div_eq_div_iff ha.ne' hb.ne']
    exact_mod_cast Iff.rfl
  rw [compareRatio, LinearOrder.compare_eq_compareOfLessAndEq,
    LinearOrder.compare_eq_compareOfLessAndEq]
  simp only [compareOfLessAndEq, hlt, heq]

theorem compareRank_eq_lt : a.compareRank b = .lt ↔ a.Precedes b := by
  rw [compareRank, Ordering.then_eq_lt, compareRatio_eq, compare_lt_iff_lt, compare_eq_iff_eq,
    compare_lt_iff_lt, Precedes, eq_comm]

theorem compareRank_eq_gt : a.compareRank b = .gt ↔ b.Precedes a := by
  rw [compareRank, Ordering.then_eq_gt, compareRatio_eq, compare_gt_iff_gt, compare_eq_iff_eq,
    compare_gt_iff_gt, Precedes]

theorem compareRank_eq_eq : a.compareRank b = .eq ↔ a.ratio = b.ratio ∧ a.step = b.step := by
  rw [compareRank, Ordering.then_eq_eq, compareRatio_eq, compare_eq_iff_eq, compare_eq_iff_eq,
    eq_comm]

theorem before_iff : before a b = true ↔
    b.ratio < a.ratio ∨ a.ratio = b.ratio ∧ a.step ≤ b.step := by
  have hbefore : before a b = (a.compareRank b).isLE := rfl
  rw [hbefore, Ordering.isLE_iff_eq_lt_or_eq_eq, compareRank_eq_lt, compareRank_eq_eq, Precedes,
    Nat.le_iff_lt_or_eq]
  grind

theorem before_total (a b : Candidate) : before a b = true ∨ before b a = true := by
  rw [before_iff, before_iff]
  rcases lt_trichotomy a.ratio b.ratio with hlt | heq | hgt
  · exact Or.inr (Or.inl hlt)
  · exact (Nat.le_total a.step b.step).imp (fun hle => Or.inr ⟨heq, hle⟩)
      fun hle => Or.inr ⟨heq.symm, hle⟩
  · exact Or.inl (Or.inl hgt)

theorem before_trans (a b c : Candidate) (hab : before a b = true) (hbc : before b c = true) :
    before a c = true := by
  rw [before_iff] at *
  rcases hab with hlt | ⟨heq, hle⟩
  · exact Or.inl (hbc.elim (fun h => h.trans hlt) fun h => h.1 ▸ hlt)
  · rcases hbc with hlt | ⟨heq', hle'⟩
    · exact Or.inl (heq ▸ hlt)
    · exact Or.inr ⟨heq.trans heq', hle.trans hle'⟩

theorem Precedes.irrefl (a : Candidate) : ¬ a.Precedes a := by
  rintro (hlt | ⟨-, hlt⟩)
  · exact lt_irrefl _ hlt
  · exact Nat.lt_irrefl _ hlt

theorem Precedes.trans (hab : a.Precedes b) (hbc : b.Precedes c) : a.Precedes c := by
  rcases hab with hlt | ⟨heq, hless⟩
  · exact Or.inl (hbc.elim (fun h => h.trans hlt) fun h => h.1 ▸ hlt)
  · rcases hbc with hlt | ⟨heq', hless'⟩
    · exact Or.inl (heq ▸ hlt)
    · exact Or.inr ⟨heq.trans heq', hless.trans hless'⟩

theorem Precedes.of_before (h : before a b = true) (hne : a.step ≠ b.step) : a.Precedes b :=
  (before_iff.mp h).imp_right fun h => ⟨h.1, Nat.lt_of_le_of_ne h.2 hne⟩

theorem Precedes.total (hne : a.step ≠ b.step) : a.Precedes b ∨ b.Precedes a :=
  (before_total a b).imp (fun h => .of_before h hne) fun h => .of_before h hne.symm

theorem nodup_of_precedes (h : order.Pairwise Precedes) : order.Nodup := by
  refine h.imp fun {a b} hab heq => ?_
  rw [heq] at hab
  exact Precedes.irrefl b hab

theorem eq_of_precedes (h : order.Pairwise Precedes) (h' : other.Pairwise Precedes)
    (hmem : ∀ c, c ∈ other ↔ c ∈ order) : other = order := by
  have hperm := (List.perm_ext_iff_of_nodup (nodup_of_precedes h') (nodup_of_precedes h)).mpr hmem
  refine hperm.eq_of_pairwise (fun a b _ _ hab hba => ?_) h' h
  exact absurd (hab.trans hba) (Precedes.irrefl a)

end Candidate

variable {Op : Type} {g : Dataflow Op} {z : Sizing} {flags : DropFlags} {order : List Candidate}
  {c : Candidate}

/-- The candidate for a step that the flags retain and that does not yield the graph output. -/
def Candidate.Eligible (g : Dataflow Op) (z : Sizing) (flags : DropFlags) (c : Candidate) : Prop :=
  ∃ s, g.step? c.step = some s ∧ flags[c.step]? ≠ some true ∧ g.output? ≠ some c.step ∧
    z.bytes s.shape = .ok c.bytes ∧ s.cost = c.cost

theorem mem_candidates (h : candidates g z flags = .ok order) :
    c ∈ order ↔ c.Eligible g z flags := by
  obtain ⟨found, hfound, h⟩ := bind_eq_ok_iff.mp h
  obtain rfl := Except.ok.inj h
  rw [Sorting.mem_sort, mem_iff_of_mapM_eq_ok hfound]
  simp only [List.mem_filter, Prod.exists, List.mk_mem_zipIdx_iff_getElem?, Array.getElem?_toList,
    decide_eq_true_eq, bind_eq_ok_iff, Candidate.Eligible, Dataflow.step?]
  constructor
  · rintro ⟨s, i, ⟨hs, hkept⟩, bytes, hbytes, hc⟩
    obtain rfl := Except.ok.inj hc
    exact ⟨s, hs, hkept.1, hkept.2, hbytes, rfl⟩
  · rintro ⟨s, hs, hretained, hinner, hbytes, hcost⟩
    refine ⟨s, c.step, ⟨hs, hretained, hinner⟩, c.bytes, hbytes, ?_⟩
    rw [hcost]
    rfl

theorem pairwise_candidates (hsize : flags.size = g.size) (h : candidates g z flags = .ok order) :
    order.Pairwise Candidate.Precedes := by
  have hsteps := List.pairwise_map.mp (candidates_remaining hsize h).nodup
  obtain ⟨found, -, h⟩ := bind_eq_ok_iff.mp h
  obtain rfl := Except.ok.inj h
  have hsorted := Sorting.pairwise_sort Candidate.before_total Candidate.before_trans found
  exact (hsorted.and hsteps).imp fun h => .of_before h.1 h.2

namespace Candidate

/-- The plan drops the candidate and retains all that come after it. -/
def TriedAt (order : List Candidate) (c : Candidate) (t : DropFlags) : Prop :=
  ∃ earlier later, order = earlier ++ c :: later ∧ t[c.step]? = some true ∧
    ∀ d ∈ later, t[d.step]? ≠ some true

variable {rest : List Candidate} {t : DropFlags}

theorem TriedAt.cons (h : TriedAt rest c t) (first : Candidate) : TriedAt (first :: rest) c t := by
  obtain ⟨earlier, later, rfl, hdropped, hretained⟩ := h
  exact ⟨first :: earlier, later, rfl, hdropped, hretained⟩

theorem Remaining.triedAt (h : Remaining g (c :: rest) flags) :
    TriedAt (c :: rest) c (flags.setIfInBounds c.step true) := by
  refine ⟨[], rest, rfl, ?_, fun d hd => (h.drop.droppable d hd).retained⟩
  have hlt : c.step < flags.size := h.size_eq ▸ (h.droppable c (List.mem_cons_self ..)).lt_size
  rw [Array.getElem?_setIfInBounds, if_pos rfl, if_pos hlt]

structure ComparedExactly (a b : Candidate) : Prop where
  /-- In 128 bits nothing overflows. -/
  product_lt : a.Fits → b.Fits → b.cost + 1 < 2 ^ 128 ∧ a.bytes * (b.cost + 1) < 2 ^ 128
  wide_eq : a.Fits → b.Fits →
    compare (a.wideProduct b).toNat (b.wideProduct a).toNat = compareRatio a b
  ratio_eq : compareRatio a b = compare a.ratio b.ratio
  before_eq : before a b = (a.compareRank b).isLE
  lt_iff : compareRank a b = .lt ↔ a.Precedes b
  gt_iff : compareRank a b = .gt ↔ b.Precedes a
  step_eq : compareRank a b = .eq → a.step = b.step

theorem comparedExactly (a b : Candidate) : a.ComparedExactly b where
  product_lt ha hb := ⟨Nat.lt_of_le_of_lt hb.2 (by decide), product_lt ha hb⟩
  wide_eq ha hb := by rw [toNat_wideProduct ha hb, toNat_wideProduct hb ha, compareRatio]
  ratio_eq := compareRatio_eq a b
  before_eq := rfl
  lt_iff := compareRank_eq_lt
  gt_iff := compareRank_eq_gt
  step_eq h := (compareRank_eq_eq.mp h).2

/-- The candidates of a graph by decreasing ratio, equal ratios by increasing step. -/
structure Ranked (g : Dataflow Op) (z : Sizing) (flags : DropFlags) (order : List Candidate) :
    Prop where
  mem_iff : ∀ c, c ∈ order ↔ c.Eligible g z flags
  pairwise : order.Pairwise Precedes
  /-- There is no other order. -/
  unique : ∀ other : List Candidate, other.Pairwise Precedes →
    (∀ c, c ∈ other ↔ c.Eligible g z flags) → other = order

theorem ranked_candidates (hsize : flags.size = g.size) (h : candidates g z flags = .ok order) :
    Ranked g z flags order where
  mem_iff _ := mem_candidates h
  pairwise := pairwise_candidates hsize h
  unique other hother hsame := by
    apply eq_of_precedes (pairwise_candidates hsize h) hother
    intro c
    rw [hsame c, mem_candidates h]

end Candidate

namespace Search

/-- A cost that the greedy phase knows of: that of the plan it set out from, or one reported for a
plan that it tried. -/
def Knows (s : Search Op) (cost : Nat) (tried : List DropFlags) (spent : Nat) : Prop :=
  spent = cost ∨
    ∃ t ∈ tried, ∃ report, s.evaluate (.ofDropped s.flow t) = .ok report ∧
      report.recomputeCost = spent

/-- The turns of the candidates: those that were `taken` up, one after the other, and those of them
that were `visited` with an evaluation. -/
structure Turns (s : Search Op) (order : List Candidate) (cost : Nat) (trials : List Trial)
    (tried : List DropFlags) (taken visited : List Candidate) : Prop where
  begins : taken <+: order
  /-- None is left, or the trials have run out, or the last evaluation failed. -/
  ended : taken = order ∨ s.maxTrials ≤ trials.length + tried.length ∨
    ∃ t ∈ tried.getLast?, ∃ failure, s.evaluate (.ofDropped s.flow t) = .error failure
  sublist : visited.Sublist taken
  tried_at : List.Forall₂ (Candidate.TriedAt order) visited tried
  /-- Only a cost that is too high keeps a candidate from being tried. -/
  passed : ∀ c ∈ taken, c ∈ visited ∨ ∃ spent, s.Knows cost tried spent ∧
    ¬ s.budget.AdmitsCost (Word.addClamped spent c.cost)

variable {s : Search Op} {rest taken visited : List Candidate} {cost known : Nat}
  {trials : List Trial} {tried : List DropFlags} {t : DropFlags} {report : Report}

theorem Knows.cons (hknown : known = cost ∨ known = report.recomputeCost)
    (heval : s.evaluate (.ofDropped s.flow t) = .ok report) {spent : Nat}
    (h : s.Knows known tried spent) : s.Knows cost (t :: tried) spent := by
  rcases h with rfl | ⟨u, hu, hreport⟩
  · exact hknown.imp_right fun heq => ⟨t, List.mem_cons_self .., report, heval, heq.symm⟩
  · exact Or.inr ⟨u, List.mem_cons_of_mem _ hu, hreport⟩

theorem Turns.pass (h : s.Turns rest cost trials tried taken visited)
    (hcost : ¬ s.budget.AdmitsCost (Word.addClamped cost c.cost)) :
    s.Turns (c :: rest) cost trials tried (c :: taken) visited where
  begins := (List.prefix_cons_inj c).mpr h.begins
  ended := h.ended.imp_left (congrArg (c :: ·))
  sublist := h.sublist.cons c
  tried_at := h.tried_at.imp fun _ _ h => h.cons c
  passed := List.forall_mem_cons.mpr ⟨Or.inr ⟨cost, Or.inl rfl, hcost⟩, h.passed⟩

theorem Turns.take (h : s.Turns rest known (trials ++ [⟨t, report⟩]) tried taken visited)
    (hknown : known = cost ∨ known = report.recomputeCost)
    (heval : s.evaluate (.ofDropped s.flow t) = .ok report)
    (ht : Candidate.TriedAt (c :: rest) c t) :
    s.Turns (c :: rest) cost trials (t :: tried) (c :: taken) (c :: visited) where
  begins := (List.prefix_cons_inj c).mpr h.begins
  ended := by
    rcases h.ended with heq | hlength | ⟨u, hu, hfails⟩
    · exact Or.inl (congrArg (c :: ·) heq)
    · rw [List.length_append, List.length_singleton, Nat.add_right_comm] at hlength
      exact Or.inr (Or.inl hlength)
    · refine Or.inr (Or.inr ⟨u, ?_, hfails⟩)
      rw [List.getLast?_cons, hu]
      rfl
  sublist := h.sublist.cons_cons c
  tried_at := .cons ht (h.tried_at.imp fun _ _ h => h.cons c)
  passed := by
    refine List.forall_mem_cons.mpr ⟨Or.inl (List.mem_cons_self ..), fun d hd => ?_⟩
    rcases h.passed d hd with hvisited | ⟨spent, hspent, hhigh⟩
    · exact Or.inl (List.mem_cons_of_mem _ hvisited)
    · exact Or.inr ⟨spent, hspent.cons hknown heval, hhigh⟩

theorem GoneThrough.exists_turns (h : s.GoneThrough order flags cost trials tried)
    (hleft : Candidate.Remaining s.flow order flags) :
    ∃ taken visited, s.Turns order cost trials tried taken visited := by
  induction h with
  | finished => exact ⟨[], [], List.prefix_rfl, Or.inl rfl, .slnil, .nil, by simp⟩
  | exhausted order flags cost hroom =>
    exact ⟨[], [], order.nil_prefix, Or.inr (Or.inl hroom), .slnil, .nil, by simp⟩
  | passed hcost _ ih =>
    obtain ⟨taken, visited, hturns⟩ := ih hleft.skip
    exact ⟨_, visited, hturns.pass hcost⟩
  | @failed c rest flags _ _ failure heval =>
    refine ⟨[c], [c], ⟨rest, rfl⟩, Or.inr (Or.inr ⟨_, rfl, failure, heval⟩), List.Sublist.refl _,
      .cons hleft.triedAt .nil, fun d hd => Or.inl hd⟩
  | dropped heval _ ih =>
    obtain ⟨taken, visited, hturns⟩ := ih hleft.drop
    exact ⟨_, _, hturns.take (Or.inr rfl) heval hleft.triedAt⟩
  | retained heval _ ih =>
    obtain ⟨taken, visited, hturns⟩ := ih hleft.skip
    exact ⟨_, _, hturns.take (Or.inl rfl) heval hleft.triedAt⟩

structure TakesInOrder (s : Search Op) (swept : List Trial) : Prop where
  compared : ∀ a b : Candidate, a.ComparedExactly b
  /-- What is compared is a strict order, and total on candidates for different steps. -/
  irrefl : ∀ a : Candidate, ¬ a.Precedes a
  trans : ∀ a b c : Candidate, a.Precedes b → b.Precedes c → a.Precedes c
  total : ∀ a b : Candidate, a.step ≠ b.step → a.Precedes b ∨ b.Precedes a
  exists_order : ∀ flags, (∀ st ∈ s.flow.steps, ∃ n, s.sizing.bytes st.shape = .ok n) →
    ∃ order, candidates s.flow s.sizing flags = .ok order
  ranked : ∀ best order, s.budget.bestOf swept = some best →
    candidates s.flow s.sizing best.dropped = .ok order →
      Candidate.Ranked s.flow s.sizing best.dropped order
  /-- The candidates have their turns in this order. -/
  turns : ∀ best order, s.budget.bestOf swept = some best →
    candidates s.flow s.sizing best.dropped = .ok order →
      ∃ tried taken visited, (s.greedy swept).called = swept.map Trial.dropped ++ tried ∧
        s.Turns order best.report.recomputeCost swept tried taken visited

end Search

/-- The greedy phase goes through the candidates in the one order of their ratios. -/
theorem greedy_takesInOrder (s : Search Op) (swept : List Trial)
    (hsize : ∀ t ∈ swept, t.dropped.size = s.flow.size) : s.TakesInOrder swept where
  compared := Candidate.comparedExactly
  irrefl := Candidate.Precedes.irrefl
  trans _ _ _ := Candidate.Precedes.trans
  total _ _ := Candidate.Precedes.total
  exists_order := exists_candidates
  ranked best order hbest horder :=
    Candidate.ranked_candidates (hsize best (Budget.mem_of_bestOf hbest).1) horder
  turns best order hbest horder := by
    have hleft := candidates_remaining (hsize best (Budget.mem_of_bestOf hbest).1) horder
    obtain ⟨tried, hcalled, hthrough⟩ := s.refine_goneThrough order best.dropped
      best.report.peak best.report.recomputeCost swept
    obtain ⟨taken, visited, hturns⟩ := hthrough.exists_turns hleft
    refine ⟨tried, taken, visited, ?_, hturns⟩
    rw [Search.greedy, hbest, ← hcalled]
    simp only [horder]
    rfl

/-- A search that may spend two on replays, by an evaluator that counts them. -/
def chainSearch : Search Unit :=
  ⟨unevenChain, ⟨1, .u8⟩, { maxCost := 2 }, {}, .standard, fun p => .ok (countDropped p)⟩

/-- The larger output is dropped first, then the earlier of two equal ones. -/
theorem greedy_takesInOrder_unevenChain :
    let start : Trial := ⟨#[false, false, false, false], ⟨6, 6, 6, 0⟩⟩
    (∀ t ∈ [start], t.dropped.size = chainSearch.flow.size) ∧
      Candidate.Ranked unevenChain ⟨1, .u8⟩ start.dropped [⟨2, 1, 1⟩, ⟨1, 1, 0⟩, ⟨1, 1, 2⟩] ∧
      (chainSearch.greedy [start]).called =
        [start.dropped, #[false, true, false, false], #[true, true, false, false]] := by
  intro start
  have hsize : ∀ t ∈ [start], t.dropped.size = chainSearch.flow.size := by decide
  have horder : candidates unevenChain ⟨1, .u8⟩ start.dropped =
      .ok [⟨2, 1, 1⟩, ⟨1, 1, 0⟩, ⟨1, 1, 2⟩] := by decide +kernel
  have hbest : chainSearch.budget.bestOf [start] = some start := by decide +kernel
  have h := greedy_takesInOrder chainSearch [start] hsize
  exact ⟨hsize, h.ranked start _ hbest horder, by decide +kernel⟩

end AndOrFlow
