import AndOrFlow.Proofs.Memory.Replay

/-!
# The course of a simulation

A simulation changes its memory at moments that can be named: before and within every step of either
pass. The memory at a moment is what the passes have computed up to there, and every moment follows
from the one before it by one operation.
-/
namespace AndOrFlow

/-- A moment in the course of a simulation. -/
inductive Moment where
  /-- Before step `i` of the forward pass. -/
  | before (i : Nat)
  /-- Within step `i` of the forward pass: it has run and `k` of its operands are released. -/
  | ran (i k : Nat)
  /-- In the backward pass, with the steps from `i` on behind it. -/
  | after (i : Nat)
  /-- Within step `i` of the backward pass: `k` of the outputs that it needs are supplied. -/
  | supplied (i k : Nat)
  /-- Within the supply of output `k`: `q` entries of its replay list are behind. -/
  | replayed (i k q : Nat)

/-- The steps below this number, and only these, have run forward and not yet backward. -/
def Moment.reach : Moment → Nat
  | before i => i
  | ran i _ => i + 1
  | after i => i
  | supplied i _ => i + 1
  | replayed i _ _ => i + 1

namespace Workload

variable {w : Workload} {p : Plan} {i j k q r v : Nat}

/-- The outputs that step `i` of the backward pass needs: its own and those that it reads. -/
def needs (w : Workload) (i : Nat) : List Nat := i :: w.operandsOf i

/-- Runs the first `q` entries of the replay list of `v`, unless its output is in memory. -/
def supplyPart (w : Workload) (p : Plan) (v q : Nat) (m : Memory) : Checked Memory :=
  if m.Holds v then .ok m else ((p.replayAt v).take q).foldlM w.rerun m

/-- The memory at a moment, if the simulation gets there. -/
def memoryAt (w : Workload) (p : Plan) : Moment → Checked Memory
  | .before i => (List.range i).foldlM (w.forwardStep p) (.empty w.size)
  | .ran i k => do
    let m ← (List.range i).foldlM (w.forwardStep p) (.empty w.size)
    let m ← m.alloc w.bytes i
    ((w.operandsOf i).take k).foldlM (w.release p i) m.observe
  | .after i => do
    let m ← w.forward p
    (List.range' i (w.size - i)).reverse.foldlM (w.backwardStep p) { m with peak := 0 }
  | .supplied i k => do
    let m ← w.forward p
    let m ← (List.range' (i + 1) (w.size - (i + 1))).reverse.foldlM (w.backwardStep p)
      { m with peak := 0 }
    ((w.needs i).take k).foldlM (w.supply p) m
  | .replayed i k q => do
    let m ← w.forward p
    let m ← (List.range' (i + 1) (w.size - (i + 1))).reverse.foldlM (w.backwardStep p)
      { m with peak := 0 }
    let m ← ((w.needs i).take k).foldlM (w.supply p) m
    ((w.needs i)[k]?).elim (.ok m) fun v => w.supplyPart p v q m

/-- The moments that a simulation passes through. -/
def Passes (w : Workload) (p : Plan) : Moment → Prop
  | .before i => i ≤ w.size
  | .ran i k => i < w.size ∧ k ≤ (w.operandsOf i).length
  | .after i => i ≤ w.size
  | .supplied i k => i < w.size ∧ k ≤ (w.needs i).length
  | .replayed i k q => i < w.size ∧ ∃ v, (w.needs i)[k]? = some v ∧ q ≤ (p.replayAt v).length

theorem foldlM_take_succ {α β : Type} {f : β → α → Checked β} {xs : List α} {x : α}
    (h : xs[k]? = some x) (b : β) :
    (xs.take (k + 1)).foldlM f b = (xs.take k).foldlM f b >>= fun c => f c x := by
  rw [List.take_add_one, h, List.foldlM_append]
  simp

theorem memoryAt_before_zero : w.memoryAt p (.before 0) = .ok (.empty w.size) := rfl

theorem memoryAt_ran_zero :
    w.memoryAt p (.ran i 0) = do
      let m ← w.memoryAt p (.before i)
      let m ← m.alloc w.bytes i
      return m.observe := rfl

theorem memoryAt_ran_succ (h : (w.operandsOf i)[k]? = some j) :
    w.memoryAt p (.ran i (k + 1)) =
      w.memoryAt p (.ran i k) >>= fun m => w.release p i m j := by
  simp only [memoryAt, foldlM_take_succ h, bind_assoc]

theorem memoryAt_before_succ :
    w.memoryAt p (.before (i + 1)) =
      w.memoryAt p (.ran i (w.operandsOf i).length) >>= fun m =>
        if p.isDropped i ∧ w.lastReaderOf i = none then m.free w.bytes i else .ok m := by
  simp only [memoryAt, List.range_succ, List.foldlM_append, List.foldlM_cons, List.foldlM_nil,
    List.take_length, bind_assoc, bind_pure]
  rfl

theorem memoryAt_after_size :
    w.memoryAt p (.after w.size) = do
      let m ← w.memoryAt p (.before w.size)
      return { m with peak := 0 } := by
  simp only [memoryAt, Nat.sub_self, List.range'_zero, List.reverse_nil, List.foldlM_nil]
  rfl

theorem memoryAt_supplied_zero :
    w.memoryAt p (.supplied i 0) = w.memoryAt p (.after (i + 1)) := by
  simp only [memoryAt, List.take_zero, List.foldlM_nil, bind_pure]

theorem memoryAt_supplied_succ (h : (w.needs i)[k]? = some v) :
    w.memoryAt p (.supplied i (k + 1)) =
      w.memoryAt p (.supplied i k) >>= fun m => w.supply p m v := by
  simp only [memoryAt, foldlM_take_succ h, bind_assoc]

theorem memoryAt_after (h : i < w.size) :
    w.memoryAt p (.after i) =
      w.memoryAt p (.supplied i (w.needs i).length) >>= fun m => m.observe.free w.bytes i := by
  have hrange : List.range' i (w.size - i) = i :: List.range' (i + 1) (w.size - (i + 1)) := by
    rw [← List.range'_succ]
    congr 1
    omega
  simp only [memoryAt, hrange, List.reverse_cons, List.foldlM_append, List.foldlM_cons,
    List.foldlM_nil, List.take_length, bind_assoc, bind_pure]
  rfl

theorem memoryAt_replayed (h : (w.needs i)[k]? = some v) :
    w.memoryAt p (.replayed i k q) =
      w.memoryAt p (.supplied i k) >>= w.supplyPart p v q := by
  simp only [memoryAt, h, Option.elim_some, bind_assoc]

theorem supplyPart_length {m : Memory} :
    w.supplyPart p v (p.replayAt v).length m = w.supply p m v := by
  rw [supplyPart, List.take_length]
  rfl

theorem supplyPart_zero {m : Memory} : w.supplyPart p v 0 m = .ok m := ite_self _

theorem supplyPart_succ {m : Memory} (hr : (p.replayAt v)[q]? = some r) (hv : ¬ m.Holds v) :
    w.supplyPart p v (q + 1) m = w.supplyPart p v q m >>= fun n => w.rerun n r := by
  rw [supplyPart, supplyPart, if_neg hv, if_neg hv]
  exact foldlM_take_succ hr m

theorem memoryAt_replayed_length (h : (w.needs i)[k]? = some v) :
    w.memoryAt p (.replayed i k (p.replayAt v).length) = w.memoryAt p (.supplied i (k + 1)) := by
  rw [memoryAt_replayed h, memoryAt_supplied_succ h]
  exact congrArg _ (funext fun _ => supplyPart_length)

theorem memoryAt_before_step :
    w.memoryAt p (.before (i + 1)) =
      w.memoryAt p (.before i) >>= fun m => w.forwardStep p m i := by
  simp only [memoryAt, List.range_succ, List.foldlM_append, List.foldlM_cons, List.foldlM_nil,
    bind_pure]

theorem memoryAt_after_step (h : i < w.size) :
    w.memoryAt p (.after i) =
      w.memoryAt p (.after (i + 1)) >>= fun m => w.backwardStep p m i := by
  rw [memoryAt_after h, ← memoryAt_supplied_zero]
  simp only [memoryAt, List.take_zero, List.foldlM_nil, List.take_length, bind_pure, bind_assoc]
  rfl

/-- The two passes of a simulation end with the last moments of their kind. -/
theorem run_eq_memoryAt :
    w.run p = do
      let m ← w.memoryAt p (.before w.size)
      let n ← w.memoryAt p (.after 0)
      return ⟨m.peak, n.peak, max m.peak n.peak, n.cost⟩ := by
  have hbackward : w.memoryAt p (.after 0) = w.forward p >>= w.backward p := by
    simp only [memoryAt, Nat.sub_zero, ← List.range_eq_range']
    rfl
  rw [hbackward]
  show (do let m ← w.forward p; _) = (do let m ← w.forward p; _)
  cases w.forward p <;> rfl

/-- The moments are those of the passes. Each one follows from another by a single operation, and
those of a step add up to the step of its pass. -/
structure StepByStep (w : Workload) (p : Plan) : Prop where
  first : w.memoryAt p (.before 0) = .ok (.empty w.size)
  forward : ∀ i, w.memoryAt p (.before (i + 1)) =
    w.memoryAt p (.before i) >>= fun m => w.forwardStep p m i
  runs : ∀ i, w.memoryAt p (.ran i 0) = do
    let m ← w.memoryAt p (.before i)
    let m ← m.alloc w.bytes i
    return m.observe
  releases : ∀ i k j, (w.operandsOf i)[k]? = some j →
    w.memoryAt p (.ran i (k + 1)) = w.memoryAt p (.ran i k) >>= fun m => w.release p i m j
  leaves : ∀ i, w.memoryAt p (.before (i + 1)) =
    w.memoryAt p (.ran i (w.operandsOf i).length) >>= fun m =>
      if p.isDropped i ∧ w.lastReaderOf i = none then m.free w.bytes i else .ok m
  turns : w.memoryAt p (.after w.size) = do
    let m ← w.memoryAt p (.before w.size)
    return { m with peak := 0 }
  backward : ∀ i < w.size, w.memoryAt p (.after i) =
    w.memoryAt p (.after (i + 1)) >>= fun m => w.backwardStep p m i
  asks : ∀ i, w.memoryAt p (.supplied i 0) = w.memoryAt p (.after (i + 1))
  supplies : ∀ i k v, (w.needs i)[k]? = some v →
    w.memoryAt p (.supplied i (k + 1)) = w.memoryAt p (.supplied i k) >>= fun m => w.supply p m v
  /-- An output in memory is not rebuilt. -/
  skips : ∀ i k v q m, (w.needs i)[k]? = some v → w.memoryAt p (.supplied i k) = .ok m →
    m.Holds v → w.memoryAt p (.replayed i k q) = .ok m
  replays : ∀ i k v q r m, (w.needs i)[k]? = some v → (p.replayAt v)[q]? = some r →
    w.memoryAt p (.supplied i k) = .ok m → ¬ m.Holds v →
    w.memoryAt p (.replayed i k (q + 1)) = w.memoryAt p (.replayed i k q) >>= fun n => w.rerun n r
  starts : ∀ i k v, (w.needs i)[k]? = some v →
    w.memoryAt p (.replayed i k 0) = w.memoryAt p (.supplied i k)
  rebuilds : ∀ i k v, (w.needs i)[k]? = some v →
    w.memoryAt p (.replayed i k (p.replayAt v).length) = w.memoryAt p (.supplied i (k + 1))
  ends : ∀ i < w.size, w.memoryAt p (.after i) =
    w.memoryAt p (.supplied i (w.needs i).length) >>= fun m => m.observe.free w.bytes i

theorem stepByStep (w : Workload) (p : Plan) : w.StepByStep p where
  first := memoryAt_before_zero
  forward _ := memoryAt_before_step
  runs _ := memoryAt_ran_zero
  releases _ _ _ h := memoryAt_ran_succ h
  leaves _ := memoryAt_before_succ
  turns := memoryAt_after_size
  backward _ h := memoryAt_after_step h
  asks _ := memoryAt_supplied_zero
  supplies _ _ _ h := memoryAt_supplied_succ h
  skips i k v q m hv hm hholds := by
    rw [memoryAt_replayed hv, hm]
    exact if_pos hholds
  replays i k v q r m hv hr hm hnot := by
    rw [memoryAt_replayed hv, memoryAt_replayed hv, hm]
    exact supplyPart_succ hr hnot
  starts i k v hv := by
    rw [memoryAt_replayed hv]
    exact (congrArg _ (funext fun _ => supplyPart_zero)).trans (bind_pure _)
  rebuilds _ _ _ h := memoryAt_replayed_length h
  ends _ h := memoryAt_after h

end Workload
end AndOrFlow
