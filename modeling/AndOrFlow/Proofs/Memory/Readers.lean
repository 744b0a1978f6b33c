import AndOrFlow.Proofs.Memory.Replay
import AndOrFlow.Proofs.Outcome

/-!
# Last readers

The columns of a transpose are ascending, so the last entry of a column is its greatest. What a
workload calls the last reader of a step is the last step to read it.
-/
namespace AndOrFlow

theorem getLast?_eq_some_iff_greatest {xs : List Nat} (h : xs.Pairwise (· ≤ ·)) {i : Nat} :
    xs.getLast? = some i ↔ i ∈ xs ∧ ∀ c ∈ xs, c ≤ i := by
  have hgreatest : ∀ last, xs.getLast? = some last → ∀ c ∈ xs, c ≤ last := by
    intro last hlast c hc
    obtain ⟨front, rfl⟩ := List.getLast?_eq_some_iff.mp hlast
    rcases List.mem_append.mp hc with hc | hc
    · exact (List.pairwise_append.mp h).2.2 c hc last (by simp)
    · exact Nat.le_of_eq (List.mem_singleton.mp hc)
  constructor
  · exact fun hi => ⟨List.mem_of_getLast? hi, hgreatest i hi⟩
  · rintro ⟨hi, hle⟩
    cases hlast : xs.getLast? with
    | none => simp [List.getLast?_eq_none_iff.mp hlast] at hi
    | some last =>
      have hup := hgreatest last hlast i hi
      have hdown := hle last (List.mem_of_getLast? hlast)
      exact congrArg some (Nat.le_antisymm hdown hup)

variable {Op : Type} {g : Dataflow Op} {z : Sizing} {w : Workload} {i j c : Nat}

/-- A workload that tells of a graph what it reads, when, and at which cost. -/
structure Workload.Describes (w : Workload) (g : Dataflow Op) : Prop where
  size_eq : w.size = g.size
  operandsOf_eq : ∀ i, w.operandsOf i = g.operands i
  costs_eq : w.costs = g.steps.map Step.cost
  lastReaderOf_eq_some : ∀ i j, w.lastReaderOf j = some i ↔
    j ∈ g.operands i ∧ ∀ c, j ∈ g.operands c → c ≤ i
  lastReaderOf_eq_none : ∀ j, w.lastReaderOf j = none ↔ ∀ c, j ∉ g.operands c

theorem Dataflow.lt_size_of_mem_operands (h : j ∈ g.operands i) : i < g.size := by
  refine Nat.lt_of_not_le fun hle => ?_
  have hnone : g.step? i = none := Array.getElem?_eq_none hle
  simp [Dataflow.operands, hnone] at h

def Dataflow.readers (g : Dataflow Op) (j : Nat) : List Nat := (g.consumers[j]?).getD []

theorem Dataflow.mem_readers : i ∈ g.readers j ↔ j ∈ g.operands i := by
  unfold Dataflow.readers
  cases hcolumn : g.consumers[j]? with
  | some column => exact Dataflow.mem_consumers hcolumn
  | none =>
    have hle : g.size ≤ j := by
      simpa [Dataflow.consumers, Dataflow.operandLists, Dataflow.size] using hcolumn
    simp only [Option.getD_none, List.not_mem_nil, false_iff]
    intro hj
    have hlt := g.operands_lt hj
    have hsize := Dataflow.lt_size_of_mem_operands hj
    omega

theorem Dataflow.pairwise_readers (g : Dataflow Op) (j : Nat) :
    (g.readers j).Pairwise (· ≤ ·) := by
  unfold Dataflow.readers
  cases hcolumn : g.consumers[j]? with
  | some column =>
    exact pairwise_transpose (fun _ _ => Nat.le_of_lt) (fun _ _ i => Or.inr i.le_refl) hcolumn
  | none => exact .nil

theorem Workload.mapM_bytes (h : Workload.ofFlow g z = .ok w) :
    g.steps.toList.mapM (fun s => z.bytes s.shape) = .ok w.bytes.toList := by
  obtain ⟨bytes, hbytes, hw⟩ := bind_eq_ok_iff.mp h
  obtain rfl := Except.ok.inj hw
  rw [← Array.toList_mapM, hbytes]
  rfl

theorem Workload.describes_of_ofFlow (h : Workload.ofFlow g z = .ok w) : w.Describes g := by
  have hsize : w.bytes.size = g.steps.size := by
    simpa using (forall₂_of_mapM_eq_ok (mapM_bytes h)).length_eq.symm
  obtain ⟨bytes, -, hw⟩ := bind_eq_ok_iff.mp h
  obtain rfl := Except.ok.inj hw
  have hreader : ∀ j, (Workload.lastReaderOf ⟨g.operandLists, g.consumers.map List.getLast?,
      g.steps.map Step.cost, bytes⟩ j) = (g.readers j).getLast? := by
    intro j
    simp only [Workload.lastReaderOf, Dataflow.readers, Array.getD_eq_getD_getElem?,
      Array.getElem?_map]
    cases g.consumers[j]? <;> rfl
  refine ⟨hsize, fun i => ?_, rfl, fun i j => ?_, fun j => ?_⟩
  · simp only [Workload.operandsOf, Dataflow.operandLists, Dataflow.operands, Dataflow.step?,
      Array.getD_eq_getD_getElem?, Array.getElem?_map]
  · rw [hreader, getLast?_eq_some_iff_greatest (g.pairwise_readers j)]
    simp only [Dataflow.mem_readers]
  · rw [hreader, List.getLast?_eq_none_iff, List.eq_nil_iff_forall_not_mem]
    simp only [Dataflow.mem_readers]

end AndOrFlow
