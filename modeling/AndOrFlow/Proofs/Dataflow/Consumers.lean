import AndOrFlow.Proofs.Dataflow.Refinement
import AndOrFlow.Proofs.Memory.PeakBounds

/-!
# Who reads a step

A step refers to each of its operands once, so the list of its consumers is strictly ascending, and
all of them come after it. In a compiled graph every step but the last one is read: the root reaches
its node by way of a parent, and the step of the parent reads it.
-/
namespace AndOrFlow

variable {Op : Type} {flow : Dataflow Op} {g : Graph} {factory : Factory Op} {input : Shape}
  {axis i j : Nat} {s : Step Op} {readers : List Nat} {id parent : NodeId} {r : Compilation Op}

namespace Dataflow

theorem size_consumers (flow : Dataflow Op) : flow.consumers.size = flow.size := by
  simp [consumers, operandLists, size]

theorem pairwise_consumers (h : flow.consumers[j]? = some readers) :
    readers.Pairwise (· < ·) := by
  refine pairwise_transpose (fun _ _ hlt => hlt) (fun row hrow i => Or.inl ?_) h
  obtain ⟨t, -, rfl⟩ := Array.mem_map.mp hrow
  exact List.nodup_iff_count_le_one.mp (nodup_distinct t.reads) j

/-- The step that yields the output has none behind it that could read it. -/
theorem consumers_of_output (h : flow.consumers[j]? = some readers)
    (hj : flow.output? = some j) : readers = [] := by
  apply List.eq_nil_iff_forall_not_mem.mpr
  intro i hi
  have hread := (mem_consumers h).mp hi
  have hlt := flow.operands_lt hread
  have hsize := lt_size_of_mem_operands hread
  unfold output? at hj
  split at hj
  · cases hj
  · obtain rfl := Option.some.inj hj
    omega

/-- The steps that read a step, and which step none reads. -/
structure ConsumedUpToOutput (flow : Dataflow Op) : Prop where
  size_eq : flow.consumers.size = flow.size
  lt_size : ∀ i j, j ∈ flow.operands i → j < flow.size
  mem_iff : ∀ (j : Nat) (readers : List Nat), flow.consumers[j]? = some readers →
    ∀ i, i ∈ readers ↔ j ∈ flow.operands i
  ascending : ∀ (j : Nat) (readers : List Nat), flow.consumers[j]? = some readers →
    readers.Pairwise (· < ·)
  later : ∀ (j : Nat) (readers : List Nat), flow.consumers[j]? = some readers →
    ∀ i ∈ readers, j < i
  eq_nil_iff : ∀ (j : Nat) (readers : List Nat), flow.consumers[j]? = some readers →
    (readers = [] ↔ flow.output? = some j)

end Dataflow

namespace Graph

theorem Computes.exists_operand {steps : Array (Step Op)} {n : Node} {request : Request}
    {source : NodeId} (h : g.Computes factory input axis steps i s n request)
    (hsource : source ∈ n.sources) : ∃ operand ∈ s.inputs, ReadsSource steps i source operand := by
  have hinner : n.kind ≠ .terminal := by
    cases n with
    | terminal => cases hsource
    | and | or => exact fun hkind => by cases hkind
  obtain ⟨k, hk⟩ := List.mem_iff_getElem?.mp hsource
  obtain ⟨operand, hoperand, hreads⟩ := Listing.exists_getElem?_of_forall₂ (h.reads.inner hinner) hk
  exact ⟨operand, List.mem_of_getElem? hoperand, hreads⟩

namespace Refines

theorem exists_step (h : g.Refines factory input axis r) (hid : Reaches g.nodes g.root id) :
    ∃ i s, r.flow.step? i = some s ∧ s.source = id := by
  obtain ⟨s, hs, hsource⟩ := List.mem_map.mp ((h.mem_sources id).mpr hid)
  obtain ⟨i, hi⟩ := List.mem_iff_getElem?.mp hs
  exact ⟨i, s, by rw [Dataflow.step?, ← Array.getElem?_toList, hi], hsource⟩

theorem step_inj {t : Step Op} (h : g.Refines factory input axis r)
    (hs : r.flow.step? i = some s) (ht : r.flow.step? j = some t) (heq : s.source = t.source) :
    i = j := by
  have hi := h.lookup_eq i s hs
  rw [heq, h.lookup_eq j t ht] at hi
  exact (Option.some.inj hi).symm

theorem mem_operands {t : Step Op} (h : g.Refines factory input axis r)
    (ht : r.flow.step? i = some t) (hs : r.flow.step? j = some s)
    (href : RefersTo g.nodes t.source s.source) : j ∈ r.flow.operands i := by
  obtain ⟨n, hn, hsource⟩ := refersTo_iff.mp href
  obtain ⟨m, request, hm, -, hcomputes⟩ := h.computes i t ht
  obtain rfl : n = m := Option.some.inj (hn.symm.trans hm)
  obtain ⟨operand, hoperand, k, u, rfl, -, hu, heq⟩ := hcomputes.exists_operand hsource
  obtain rfl : k = j := h.step_inj hu hs heq
  rw [Dataflow.operands, ht, Option.map_some, Option.getD_some, Step.operands, mem_distinct]
  exact List.mem_filterMap.mpr ⟨.step k, hoperand, rfl⟩

theorem output_or_read (h : g.Refines factory input axis r) (hs : r.flow.step? j = some s) :
    r.flow.output? = some j ∨ ∃ i, j ∈ r.flow.operands i := by
  have hreach : Reaches g.nodes g.root s.source := by
    apply (h.mem_sources s.source).mp
    rw [Dataflow.step?, ← Array.getElem?_toList] at hs
    exact List.mem_map_of_mem (List.mem_of_getElem? hs)
  rcases Relation.ReflTransGen.cases_tail hreach with hroot | ⟨parent, hparent, href⟩
  · obtain ⟨k, hout, hlookup⟩ := h.output_eq
    rw [← hroot, h.lookup_eq j s hs] at hlookup
    exact Or.inl (hlookup ▸ hout)
  · obtain ⟨i, t, ht, rfl⟩ := h.exists_step hparent
    exact Or.inr ⟨i, h.mem_operands ht hs href⟩

end Refines

/-- A step of a compiled graph is read by later steps, the output by none. -/
theorem compileWith_consumed (g : Graph) (factory : Factory Op) (input : Shape) (axis : Nat)
    (r : Compilation Op) (h : g.compileWith factory input axis = .ok r) :
    r.flow.ConsumedUpToOutput where
  size_eq := r.flow.size_consumers
  lt_size i j hj := (r.flow.operands_lt hj).trans (Dataflow.lt_size_of_mem_operands hj)
  mem_iff j readers hreaders i := Dataflow.mem_consumers hreaders
  ascending j readers := Dataflow.pairwise_consumers
  later j readers hreaders i hi := r.flow.operands_lt ((Dataflow.mem_consumers hreaders).mp hi)
  eq_nil_iff j readers hreaders := by
    refine ⟨fun hnil => ?_, Dataflow.consumers_of_output hreaders⟩
    have hj : j < r.flow.steps.size := by
      rw [← Dataflow.size, ← r.flow.size_consumers]
      exact (Array.getElem?_eq_some_iff.mp hreaders).1
    rcases (compileWith_refines g factory input axis r h).output_or_read
      (Array.getElem?_eq_getElem hj) with hout | ⟨i, hi⟩
    · exact hout
    · have hmem := (Dataflow.mem_consumers hreaders).mpr hi
      rw [hnil] at hmem
      cases hmem

theorem compileWith_consumed_shuffled :
    ∃ r, shuffled.compileWith numbered ⟨[1, 8]⟩ 1 = .ok r ∧ r.flow.ConsumedUpToOutput ∧
      r.flow.consumers = #[[2], [2], [3], []] := by
  have hconsumers : ((shuffled.compileWith numbered ⟨[1, 8]⟩ 1).toOption.map
      fun r => r.flow.consumers) = some #[[2], [2], [3], []] := by decide +kernel
  cases hrun : shuffled.compileWith numbered ⟨[1, 8]⟩ 1 with
  | error stop => simp [hrun, Except.toOption] at hconsumers
  | ok r =>
    refine ⟨r, rfl, compileWith_consumed shuffled numbered ⟨[1, 8]⟩ 1 r hrun, ?_⟩
    simpa [hrun, Except.toOption] using hconsumers

end Graph
end AndOrFlow
