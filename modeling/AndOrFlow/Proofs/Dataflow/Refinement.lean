import AndOrFlow.Proofs.Dataflow.Steps
import AndOrFlow.Proofs.Listing
import AndOrFlow.Proofs.Walk

/-!
# What compilation yields

Whatever the factory, a graph that compiles yields one step for every node that the root reaches,
in the order of the walk. A step reads the steps of its node's sources and is what the factory bound
for the one request made for the node. Operands are compared with the first one only, which is
enough for any two of them to fit together.
-/
namespace AndOrFlow

variable {Op : Type} {g : Graph} {factory : Factory Op} {input : Shape} {axis : Nat} {id : NodeId}
  {n : Node} {before after : List NodeId} {state next : CompileState Op} {operands : List Operand}
  {shapes : List Shape} {steps : Array (Step Op)} {i : Nat} {s : Step Op} {request : Request}
  {b : Binding Op} {order : Roster NodeId} {r : Compilation Op}

namespace Shape

/-- The same axes, and the same size on all of them but one. -/
def AgreesOff (axis : Nat) (s t : Shape) : Prop :=
  s.rank = t.rank ∧ ∀ i, i ≠ axis → s.dim? i = t.dim? i

theorem MatchesExcept.agreesOff {s t : Shape} (h : s.MatchesExcept t axis) :
    s.AgreesOff axis t := by
  refine ⟨h.1, fun i hi => ?_⟩
  rcases Nat.lt_or_ge i s.rank with hlt | hge
  · exact (h.2 i hlt).resolve_left hi
  · have hge' : t.rank ≤ i := h.1 ▸ hge
    rw [dim?, dim?, List.getElem?_eq_none hge, List.getElem?_eq_none hge']

theorem AgreesOff.matchesExcept {s t : Shape} (h : s.AgreesOff axis t) :
    s.MatchesExcept t axis := by
  refine ⟨h.1, fun i _ => ?_⟩
  by_cases hi : i = axis
  · exact Or.inl hi
  · exact Or.inr (h.2 i hi)

theorem equivalence_agreesOff (axis : Nat) : Equivalence (AgreesOff axis) where
  refl _ := ⟨rfl, fun _ _ => rfl⟩
  symm h := ⟨h.1.symm, fun i hi => (h.2 i hi).symm⟩
  trans h h' := ⟨h.1.trans h'.1, fun i hi => (h.2 i hi).trans (h'.2 i hi)⟩

end Shape

theorem related_of_first {α : Type} {R : α → α → Prop} {first : α} {others : List α}
    (hR : Equivalence R) (h : ∀ other ∈ others, R first other) :
    ∀ s ∈ first :: others, ∀ t ∈ first :: others, R s t := by
  have hfirst : ∀ s ∈ first :: others, R first s := by
    intro s hs
    rcases List.mem_cons.mp hs with rfl | hs
    · exact hR.refl s
    · exact h s hs
  exact fun s hs t ht => hR.trans (hR.symm (hfirst s hs)) (hfirst t ht)

namespace Graph

/-- The operand of step `i` is an earlier step, the one that computes the source. -/
def ReadsSource (steps : Array (Step Op)) (i : Nat) (source : NodeId) (operand : Operand) : Prop :=
  ∃ j t, operand = .step j ∧ j < i ∧ steps[j]? = some t ∧ t.source = source

/-- Step `i` reads what the node stands on: the graph input for a terminal, else the steps of its
sources one by one. -/
structure Reads (steps : Array (Step Op)) (i : Nat) (n : Node) (operands : List Operand) :
    Prop where
  terminal : n.kind = .terminal → operands = [.input]
  inner : n.kind ≠ .terminal → List.Forall₂ (ReadsSource steps i) n.sources operands

/-- Step `i` computes the node: it is what the factory bound for the one request with the shapes of
what the node stands on, and these shapes fit together. -/
structure Computes (g : Graph) (factory : Factory Op) (input : Shape) (axis : Nat)
    (steps : Array (Step Op)) (i : Nat) (s : Step Op) (n : Node) (request : Request) : Prop where
  kind_eq : s.kind = n.kind
  span_eq : s.span = n.span
  reads : Reads steps i n s.inputs
  request_eq : request = ⟨s.source, n.kind, n.span, g.bounds.dim, axis,
    s.inputs.map (operandShape input steps)⟩
  bound : factory request = .ok ⟨s.op, s.shape, s.params, s.cost⟩
  and_fits : n.kind = .and → ∀ first ∈ request.inputs, ∀ other ∈ request.inputs,
    first.AgreesOff axis other
  or_fits : n.kind = .or → ∀ first ∈ request.inputs, ∀ other ∈ request.inputs, first = other

/-- All operands that fit the first fit each other. -/
theorem fits_of_checkOperands (h : checkOperands id n axis shapes = .ok ()) :
    (n.kind = .and → ∀ s ∈ shapes, ∀ t ∈ shapes, s.AgreesOff axis t) ∧
      (n.kind = .or → ∀ s ∈ shapes, ∀ t ∈ shapes, s = t) := by
  cases shapes with
  | nil => simp
  | cons first others =>
    rw [checkOperands] at h
    split at h
    · cases h
    · rename_i hnone
      have hfits : ∀ other ∈ others, Fits axis n.kind first other := by
        simpa using List.find?_eq_none.mp hnone
      constructor
      · intro hkind
        rw [hkind] at hfits
        exact related_of_first (Shape.equivalence_agreesOff axis) fun other hother =>
          Shape.MatchesExcept.agreesOff (hfits other hother)
      · intro hkind
        rw [hkind] at hfits
        exact related_of_first eq_equivalence hfits

/-- What it takes for a node to be compiled. -/
theorem compileNode_eq_ok (h : g.compileNode factory input axis state id = .ok next) :
    ∃ n operands b, g.node? id = some n ∧ operandsOf state.compiled id n = .ok operands ∧
      checkOperands id n axis (operands.map (operandShape input state.steps)) = .ok () ∧
      factory ⟨id, n.kind, n.span, g.bounds.dim, axis,
        operands.map (operandShape input state.steps)⟩ = .ok b ∧
      next = state.extend ⟨id, n.kind, n.span, g.bounds.dim, axis,
        operands.map (operandShape input state.steps)⟩ operands b := by
  rw [compileNode] at h
  split at h
  · cases h
  · rename_i request operands hrequest
    split at h
    · cases h
    · rename_i b hb
      rw [requestFor] at hrequest
      split at hrequest
      · cases hrequest
      · rename_i n hn
        obtain ⟨operands', hoperands, hrequest⟩ := bind_eq_ok_iff.mp hrequest
        obtain ⟨_, hcheck, hrequest⟩ := bind_eq_ok_iff.mp hrequest
        cases hrequest
        cases h
        exact ⟨n, operands, b, hn, hoperands, hcheck, hb, rfl⟩

theorem getElem?_push_of_lt {j : Nat} (t : Step Op) (h : j < steps.size) :
    (steps.push t)[j]? = steps[j]? := by
  rw [Array.getElem?_push_lt h, Array.getElem?_eq_getElem h]

namespace Reads

/-- Whatever is read is there before. -/
theorem input_or_lt (h : Reads steps i n operands) :
    ∀ operand ∈ operands, operand = .input ∨ ∃ j < i, operand = .step j := by
  intro operand hoperand
  by_cases hkind : n.kind = .terminal
  · rw [h.terminal hkind, List.mem_singleton] at hoperand
    exact Or.inl hoperand
  · obtain ⟨k, hk⟩ := List.mem_iff_getElem?.mp hoperand
    obtain ⟨source, -, j, t, heq, hj, -⟩ :=
      Listing.exists_getElem?_of_forall₂ (h.inner hkind).flip hk
    exact Or.inr ⟨j, hj, heq⟩

/-- Steps behind the ones that are read make no difference. -/
theorem push (h : Reads steps i n operands) (t : Step Op) : Reads (steps.push t) i n operands where
  terminal := h.terminal
  inner hkind := by
    refine (h.inner hkind).imp fun source operand hreads => ?_
    obtain ⟨j, u, hoperand, hj, hu, hsource⟩ := hreads
    have hlt := (Array.getElem?_eq_some_iff.mp hu).1
    exact ⟨j, u, hoperand, hj, (getElem?_push_of_lt t hlt).trans hu, hsource⟩

theorem shapes_push (h : Reads steps i n operands) (hi : i ≤ steps.size) (t : Step Op) :
    operands.map (operandShape input (steps.push t)) =
      operands.map (operandShape input steps) := by
  refine List.map_congr_left fun operand hoperand => ?_
  rcases h.input_or_lt operand hoperand with rfl | ⟨j, hj, rfl⟩
  · rfl
  · rw [operandShape, operandShape, getElem?_push_of_lt t (Nat.lt_of_lt_of_le hj hi)]

end Reads

theorem Computes.push (h : g.Computes factory input axis steps i s n request)
    (hi : i ≤ steps.size) (t : Step Op) :
    g.Computes factory input axis (steps.push t) i s n request where
  kind_eq := h.kind_eq
  span_eq := h.span_eq
  reads := h.reads.push t
  request_eq := by rw [h.request_eq, h.reads.shapes_push hi]
  bound := h.bound
  and_fits := h.and_fits
  or_fits := h.or_fits

/-- What is compiled when the nodes of `before` are. -/
structure Emits (g : Graph) (factory : Factory Op) (input : Shape) (axis : Nat)
    (before : List NodeId) (state : CompileState Op) : Prop where
  compiled_eq : state.compiled.toList = before
  sources_eq : state.steps.toList.map Step.source = before
  requests_size : state.requests.size = state.steps.size
  computes : ∀ i s, state.steps[i]? = some s → ∃ n request, g.node? s.source = some n ∧
    state.requests[i]? = some request ∧
      g.Computes factory input axis state.steps i s n request

theorem emits_nil : g.Emits factory input axis [] ⟨#[], #[], .empty⟩ :=
  ⟨rfl, rfl, rfl, by simp⟩

namespace Emits

theorem reads (h : g.Emits factory input axis before state)
    (hoperands : operandsOf state.compiled id n = .ok operands) :
    Reads state.steps state.steps.size n operands := by
  cases n with
  | terminal s =>
    cases hoperands
    exact ⟨fun _ => rfl, fun hkind => absurd rfl hkind⟩
  | and s sources | or s sources =>
    constructor
    · intro hkind
      cases hkind
    · intro _
      refine (forall₂_of_mapM_eq_ok hoperands).imp fun source operand hread => ?_
      split at hread
      · rename_i j hj
        cases hread
        obtain ⟨t, ht, hsource⟩ := CompileState.exists_step h.compiled_eq h.sources_eq hj
        exact ⟨j, t, rfl, (Array.getElem?_eq_some_iff.mp ht).1, ht, hsource⟩
      · cases hread

theorem extend (h : g.Emits factory input axis before state) (hnew : id ∉ before)
    (hok : g.compileNode factory input axis state id = .ok next) :
    g.Emits factory input axis (before ++ [id]) next := by
  obtain ⟨n, operands, b, hn, hoperands, hcheck, hbound, rfl⟩ := compileNode_eq_ok hok
  have hreads := h.reads hoperands
  have hshapes : ∀ t, operands.map (operandShape input (state.steps.push t)) =
      operands.map (operandShape input state.steps) := hreads.shapes_push (Nat.le_refl _)
  obtain ⟨hand, hor⟩ := fits_of_checkOperands hcheck
  refine ⟨CompileState.compiled_extend h.compiled_eq hnew _ _,
    CompileState.sources_extend h.sources_eq _ _ _, ?_, ?_⟩
  · simp [CompileState.extend, h.requests_size]
  · intro i s hs
    rw [CompileState.extend, Array.getElem?_push] at hs
    split at hs
    · rename_i hi
      cases hs
      refine ⟨n, ⟨id, n.kind, n.span, g.bounds.dim, axis,
        operands.map (operandShape input state.steps)⟩, hn, ?_, ?_⟩
      · rw [CompileState.extend, hi, ← h.requests_size, Array.getElem?_push_size]
      · rw [hi]
        exact ⟨rfl, rfl, hreads.push _, congrArg _ (hshapes _).symm, hbound, hand, hor⟩
    · have hlt := (Array.getElem?_eq_some_iff.mp hs).1
      obtain ⟨m, request, hm, hrequest, hcomputes⟩ := h.computes i s hs
      refine ⟨m, request, hm, ?_, hcomputes.push (Nat.le_of_lt hlt) _⟩
      rw [CompileState.extend, Array.getElem?_push_lt (h.requests_size ▸ hlt),
        ← Array.getElem?_eq_getElem, hrequest]

theorem findIdx?_eq (h : g.Emits factory input axis before state) (hnodup : before.Nodup)
    (hs : state.steps[i]? = some s) :
    state.steps.findIdx? (fun t => t.source = s.source) = some i := by
  have hsources : ∀ (j : Nat) (t : Step Op), state.steps[j]? = some t →
      before[j]? = some t.source := by
    intro j t ht
    rw [← h.sources_eq, List.getElem?_map, Array.getElem?_toList, ht, Option.map_some]
  obtain ⟨hi, heq⟩ := Array.getElem?_eq_some_iff.mp hs
  refine Array.findIdx?_eq_some_iff_getElem.mpr ⟨hi, by simp [heq], fun j hj => ?_⟩
  have hget := hsources j _ (Array.getElem?_eq_getElem (Nat.lt_trans hj hi))
  by_contra hsame
  have hsource : state.steps[j].source = s.source := by simpa using hsame
  rw [hsource] at hget
  have := Listing.position_inj hnodup hget (hsources i s hs)
  omega

theorem exists_last (h : g.Emits factory input axis before state)
    (hlast : before.getLast? = some id) :
    ∃ s, state.steps[state.steps.size - 1]? = some s ∧ s.source = id := by
  rw [← h.sources_eq, List.getLast?_map, Option.map_eq_some_iff] at hlast
  obtain ⟨s, hs, hsource⟩ := hlast
  rw [List.getLast?_eq_getElem?, Array.length_toList, Array.getElem?_toList] at hs
  exact ⟨s, hs, hsource⟩

end Emits

theorem emits_foldlM (hstate : g.Emits factory input axis before state)
    (hnodup : (before ++ after).Nodup)
    (hok : after.foldlM (g.compileNode factory input axis) state = .ok next) :
    g.Emits factory input axis (before ++ after) next := by
  induction after generalizing before state with
  | nil =>
    cases hok
    rwa [List.append_nil]
  | cons id rest ih =>
    rw [List.foldlM_cons] at hok
    obtain ⟨mid, hmid, hok⟩ := bind_eq_ok_iff.mp hok
    have hnew : id ∉ before := (List.nodup_middle.mp hnodup).notMem ∘ List.mem_append_left rest
    rw [List.append_cons] at hnodup ⊢
    exact ih (hstate.extend hnew hmid) hnodup hok

theorem ofSteps_eq_ok {flow : Dataflow Op} (h : Dataflow.ofSteps steps input = .ok flow) :
    flow.steps = steps := by
  unfold Dataflow.ofSteps at h
  split at h
  · cases h
  · cases h
    rfl

/-- What it takes for a graph to be compiled. -/
theorem compileWith_eq_ok (h : g.compileWith factory input axis = .ok r) :
    ∃ order state, g.postOrder = .ok order ∧
      order.toList.foldlM (g.compileNode factory input axis) ⟨#[], #[], .empty⟩ = .ok state ∧
      r.flow.steps = state.steps ∧ r.requests = state.requests.toList := by
  unfold compileWith at h
  split at h
  · cases h
  · split at h
    · cases h
    · rename_i order horder
      obtain ⟨state, hstate, h⟩ := bind_eq_ok_iff.mp h
      split at h
      · cases h
      · rename_i flow hflow
        cases h
        refine ⟨order, state, ?_, hstate, ofSteps_eq_ok hflow, rfl⟩
        unfold compileOrder at horder
        cases hpost : g.postOrder with
        | error e =>
          rw [hpost] at horder
          cases horder
        | ok found =>
          rw [hpost] at horder
          cases horder
          rfl

/-- What a graph compiles to, whatever the factory. -/
structure Refines (g : Graph) (factory : Factory Op) (input : Shape) (axis : Nat)
    (r : Compilation Op) : Prop where
  /-- One step for every node that the root reaches, in the order of the walk. -/
  sources_eq : ∃ order, g.postOrder = .ok order ∧
    r.flow.steps.toList.map Step.source = order.toList
  nodup_sources : (r.flow.steps.toList.map Step.source).Nodup
  mem_sources : ∀ id, id ∈ r.flow.steps.toList.map Step.source ↔ Reaches g.nodes g.root id
  requests_length : r.requests.length = r.flow.size
  computes : ∀ i s, r.flow.step? i = some s → ∃ n request, g.node? s.source = some n ∧
    r.requests[i]? = some request ∧ g.Computes factory input axis r.flow.steps i s n request
  reads_earlier : ∀ i s, r.flow.step? i = some s →
    ∀ operand ∈ s.inputs, operand = .input ∨ ∃ j < i, operand = .step j
  lookup_eq : ∀ i s, r.flow.step? i = some s → r.flow.lookup? s.source = some i
  output_eq : ∃ i, r.flow.output? = some i ∧ r.flow.lookup? g.root = some i

theorem compileWith_refines (g : Graph) (factory : Factory Op) (input : Shape) (axis : Nat)
    (r : Compilation Op) (h : g.compileWith factory input axis = .ok r) :
    g.Refines factory input axis r := by
  obtain ⟨order, state, horder, hfold, hsteps, hrequests⟩ := compileWith_eq_ok h
  have hl := listed_of_postOrder horder
  have hemits : g.Emits factory input axis order.toList state :=
    emits_foldlM emits_nil order.nodup_toList hfold
  have hlookup : ∀ i s, r.flow.step? i = some s → r.flow.lookup? s.source = some i := by
    intro i s hs
    rw [Dataflow.step?, hsteps] at hs
    rw [Dataflow.lookup?, hsteps]
    exact hemits.findIdx?_eq order.nodup_toList hs
  have hcomputes : ∀ i s, r.flow.step? i = some s → ∃ n request, g.node? s.source = some n ∧
      r.requests[i]? = some request ∧
        g.Computes factory input axis r.flow.steps i s n request := by
    intro i s hs
    rw [Dataflow.step?, hsteps] at hs
    rw [hsteps, hrequests]
    simpa using hemits.computes i s hs
  refine ⟨⟨order, horder, ?_⟩, ?_, ?_, ?_, hcomputes, ?_, hlookup, ?_⟩
  · rw [hsteps, hemits.sources_eq]
  · rw [hsteps, hemits.sources_eq]
    exact order.nodup_toList
  · intro id
    rw [hsteps, hemits.sources_eq, Roster.mem_toList]
    exact hl.mem_iff id
  · rw [hrequests, Array.length_toList, hemits.requests_size, Dataflow.size, hsteps]
  · intro i s hs
    obtain ⟨n, request, -, -, hcomputes⟩ := hcomputes i s hs
    exact hcomputes.reads.input_or_lt
  · obtain ⟨s, hs, hsource⟩ := hemits.exists_last hl.last
    rw [← hsteps] at hs
    have hpos : r.flow.size ≠ 0 := Nat.ne_zero_of_lt (Array.getElem?_eq_some_iff.mp hs).1
    exact ⟨r.flow.size - 1, if_neg hpos, hsource ▸ hlookup _ s hs⟩

/-- Stored from the root down, with every source referred to twice and a node that nothing refers
to. -/
def shuffled : Graph where
  nodes := #[.or ⟨0, 4⟩ [3, 3], .terminal ⟨0, 2⟩, .terminal ⟨1, 3⟩, .and ⟨0, 4⟩ [1, 4, 4, 1],
    .terminal ⟨2, 4⟩]
  root := 0
  bounds := { dim := 4 }

/-- Binds every node to its kind, with as many features as its number says. -/
def numbered : Factory Kind := fun r =>
  .ok ⟨r.kind, (r.inputs.headD .scalar).withDim r.axis r.node, r.node, r.inputs.length⟩

theorem compileWith_refines_shuffled :
    ∃ r, shuffled.compileWith numbered ⟨[1, 8]⟩ 1 = .ok r ∧
      shuffled.Refines numbered ⟨[1, 8]⟩ 1 r := by
  have hok : (shuffled.compileWith numbered ⟨[1, 8]⟩ 1).toOption.isSome = true := by
    decide +kernel
  cases hrun : shuffled.compileWith numbered ⟨[1, 8]⟩ 1 with
  | error stop => simp [hrun, Except.toOption] at hok
  | ok r => exact ⟨r, rfl, compileWith_refines shuffled numbered ⟨[1, 8]⟩ 1 r hrun⟩

end Graph
end AndOrFlow
