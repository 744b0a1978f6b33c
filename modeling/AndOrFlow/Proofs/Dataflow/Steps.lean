import AndOrFlow.Dataflow.Compilation
import AndOrFlow.Proofs.Outcome

/-!
# One step of compilation

A node whose sources are compiled reads the steps at their places. Where these fit together, the
factory is asked for the node, and what it binds becomes the next step. Steps that read earlier ones
only make a dataflow graph.
-/
namespace AndOrFlow

variable {Op : Type} {g : Graph} {id : NodeId} {n : Node} {input : Shape} {axis : Nat}
  {factory : Factory Op} {state : CompileState Op} {compiled : Roster NodeId} {shapes : List Shape}
  {request : Request} {operands : List Operand} {before : List NodeId}

def Roster.placeOf (compiled : Roster NodeId) (id : NodeId) : Nat :=
  (compiled.place? id).getD compiled.size

theorem Roster.place?_of_mem (h : id ∈ compiled) :
    compiled.place? id = some (compiled.placeOf id) := by
  obtain ⟨i, hi⟩ := Option.isSome_iff_exists.mp (Roster.mem_iff_isSome.mp h)
  rw [placeOf, hi, Option.getD_some]

def Node.operandsAt (n : Node) (place : NodeId → Nat) : List Operand :=
  match n with
  | .terminal _ => [.input]
  | .and _ sources | .or _ sources => sources.map fun source => .step (place source)

def CompileState.extend (state : CompileState Op) (request : Request) (operands : List Operand)
    (b : Binding Op) : CompileState Op where
  steps := state.steps.push ⟨request.node, request.kind, request.span, operands, b.op, b.shape,
    b.params, b.cost⟩
  requests := state.requests.push request
  compiled := state.compiled.add request.node

namespace CompileState

theorem compiled_extend (h : state.compiled.toList = before) (hnew : request.node ∉ before)
    (operands : List Operand) (b : Binding Op) :
    (state.extend request operands b).compiled.toList = before ++ [request.node] := by
  have hmem : request.node ∉ state.compiled := by
    rwa [← Roster.mem_toList, h]
  rw [extend, Roster.toList_add, if_neg hmem, h]

theorem sources_extend (h : state.steps.toList.map Step.source = before) (request : Request)
    (operands : List Operand) (b : Binding Op) :
    (state.extend request operands b).steps.toList.map Step.source =
      before ++ [request.node] := by
  simp [extend, h]

theorem exists_step {i : Nat} (hcompiled : state.compiled.toList = before)
    (hsteps : state.steps.toList.map Step.source = before)
    (hi : state.compiled.place? id = some i) :
    ∃ s, state.steps[i]? = some s ∧ s.source = id := by
  have hplace := Roster.place?_eq_some_iff.mp hi
  rw [hcompiled, ← hsteps, List.getElem?_map, Array.getElem?_toList] at hplace
  exact Option.map_eq_some_iff.mp hplace

end CompileState

namespace Graph

theorem operandsOf_eq (h : ∀ source ∈ n.sources, source ∈ compiled) :
    operandsOf compiled id n = .ok (n.operandsAt compiled.placeOf) := by
  cases n with
  | terminal s => rfl
  | and s sources | or s sources =>
    apply mapM_eq_ok
    intro source hsource
    rw [Roster.place?_of_mem (h source hsource)]

theorem checkOperands_eq_ok (h : ∀ s ∈ shapes, ∀ t ∈ shapes, Fits axis n.kind s t) :
    checkOperands id n axis shapes = .ok () := by
  cases shapes with
  | nil => rfl
  | cons first others =>
    have hnone : others.find? (fun other => ¬ Fits axis n.kind first other) = none := by
      apply List.find?_eq_none.mpr
      intro other hother
      simpa using h first (by simp) other (by simp [hother])
    rw [checkOperands, hnone]

/-- The request for a node whose sources are compiled to shapes that fit together. -/
theorem requestFor_eq (hn : g.node? id = some n)
    (hsources : ∀ source ∈ n.sources, source ∈ state.compiled)
    (hshapes : (n.operandsAt state.compiled.placeOf).map (operandShape input state.steps) = shapes)
    (hfits : ∀ s ∈ shapes, ∀ t ∈ shapes, Fits axis n.kind s t) :
    g.requestFor input axis state id = .ok
      (⟨id, n.kind, n.span, g.bounds.dim, axis, shapes⟩, n.operandsAt state.compiled.placeOf) := by
  rw [requestFor, hn]
  dsimp only
  rw [operandsOf_eq hsources]
  apply bind_eq_ok_iff.mpr
  refine ⟨_, rfl, ?_⟩
  rw [hshapes, checkOperands_eq_ok hfits]
  rfl

/-- A node is compiled as the factory answers its request. -/
theorem compileNode_ends {bound : Binding Op → Prop} {fail : Failure CompileError → Prop}
    (hrequest : g.requestFor input axis state id = .ok (request, operands))
    (hnode : request.node = id) (hbind : Outcome bound fail (factory request)) :
    Outcome (fun next => ∃ b, bound b ∧ next = state.extend request operands b)
      (fun stop => fail stop.failure ∧ stop.done = state.requests.toList ++ [request])
      (g.compileNode factory input axis state id) := by
  rw [compileNode, hrequest]
  dsimp only
  cases hanswer : factory request with
  | error failure =>
    rw [hanswer] at hbind
    exact ⟨hbind, by simp⟩
  | ok b =>
    rw [hanswer] at hbind
    exact ⟨b, hbind, by rw [CompileState.extend, hnode]⟩

end Graph

theorem earlyRead?_eq_none {steps : List (Step Op)} {start : Nat}
    (h : ∀ (i : Nat) (s : Step Op), steps[i]? = some s → ∀ j ∈ s.reads, j < start + i) :
    earlyRead? start steps = none := by
  induction steps generalizing start with
  | nil => rfl
  | cons first rest ih =>
    have hfirst : first.reads.find? (fun j => start ≤ j) = none := by
      apply List.find?_eq_none.mpr
      intro j hj
      simpa using h 0 first rfl j hj
    rw [earlyRead?, hfirst]
    apply ih
    intro i s hs j hj
    have hlt := h (i + 1) s (by simpa using hs) j hj
    omega

theorem Dataflow.exists_ofSteps (input : Shape) {steps : Array (Step Op)}
    (h : ∀ (i : Nat) (s : Step Op), steps[i]? = some s → ∀ j ∈ s.reads, j < i) :
    ∃ flow, Dataflow.ofSteps steps input = .ok flow ∧ flow.steps = steps := by
  have hnone : earlyRead? 0 steps.toList = none := by
    apply earlyRead?_eq_none
    intro i s hs j hj
    simpa using h i s (by simpa using hs) j hj
  unfold Dataflow.ofSteps
  split
  · rename_i hsome
    rw [hnone] at hsome
    cases hsome
  · exact ⟨_, rfl, rfl⟩

/-- Once there is an order, compiling is a run along it. -/
theorem Graph.compileWith_eq {order : Roster NodeId} (haxis : axis < input.rank)
    (horder : g.postOrder = .ok order) : g.compileWith factory input axis = (do
      let state ← order.toList.foldlM (g.compileNode factory input axis) ⟨#[], #[], .empty⟩
      match Dataflow.ofSteps state.steps input with
      | .error e => .error ⟨.error e, state.requests.toList⟩
      | .ok flow => .ok ⟨flow, state.requests.toList⟩) := by
  have hcompile : g.compileOrder = .ok order := by
    rw [compileOrder, horder]
    rfl
  unfold compileWith
  split
  · omega
  · split
    · rename_i e herror
      rw [hcompile] at herror
      cases herror
    · rename_i order' hok
      rw [hcompile] at hok
      obtain rfl := Except.ok.inj hok
      rfl

end AndOrFlow
