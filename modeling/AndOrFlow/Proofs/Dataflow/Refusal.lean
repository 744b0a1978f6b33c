import AndOrFlow.Proofs.Dataflow.Refinement
import AndOrFlow.Proofs.PostOrder

/-!
# How compilation fails

Compilation fails before it asks for anything if the input has no feature axis or the nodes cannot
be ordered. After that the first node in order that is refused ends it: either its operands do not
fit together, or the factory fails on its request. The nodes before it are bound, by one request
each. Nothing else can go wrong, as the order puts what a node refers to before the node.
-/
namespace AndOrFlow

variable {Op : Type} {g : Graph} {factory : Factory Op} {input : Shape} {axis : Nat}
  {shapes : NodeId → Shape} {id : NodeId} {n : Node} {before after : List NodeId}
  {state : CompileState Op} {request : Request} {made : List Request} {order : Roster NodeId}
  {stop : Stop CompileError Request} {outcome : Except (Stop CompileError Request) (Compilation Op)}
  {operands : List Shape}

def Node.operandShapes (n : Node) (input : Shape) (shapes : NodeId → Shape) : List Shape :=
  match n with
  | .terminal _ => [input]
  | .and _ sources | .or _ sources => sources.map shapes

namespace Graph

def requestOn (g : Graph) (input : Shape) (axis : Nat) (shapes : NodeId → Shape) (id : NodeId)
    (n : Node) : Request :=
  ⟨id, n.kind, n.span, g.bounds.dim, axis, n.operandShapes input shapes⟩

def FitFirst (axis : Nat) (k : Kind) : List Shape → Prop
  | [] => True
  | first :: others => ∀ other ∈ others, Fits axis k first other

/-- Of the operands, `other` is the earliest that does not fit the first. -/
def Misfit (axis : Nat) (k : Kind) (operands : List Shape) (first other : Shape) : Prop :=
  ∃ fitting rest, operands = first :: (fitting ++ other :: rest) ∧
    (∀ s ∈ fitting, Fits axis k first s) ∧ ¬ Fits axis k first other

/-- The factory binds the node, to an operator that yields the shape given for it. -/
inductive Binds (g : Graph) (factory : Factory Op) (input : Shape) (axis : Nat)
    (shapes : NodeId → Shape) : NodeId → Request → Prop
  | intro {id : NodeId} {n : Node} {b : Binding Op} (hn : g.node? id = some n)
      (hfit : FitFirst axis n.kind (n.operandShapes input shapes))
      (hanswer : factory (g.requestOn input axis shapes id n) = .ok b)
      (hshape : b.shape = shapes id) :
      Binds g factory input axis shapes id (g.requestOn input axis shapes id n)

/-- How compilation ends at a node that is refused, when these requests were made before. -/
inductive Refuses (g : Graph) (factory : Factory Op) (input : Shape) (axis : Nat)
    (shapes : NodeId → Shape) (made : List Request) (id : NodeId) :
    Stop CompileError Request → Prop
  /-- The factory is not asked. -/
  | misfit {n : Node} {first other : Shape} (hn : g.node? id = some n)
      (hmisfit : Misfit axis n.kind (n.operandShapes input shapes) first other) :
      Refuses g factory input axis shapes made id
        ⟨.error (.shapeMismatch id n.span first other), made⟩
  | answer {n : Node} {failure : Failure CompileError} (hn : g.node? id = some n)
      (hfit : FitFirst axis n.kind (n.operandShapes input shapes))
      (hanswer : factory (g.requestOn input axis shapes id n) = .error failure) :
      Refuses g factory input axis shapes made id
        ⟨failure, made ++ [g.requestOn input axis shapes id n]⟩

/-- Along the order, all nodes are bound up to one that is refused. -/
def RefusesAlong (g : Graph) (factory : Factory Op) (input : Shape) (axis : Nat)
    (order : List NodeId) (stop : Stop CompileError Request) : Prop :=
  ∃ before id after shapes made, order = before ++ id :: after ∧
    List.Forall₂ (g.Binds factory input axis shapes) before made ∧
    g.Refuses factory input axis shapes made id stop

theorem fitFirst_cons_iff {k : Kind} {first : Shape} {others : List Shape} :
    FitFirst axis k (first :: others) ↔
      others.find? (fun other => ¬ Fits axis k first other) = none := by
  simp [FitFirst]

theorem misfit_cons_iff {k : Kind} {first first' other : Shape} {others : List Shape} :
    Misfit axis k (first :: others) first' other ↔ first' = first ∧
      others.find? (fun other => ¬ Fits axis k first other) = some other := by
  rw [List.find?_eq_some_iff_append]
  constructor
  · rintro ⟨fitting, rest, heq, hfitting, hno⟩
    obtain ⟨rfl, rfl⟩ := List.cons.inj heq
    exact ⟨rfl, by simpa using hno, fitting, rest, rfl, by simpa using hfitting⟩
  · rintro ⟨rfl, hno, fitting, rest, rfl, hfitting⟩
    exact ⟨fitting, rest, rfl, by simpa using hfitting, by simpa using hno⟩

theorem checkOperands_eq_ok_iff :
    checkOperands id n axis operands = .ok () ↔ FitFirst axis n.kind operands := by
  cases operands with
  | nil => exact iff_of_true rfl trivial
  | cons first others =>
    rw [fitFirst_cons_iff, checkOperands]
    cases others.find? fun other => ¬ Fits axis n.kind first other <;> simp [Failure.raise]

theorem checkOperands_eq_error_iff {failure : Failure CompileError} :
    checkOperands id n axis operands = .error failure ↔ ∃ first other,
      Misfit axis n.kind operands first other ∧
        failure = .error (.shapeMismatch id n.span first other) := by
  cases operands with
  | nil => simp [checkOperands, Misfit]
  | cons first others =>
    simp only [misfit_cons_iff, checkOperands]
    cases others.find? fun other => ¬ Fits axis n.kind first other <;>
      simp [Failure.raise, eq_comm]

/-- The steps compute the nodes listed, each to the shape given for it, and these are the requests
that were made. -/
structure Holds (shapes : NodeId → Shape) (before : List NodeId) (made : List Request)
    (state : CompileState Op) : Prop where
  compiled_eq : state.compiled.toList = before
  sources_eq : state.steps.toList.map Step.source = before
  requests_eq : state.requests.toList = made
  shape_eq : ∀ s ∈ state.steps, s.shape = shapes s.source

theorem holds_nil : Holds shapes [] [] (⟨#[], #[], .empty⟩ : CompileState Op) :=
  ⟨rfl, rfl, rfl, by simp⟩

/-- What reads the steps of its sources reads their shapes. -/
theorem Reads.operandShapes_eq {steps : Array (Step Op)} {i : Nat} {operands : List Operand}
    (h : Reads steps i n operands) (hshape : ∀ s ∈ steps, s.shape = shapes s.source) :
    operands.map (operandShape input steps) = n.operandShapes input shapes := by
  have hread : ∀ source operand, ReadsSource steps i source operand →
      operandShape input steps operand = shapes source := by
    rintro _ _ ⟨j, t, rfl, -, ht, rfl⟩
    rw [← hshape t (Array.mem_of_getElem? ht), operandShape, ht]
    rfl
  have hinner : n.kind ≠ .terminal →
      operands.map (operandShape input steps) = n.sources.map shapes := by
    intro hkind
    rw [← List.forall₂_eq_eq_eq, List.forall₂_map_left_iff, List.forall₂_map_right_iff]
    exact (h.inner hkind).flip.imp fun operand source => hread source operand
  cases n with
  | terminal s =>
    rw [h.terminal rfl]
    rfl
  | and s sources | or s sources => exact hinner (by simp [Node.kind])

namespace Holds

variable (h : Holds shapes before made state)
include h

theorem reads (hsources : ∀ source ∈ n.sources, source ∈ state.compiled) :
    Reads state.steps state.steps.size n (n.operandsAt state.compiled.placeOf) := by
  have hread : ∀ source ∈ n.sources,
      ReadsSource state.steps state.steps.size source (.step (state.compiled.placeOf source)) := by
    intro source hsource
    obtain ⟨t, ht, hid⟩ := CompileState.exists_step h.compiled_eq h.sources_eq
      (Roster.place?_of_mem (hsources source hsource))
    exact ⟨_, t, rfl, (Array.getElem?_eq_some_iff.mp ht).1, ht, hid⟩
  cases n with
  | terminal s => exact ⟨fun _ => rfl, fun hkind => absurd rfl hkind⟩
  | and s sources | or s sources =>
    constructor
    · intro hkind
      cases hkind
    · exact fun _ => List.forall₂_map_right_iff.mpr (List.forall₂_same.mpr hread)

omit h in
theorem extend (h : Holds shapes before made state) (hnew : id ∉ before) (hid : request.node = id)
    {b : Binding Op} (hshape : b.shape = shapes id) (reads : List Operand) :
    Holds shapes (before ++ [id]) (made ++ [request]) (state.extend request reads b) := by
  subst hid
  constructor
  · exact CompileState.compiled_extend h.compiled_eq hnew _ _
  · exact CompileState.sources_extend h.sources_eq _ _ _
  · simp [CompileState.extend, h.requests_eq]
  · intro s hs
    rcases Array.mem_push.mp hs with hs | rfl
    · exact h.shape_eq s hs
    · exact hshape

variable (hn : g.node? id = some n) (hsources : ∀ source ∈ n.sources, source ∈ state.compiled)
include hn hsources

theorem requestFor_eq_check : g.requestFor input axis state id =
    (checkOperands id n axis (n.operandShapes input shapes) >>= fun _ =>
      .ok (g.requestOn input axis shapes id n, n.operandsAt state.compiled.placeOf)) := by
  have hshapes : (n.operandsAt state.compiled.placeOf).map (operandShape input state.steps) =
      n.operandShapes input shapes := (h.reads hsources).operandShapes_eq h.shape_eq
  rw [requestFor, hn]
  dsimp only
  rw [operandsOf_eq hsources]
  change (checkOperands id n axis _ >>= fun _ => _) = _
  rw [hshapes]
  rfl

theorem compileNode_of_fit (hfit : FitFirst axis n.kind (n.operandShapes input shapes)) :
    g.compileNode factory input axis state id =
      match factory (g.requestOn input axis shapes id n) with
      | .error failure => .error ⟨failure, made ++ [g.requestOn input axis shapes id n]⟩
      | .ok b => .ok (state.extend (g.requestOn input axis shapes id n)
          (n.operandsAt state.compiled.placeOf) b) := by
  have hrequest : g.requestFor input axis state id =
      .ok (g.requestOn input axis shapes id n, n.operandsAt state.compiled.placeOf) := by
    rw [h.requestFor_eq_check hn hsources, checkOperands_eq_ok_iff.mpr hfit]
    rfl
  rw [compileNode, hrequest]
  dsimp only
  cases factory (g.requestOn input axis shapes id n) with
  | error failure => simp [h.requests_eq]
  | ok b => rfl

theorem compileNode_of_misfit {first other : Shape}
    (hmisfit : Misfit axis n.kind (n.operandShapes input shapes) first other) :
    g.compileNode factory input axis state id =
      .error ⟨.error (.shapeMismatch id n.span first other), made⟩ := by
  have hcheck : checkOperands id n axis (n.operandShapes input shapes) =
      .error (.error (.shapeMismatch id n.span first other)) :=
    checkOperands_eq_error_iff.mpr ⟨first, other, hmisfit, rfl⟩
  rw [compileNode, h.requestFor_eq_check hn hsources, hcheck, ← h.requests_eq]
  rfl

theorem compileNode_eq_error_iff : g.compileNode factory input axis state id = .error stop ↔
    g.Refuses factory input axis shapes made id stop := by
  constructor
  · intro herror
    cases hcheck : checkOperands id n axis (n.operandShapes input shapes) with
    | error failure =>
      obtain ⟨first, other, hmisfit, -⟩ := checkOperands_eq_error_iff.mp hcheck
      rw [h.compileNode_of_misfit hn hsources hmisfit] at herror
      obtain rfl := Except.error.inj herror
      exact .misfit hn hmisfit
    | ok _ =>
      have hfit := checkOperands_eq_ok_iff.mp hcheck
      rw [h.compileNode_of_fit hn hsources hfit] at herror
      split at herror
      · rename_i failure hanswer
        obtain rfl := Except.error.inj herror
        exact .answer hn hfit hanswer
      · cases herror
  · intro hrefuses
    cases hrefuses with
    | misfit hn' hmisfit =>
      obtain rfl := Option.some.inj (hn.symm.trans hn')
      exact h.compileNode_of_misfit hn hsources hmisfit
    | answer hn' hfit hanswer =>
      obtain rfl := Option.some.inj (hn.symm.trans hn')
      rw [h.compileNode_of_fit hn hsources hfit, hanswer]

theorem exists_next (hnew : id ∉ before)
    (hbinds : g.Binds factory input axis shapes id request) :
    ∃ next, g.compileNode factory input axis state id = .ok next ∧
      Holds shapes (before ++ [id]) (made ++ [request]) next := by
  obtain ⟨hn', hfit, hanswer, hshape⟩ := hbinds
  obtain rfl := Option.some.inj (hn.symm.trans hn')
  rw [h.compileNode_of_fit hn hsources hfit, hanswer]
  exact ⟨_, rfl, h.extend hnew rfl hshape _⟩

end Holds

theorem Holds.sources_mem (h : Holds shapes before made state) (hl : Listed g.nodes g.root order)
    (horder : order.toList = before ++ id :: after) (hn : g.node? id = some n) :
    ∀ source ∈ n.sources, source ∈ state.compiled := by
  intro source hsource
  rw [← Roster.mem_toList, h.compiled_eq]
  exact hl.settled.sources_before before id after horder source (refersTo_iff.mpr ⟨n, hn, hsource⟩)

theorem Holds.foldlM (h : Holds shapes before made state) (hl : Listed g.nodes g.root order)
    {more : List Request} (hbinds : List.Forall₂ (g.Binds factory input axis shapes) after more)
    {rest : List NodeId} (horder : order.toList = before ++ after ++ rest) :
    ∃ next, after.foldlM (g.compileNode factory input axis) state = .ok next ∧
      Holds shapes (before ++ after) (made ++ more) next := by
  induction hbinds generalizing before made state with
  | nil => exact ⟨state, rfl, by simpa using h⟩
  | @cons id request after more hid _ ih =>
    have horder' : order.toList = before ++ id :: (after ++ rest) := by simpa using horder
    have hnew : id ∉ before := by
      have hnodup := order.nodup_toList
      rw [horder'] at hnodup
      exact (List.nodup_middle.mp hnodup).notMem ∘ List.mem_append_left _
    obtain ⟨n, hn⟩ : ∃ n, g.node? id = some n := by
      obtain ⟨hn, -⟩ := hid
      exact ⟨_, hn⟩
    obtain ⟨mid, hmid, hholds⟩ := h.exists_next hn (h.sources_mem hl horder' hn) hnew hid
    obtain ⟨next, hnext, hall⟩ := ih hholds (by simpa using horder)
    refine ⟨next, ?_, by simpa using hall⟩
    rw [List.foldlM_cons, hmid]
    exact hnext

def shapeOf (state : CompileState Op) (id : NodeId) : Shape :=
  operandShape .scalar state.steps (.step (state.compiled.placeOf id))

theorem Computes.fitFirst {steps : Array (Step Op)} {i : Nat} {s : Step Op}
    (h : g.Computes factory input axis steps i s n request) :
    FitFirst axis n.kind request.inputs := by
  cases hinputs : request.inputs with
  | nil => trivial
  | cons first others =>
    have hfirst : first ∈ request.inputs := by simp [hinputs]
    intro other hother
    have hmem : other ∈ request.inputs := by simp [hinputs, hother]
    cases hkind : n.kind with
    | terminal => trivial
    | and => exact (h.and_fits hkind first hfirst other hmem).matchesExcept
    | or => exact h.or_fits hkind first hfirst other hmem

theorem Computes.binds {steps : Array (Step Op)} {i : Nat} {s : Step Op}
    (h : g.Computes factory input axis steps i s n request) (hn : g.node? s.source = some n)
    (hs : steps[i]? = some s) (hshape : ∀ s ∈ steps, s.shape = shapes s.source) :
    g.Binds factory input axis shapes s.source request := by
  have hfit := h.fitFirst
  have hanswer := h.bound
  have hrequest := h.request_eq
  rw [h.reads.operandShapes_eq hshape] at hrequest
  subst hrequest
  exact .intro hn hfit hanswer (hshape s (Array.mem_of_getElem? hs))

namespace Emits

variable (h : g.Emits factory input axis before state)
include h

theorem holds : Holds (shapeOf state) before state.requests.toList state := by
  refine ⟨h.compiled_eq, h.sources_eq, rfl, fun s hs => ?_⟩
  obtain ⟨i, hi⟩ := Array.mem_iff_getElem?.mp hs
  have hplace : state.compiled.place? s.source = some i := by
    rw [Roster.place?_eq_some_iff, h.compiled_eq, ← h.sources_eq, List.getElem?_map,
      Array.getElem?_toList, hi, Option.map_some]
  rw [shapeOf, Roster.placeOf, hplace, Option.getD_some, operandShape, hi]
  rfl

theorem binds : List.Forall₂ (g.Binds factory input axis (shapeOf state)) before
    state.requests.toList := by
  rw [← h.sources_eq, List.forall₂_map_left_iff, List.forall₂_iff_get]
  refine ⟨by simpa using h.requests_size.symm, fun i hi hi' => ?_⟩
  have hs : state.steps[i]? = some (state.steps.toList.get ⟨i, hi⟩) := by
    rw [← Array.getElem?_toList]
    exact List.getElem?_eq_getElem hi
  obtain ⟨n, request, hn, hrequest, hcomputes⟩ := h.computes i _ hs
  have heq : state.requests.toList.get ⟨i, hi'⟩ = request := by
    rw [← Array.getElem?_toList, List.getElem?_eq_getElem hi'] at hrequest
    exact Option.some.inj hrequest
  rw [heq]
  exact hcomputes.binds hn hs h.holds.shape_eq

/-- Steps that are computed in order make a dataflow graph. -/
theorem exists_flow : ∃ flow, Dataflow.ofSteps state.steps input = .ok flow := by
  have hreads : ∀ (i : Nat) (s : Step Op), state.steps[i]? = some s → ∀ j ∈ s.reads, j < i := by
    intro i s hs j hj
    obtain ⟨n, request, -, -, hcomputes⟩ := h.computes i s hs
    obtain ⟨operand, hoperand, hindex⟩ := List.mem_filterMap.mp hj
    rcases hcomputes.reads.input_or_lt operand hoperand with rfl | ⟨k, hk, rfl⟩
    · cases hindex
    · obtain rfl := Option.some.inj hindex
      exact hk
  obtain ⟨flow, hflow, -⟩ := Dataflow.exists_ofSteps input hreads
  exact ⟨flow, hflow⟩

end Emits

/-- The run along an order ends where a node is refused. -/
theorem foldlM_eq_error_iff_refusesAlong (hl : Listed g.nodes g.root order) :
    order.toList.foldlM (g.compileNode factory input axis) ⟨#[], #[], .empty⟩ = .error stop ↔
      g.RefusesAlong factory input axis order.toList stop := by
  have hnode : ∀ before id after, order.toList = before ++ id :: after →
      ∃ n, g.node? id = some n := by
    intro before id after horder
    have hlt := hl.settled.lt_size id (Roster.mem_toList.mp (by simp [horder]))
    exact ⟨_, Array.getElem?_eq_getElem hlt⟩
  rw [foldlM_eq_error_iff]
  constructor
  · rintro ⟨before, id, after, state, horder, hbefore, hid⟩
    have hnodup : before.Nodup := (horder ▸ order.nodup_toList).of_append_left
    have hemits : g.Emits factory input axis before state := emits_foldlM emits_nil hnodup hbefore
    obtain ⟨n, hn⟩ := hnode before id after horder
    refine ⟨before, id, after, shapeOf state, _, horder, hemits.binds, ?_⟩
    exact (hemits.holds.compileNode_eq_error_iff hn (hemits.holds.sources_mem hl horder hn)).mp hid
  · rintro ⟨before, id, after, shapes, made, horder, hbinds, hrefuses⟩
    obtain ⟨state, hstate, hholds⟩ := holds_nil.foldlM hl hbinds horder
    obtain ⟨n, hn⟩ := hnode before id after horder
    refine ⟨before, id, after, state, horder, hstate, ?_⟩
    exact (hholds.compileNode_eq_error_iff hn (hholds.sources_mem hl horder hn)).mpr hrefuses

theorem compileWith_of_axis (haxis : input.rank ≤ axis) :
    g.compileWith factory input axis = .error ⟨.error (.invalidInput input axis), []⟩ :=
  if_pos haxis

def orderError : GraphError → CompileError
  | .dangling node child => .unresolved node child
  | source => .graph source

theorem compileWith_of_postOrder {source : GraphError} (haxis : axis < input.rank)
    (hsource : g.postOrder = .error source) :
    g.compileWith factory input axis = .error ⟨.error (orderError source), []⟩ := by
  have hcompile : g.compileOrder = .error (orderError source) := by
    rw [compileOrder, hsource]
    cases source <;> rfl
  rw [compileWith, if_neg (Nat.not_le.mpr haxis), hcompile]

/-- Once there is an order, compilation fails just where the order leads to a refused node. -/
theorem compileWith_eq_error_iff (haxis : axis < input.rank) (horder : g.postOrder = .ok order) :
    g.compileWith factory input axis = .error stop ↔
      g.RefusesAlong factory input axis order.toList stop := by
  have hl := listed_of_postOrder horder
  rw [compileWith_eq haxis horder, bind_eq_error_iff, foldlM_eq_error_iff_refusesAlong hl]
  refine or_iff_left ?_
  rintro ⟨state, hfold, hsteps⟩
  have hemits : g.Emits factory input axis order.toList state :=
    emits_foldlM emits_nil order.nodup_toList hfold
  obtain ⟨flow, hflow⟩ := hemits.exists_flow
  rw [hflow] at hsteps
  cases hsteps

/-- The failure is what the factory answered to the last request. -/
def Answered (factory : Factory Op) (stop : Stop CompileError Request) : Prop :=
  ∃ made request, stop.done = made ++ [request] ∧ factory request = .error stop.failure

/-- Compilation fails with the error, and it is not the factory's. -/
def Raises (factory : Factory Op) (outcome : Except (Stop CompileError Request) (Compilation Op))
    (e : CompileError) : Prop :=
  ∃ stop, outcome = .error stop ∧ stop.failure = .error e ∧ ¬ Answered factory stop

/-- What the factory does not answer is one of three things. -/
theorem raises_cases {e : CompileError} (h : Raises factory (g.compileWith factory input axis) e) :
    (input.rank ≤ axis ∧ e = .invalidInput input axis) ∨
      (∃ source, g.postOrder = .error source ∧ e = orderError source) ∨
      (∃ order, g.postOrder = .ok order) ∧ ∃ node span first other,
        e = .shapeMismatch node span first other := by
  obtain ⟨stop, hstop, hfailure, hanswered⟩ := h
  rcases Nat.lt_or_ge axis input.rank with haxis | haxis
  · right
    cases horder : g.postOrder with
    | error source =>
      rw [compileWith_of_postOrder haxis horder] at hstop
      obtain rfl := Except.error.inj hstop
      exact Or.inl ⟨source, rfl, (Failure.error.inj hfailure).symm⟩
    | ok order =>
      obtain ⟨_, _, _, _, _, -, -, hrefuses⟩ := (compileWith_eq_error_iff haxis horder).mp hstop
      cases hrefuses with
      | misfit _ _ => exact Or.inr ⟨⟨order, rfl⟩, _, _, _, _, (Failure.error.inj hfailure).symm⟩
      | answer _ _ hanswer => exact absurd ⟨_, _, rfl, hanswer⟩ hanswered
  · rw [compileWith_of_axis haxis] at hstop
    obtain rfl := Except.error.inj hstop
    exact Or.inl ⟨haxis, (Failure.error.inj hfailure).symm⟩

theorem raises_of_done_nil {e : CompileError} (h : outcome = .error ⟨.error e, []⟩) :
    Raises factory outcome e :=
  ⟨_, h, rfl, fun ⟨made, request, hdone, _⟩ => by simp at hdone⟩

/-- How the axis, the nodes and the factory decide on a failure. -/
structure FailureDecided (g : Graph) (factory : Factory Op) (input : Shape) (axis : Nat)
    (outcome : Except (Stop CompileError Request) (Compilation Op)) : Prop where
  invalid : input.rank ≤ axis → outcome = .error ⟨.error (.invalidInput input axis), []⟩
  invalid_iff : (∃ shape other, Raises factory outcome (.invalidInput shape other)) ↔
    input.rank ≤ axis
  dangling : axis < input.rank → ∀ node child, g.postOrder = .error (.dangling node child) →
    outcome = .error ⟨.error (.unresolved node child), []⟩
  unordered : axis < input.rank → ∀ e, g.postOrder = .error e →
    (∀ node child, e ≠ .dangling node child) →
      (e = .empty ∨ ∃ node, e = .cycle node) ∧ outcome = .error ⟨.error (.graph e), []⟩
  refused_iff : axis < input.rank → ∀ order, g.postOrder = .ok order →
    ∀ stop, outcome = .error stop ↔ g.RefusesAlong factory input axis order.toList stop
  in_order : ∀ step other, ¬ Raises factory outcome (.outOfOrder step other)
  resolved : ∀ order, g.postOrder = .ok order →
    ∀ node child, ¬ Raises factory outcome (.unresolved node child)

/-- Whatever the nodes are, compilation fails as they and the factory decide. -/
theorem compileWith_failureDecided (g : Graph) (factory : Factory Op) (input : Shape)
    (axis : Nat) : g.FailureDecided factory input axis (g.compileWith factory input axis) := by
  refine ⟨compileWith_of_axis, ⟨?_, fun haxis => ?_⟩, ?_, ?_, ?_, ?_, ?_⟩
  · rintro ⟨shape, other, hraises⟩
    rcases raises_cases hraises with ⟨haxis, -⟩ | ⟨source, -, he⟩ | ⟨-, _, _, _, _, he⟩
    · exact haxis
    · cases source <;> cases he
    · cases he
  · exact ⟨input, axis, raises_of_done_nil (compileWith_of_axis haxis)⟩
  · intro haxis node child hsource
    exact compileWith_of_postOrder haxis hsource
  · intro haxis e he hno
    rcases kind_of_postOrder he with rfl | ⟨node, rfl⟩ | ⟨node, child, rfl⟩
    · exact ⟨Or.inl rfl, compileWith_of_postOrder haxis he⟩
    · exact ⟨Or.inr ⟨node, rfl⟩, compileWith_of_postOrder haxis he⟩
    · exact absurd rfl (hno node child)
  · intro haxis order horder stop
    exact compileWith_eq_error_iff haxis horder
  · intro step other hraises
    rcases raises_cases hraises with ⟨-, he⟩ | ⟨source, -, he⟩ | ⟨-, _, _, _, _, he⟩
    · cases he
    · cases source <;> cases he
    · cases he
  · intro order horder node child hraises
    rcases raises_cases hraises with ⟨-, he⟩ | ⟨source, hsource, -⟩ | ⟨-, _, _, _, _, he⟩
    · cases he
    · rw [horder] at hsource
      cases hsource
    · cases he

/-- Two leaves over the same span, as the alternatives of one node. -/
def siblings : Graph where
  nodes := #[.terminal ⟨0, 2⟩, .terminal ⟨0, 2⟩, .or ⟨0, 2⟩ [0, 1]]
  root := 2
  bounds := { dim := 2 }

/-- The leaves have as many features as their numbers say, so they do not fit together. -/
theorem compileWith_failureDecided_siblings : ∃ order, siblings.postOrder = .ok order ∧
    siblings.RefusesAlong numbered ⟨[1, 8]⟩ 1 order.toList
      ⟨.error (.shapeMismatch 2 ⟨0, 2⟩ ⟨[1, 0]⟩ ⟨[1, 1]⟩),
        [⟨0, .terminal, ⟨0, 2⟩, 2, 1, [⟨[1, 8]⟩]⟩, ⟨1, .terminal, ⟨0, 2⟩, 2, 1, [⟨[1, 8]⟩]⟩]⟩ := by
  have hok : siblings.postOrder.toOption.isSome = true := by decide +kernel
  cases horder : siblings.postOrder with
  | error e => simp [horder, Except.toOption] at hok
  | ok order =>
    refine ⟨order, rfl, ?_⟩
    apply ((compileWith_failureDecided siblings numbered ⟨[1, 8]⟩ 1).refused_iff (by decide) order
      horder _).mp
    cbv

end Graph
end AndOrFlow
