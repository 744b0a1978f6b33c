import AndOrFlow.Dataflow.ChannelSplit
import AndOrFlow.Proofs.Dataflow.Refusal
import Mathlib.Data.Set.Function

/-!
# Storage does not matter

Two graphs may hold the same nodes under other numbers, in another order and next to nodes that
their roots do not reach. A factory that does not go by the numbers binds the nodes of both alike.
So the two compile to the same steps one by one, each named by the number that its node has, or
neither compiles, and the same requests are made before they fail. A channel split is such a
factory: it looks at the number of a node to name it in an error.
-/
namespace AndOrFlow
open Relation

variable {ε α β Op : Type} {R : NodeId → NodeId → Prop} {p : NodeId → NodeId} {g h : Graph}
  {factory : Factory Op} {input : Shape} {axis : Nat} {id twin : NodeId} {m n : Node}
  {order counted compiled listed : Roster NodeId} {state other : CompileState Op}

theorem Alike.of_agree {x y : Except GraphError (Roster NodeId)} (hxy : Agree R x y) :
    Alike (fun done listed => List.Forall₂ R done.toList listed.toList) (fun _ _ => True) x y := by
  cases x with
  | ok done =>
    cases y with
    | ok listed => exact .ok hxy
    | error e => exact hxy.elim
  | error e =>
    cases y with
    | ok listed => exact hxy.elim
    | error e' => exact .error trivial

def Step.rename (p : NodeId → NodeId) (s : Step Op) : Step Op := { s with source := p s.source }

def Request.rename (p : NodeId → NodeId) (r : Request) : Request := { r with node := p r.node }

def Dataflow.rename (p : NodeId → NodeId) (flow : Dataflow Op) : Dataflow Op where
  steps := flow.steps.map (Step.rename p)
  inputShape := flow.inputShape
  reads_lt := by
    intro i s hs
    rw [Array.getElem?_map] at hs
    obtain ⟨t, ht, rfl⟩ := Option.map_eq_some_iff.mp hs
    exact flow.reads_lt i t ht

def Compilation.rename (p : NodeId → NodeId) (r : Compilation Op) : Compilation Op where
  flow := r.flow.rename p
  requests := r.requests.map (Request.rename p)

/-- Neither whether the factory answers nor the answer depends on the number of the node. -/
def Factory.IgnoresNode (factory : Factory Op) : Prop :=
  ∀ request node, (factory { request with node := node }).toOption = (factory request).toOption

theorem toOption_bind (x : Except ε α) (f : α → Except ε β) :
    (x >>= f).toOption = x.toOption.bind fun a => (f a).toOption := by
  cases x <;> rfl

theorem toOption_demand (q : Prop) [Decidable q] (e : ε) :
    (Failure.demand q e).toOption = if q then some () else none := by
  unfold Failure.demand
  split <;> rfl

namespace ChannelSplit
variable (c : ChannelSplit) (r : Request) (node : NodeId)

theorem toOption_unit (channels : Nat) :
    (unit channels { r with node := node }).toOption = (unit channels r).toOption := by
  rw [unit, unit, toOption_bind, toOption_bind, toOption_demand, toOption_demand]

theorem toOption_firstOperand :
    (firstOperand { r with node := node }).toOption = (firstOperand r).toOption := by
  unfold firstOperand
  cases r.inputs <;> rfl

theorem totalWidth_node (shapes : List Shape) (total : Nat) :
    totalWidth { r with node := node } shapes total = totalWidth r shapes total := by
  induction shapes generalizing total with
  | nil => rfl
  | cons s rest ih =>
    rw [totalWidth, totalWidth]
    simp only [ih]
    rfl

theorem widthOf_node (s : Shape) : widthOf s { r with node := node } = widthOf s r := rfl

theorem toOption_bindTerminal (first shape : Shape) (outWidth count : Nat) :
    (c.bindTerminal { r with node := node } first shape outWidth count).toOption =
      (c.bindTerminal r first shape outWidth count).toOption := by
  simp only [bindTerminal, toOption_bind, toOption_unit, toOption_demand, widthOf_node]

theorem bindAnd_node (shape : Shape) (outWidth count : Nat) :
    bindAnd { r with node := node } shape outWidth count = bindAnd r shape outWidth count := by
  simp only [bindAnd, totalWidth_node]

theorem toOption_bindOr (first shape : Shape) (outWidth count : Nat) :
    (c.bindOr { r with node := node } first shape outWidth count).toOption =
      (c.bindOr r first shape outWidth count).toOption := by
  simp only [bindOr, toOption_bind, toOption_demand, widthOf_node]

theorem ignoresNode : Factory.IgnoresNode c.bind := by
  intro r node
  simp only [bind, toOption_bind, toOption_unit, toOption_firstOperand]
  -- The number of the node is left in the part for its kind only.
  congr! 5
  split
  · exact toOption_bindTerminal ..
  · rw [bindAnd_node]
  · exact toOption_bindOr ..
end ChannelSplit
namespace Graph

/-- The second graph holds what the root of the first reaches, under the numbers that `p` gives. -/
structure StoredAs (p : NodeId → NodeId) (g h : Graph) : Prop where
  bijOn : Set.BijOn p { id | Reaches g.nodes g.root id } { id | Reaches h.nodes h.root id }
  root_eq : p g.root = h.root
  node_eq : ∀ id, Reaches g.nodes g.root id → h.node? (p id) = (g.node? id).map (Node.rename p)
  dim_eq : g.bounds.dim = h.bounds.dim

/-- The states hold the same steps for nodes that are related, and the same requests were made. -/
structure Twins (R : NodeId → NodeId → Prop) (p : NodeId → NodeId)
    (state other : CompileState Op) : Prop where
  steps_eq : other.steps = state.steps.map (Step.rename p)
  requests_eq : other.requests = state.requests.map (Request.rename p)
  compiled : List.Forall₂ R state.compiled.toList other.compiled.toList

theorem twins_nil : Twins R p (⟨#[], #[], .empty⟩ : CompileState Op) ⟨#[], #[], .empty⟩ :=
  ⟨by simp, by simp, .nil⟩

theorem operandsOf_terminal (hkind : n.kind = .terminal) :
    operandsOf compiled id n = .ok [.input] := by
  cases n with
  | terminal s => rfl
  | and | or => cases hkind

theorem operandsOf_inner (hkind : n.kind ≠ .terminal) : operandsOf compiled id n =
    n.sources.mapM fun child =>
      match compiled.place? child with
      | some i => .ok (.step i)
      | none => Failure.raise (.unresolved id child) := by
  cases n with
  | terminal s => exact absurd rfl hkind
  | and | or => rfl

theorem operandsOf_alike (hR : Relator.BiUnique R) (hkind : m.kind = n.kind)
    (hsources : List.Forall₂ R m.sources n.sources)
    (hcompiled : List.Forall₂ R compiled.toList listed.toList) :
    Alike (· = ·) (fun _ _ => True) (operandsOf compiled id m) (operandsOf listed twin n) := by
  by_cases hterminal : n.kind = .terminal
  · rw [operandsOf_terminal hterminal, operandsOf_terminal (hkind.trans hterminal)]
    exact .ok rfl
  · rw [operandsOf_inner hterminal, operandsOf_inner (hkind.trans_ne hterminal)]
    rw [← List.forall₂_eq_eq_eq]
    refine .mapM hsources fun source other hr => ?_
    rw [place?_eq hR hr hcompiled]
    cases listed.place? other with
    | none => exact .error trivial
    | some i => exact .ok rfl

theorem checkOperands_alike (hkind : m.kind = n.kind) (shapes : List Shape) :
    Alike (fun _ _ => True) (fun _ _ => True) (checkOperands id m axis shapes)
      (checkOperands twin n axis shapes) := by
  cases shapes with
  | nil => exact .ok trivial
  | cons first others =>
    rw [checkOperands, checkOperands, hkind]
    cases others.find? fun s => ¬ Fits axis n.kind first s with
    | none => exact .ok trivial
    | some other => exact .error trivial

section

variable (hm : Matches R g.nodes h.nodes) (hp : ∀ id twin, R id twin → p id = twin)
  (hdim : g.bounds.dim = h.bounds.dim) (hr : R id twin) (hstates : Twins R p state other)
include hm hp hdim hr hstates

theorem requestFor_alike :
    Alike (fun r r' => r' = (r.1.rename p, r.2)) (fun _ _ => True)
      (g.requestFor input axis state id) (h.requestFor input axis other twin) := by
  obtain ⟨m, n, hm', hn, hkind, hspan, hsources⟩ := hm.node id twin hr
  have hshape : operandShape input other.steps = operandShape input state.steps := by
    funext operand
    cases operand with
    | input => rfl
    | step i =>
      rw [operandShape, operandShape, hstates.steps_eq, Array.getElem?_map, Option.map_map]
      rfl
  rw [requestFor, requestFor, node?, node?, hm', hn]
  refine (operandsOf_alike hm.biUnique hkind hsources hstates.compiled).bind ?_
  rintro operands _ rfl
  dsimp only
  rw [hshape]
  refine (checkOperands_alike hkind _).bind fun _ _ _ => .ok ?_
  simp [Request.rename, hp id twin hr, hkind, hspan, hdim]

theorem compileNode_alike (hfactory : factory.IgnoresNode) :
    Alike (Twins R p) (fun stop stop' => stop'.done = stop.done.map (Request.rename p))
      (g.compileNode factory input axis state id) (h.compileNode factory input axis other twin) := by
  rw [compileNode, compileNode]
  rcases (requestFor_alike hm hp hdim hr hstates).ok_or_error with
    ⟨⟨request, operands⟩, _, hrequest, hrequest', rfl⟩ | ⟨_, _, hrequest, hrequest', -⟩
  · rw [hrequest, hrequest']
    have hanswer : Alike (· = ·) (fun _ _ => True) (factory request) (factory (request.rename p)) :=
      .of_toOption_eq (hfactory request (p request.node))
    dsimp only
    rcases hanswer.ok_or_error with ⟨b, _, hb, hb', rfl⟩ | ⟨_, _, hfailure, hfailure', -⟩
    · rw [hb, hb']
      exact .ok {
        steps_eq := by simp [hstates.steps_eq, Step.rename, Request.rename, hp id twin hr]
        requests_eq := by simp [hstates.requests_eq]
        compiled := hm.add hr hstates.compiled }
    · rw [hfailure, hfailure']
      exact .error (by simp [hstates.requests_eq])
  · rw [hrequest, hrequest']
    exact .error (by simp [hstates.requests_eq])

end

theorem earlyRead?_rename (steps : List (Step Op)) (i : Nat) :
    earlyRead? i (steps.map (Step.rename p)) = earlyRead? i steps := by
  induction steps generalizing i with
  | nil => rfl
  | cons s rest ih =>
    rw [List.map_cons, earlyRead?, earlyRead?, ih]
    rfl

theorem ofSteps_rename (steps : Array (Step Op)) (input : Shape) :
    Dataflow.ofSteps (steps.map (Step.rename p)) input =
      (Dataflow.ofSteps steps input).map (Dataflow.rename p) := by
  have hreads := earlyRead?_rename (p := p) steps.toList 0
  rw [← Array.toList_map] at hreads
  unfold Dataflow.ofSteps
  split
  · rename_i hsome
    rw [hreads] at hsome
    split
    · rename_i hsome'
      cases hsome.symm.trans hsome'
      rfl
    · rename_i hnone
      cases hsome.symm.trans hnone
  · rename_i hnone
    rw [hreads] at hnone
    split
    · rename_i hsome
      cases hsome.symm.trans hnone
    · rfl

def GetsNumber (p : NodeId → NodeId) (g : Graph) (id twin : NodeId) : Prop :=
  Reaches g.nodes g.root id ∧ p id = twin

/-- Compiling follows the walk, so what it yields differs in the numbers only. -/
theorem compileWith_alike (hm : Matches R g.nodes h.nodes)
    (hp : ∀ id twin, R id twin → p id = twin) (hdim : g.bounds.dim = h.bounds.dim)
    (hfactory : factory.IgnoresNode) (haxis : axis < input.rank) (horder : g.postOrder = .ok order)
    (hcounted : h.postOrder = .ok counted) (horders : List.Forall₂ R order.toList counted.toList) :
    Alike (fun r r' => r' = r.rename p)
      (fun stop stop' => stop'.done = stop.done.map (Request.rename p))
      (g.compileWith factory input axis) (h.compileWith factory input axis) := by
  rw [compileWith_eq haxis horder, compileWith_eq haxis hcounted]
  have hfold : Alike (Twins R p) (fun stop stop' => stop'.done = stop.done.map (Request.rename p))
      (order.toList.foldlM (g.compileNode factory input axis) ⟨#[], #[], .empty⟩)
      (counted.toList.foldlM (h.compileNode factory input axis) ⟨#[], #[], .empty⟩) :=
    .foldlM twins_nil horders fun state other id twin hstates hr =>
      compileNode_alike hm hp hdim hr hstates hfactory
  refine hfold.bind fun state other hstates => ?_
  rw [hstates.steps_eq, ofSteps_rename]
  cases Dataflow.ofSteps state.steps input with
  | error e => exact .error (by simp [hstates.requests_eq])
  | ok flow => exact .ok (by simp [Compilation.rename, hstates.requests_eq])

namespace StoredAs

variable (hs : StoredAs p g h)
include hs

theorem isSome_node? (hid : Reaches g.nodes g.root id) :
    (h.node? (p id)).isSome = (g.node? id).isSome := by
  rw [hs.node_eq id hid, Option.isSome_map]

theorem matches_of_isSome (hstored : ∀ id, Reaches g.nodes g.root id → (g.node? id).isSome) :
    Matches (GetsNumber p g) g.nodes h.nodes where
  biUnique := by
    constructor
    · rintro id other twin ⟨hid, heq⟩ ⟨hother, heq'⟩
      exact hs.bijOn.injOn hid hother (heq.trans heq'.symm)
    · rintro id twin other ⟨-, rfl⟩ ⟨-, rfl⟩
      rfl
  node := by
    rintro id twin ⟨hid, rfl⟩
    obtain ⟨n, hn⟩ := Option.isSome_iff_exists.mp (hstored id hid)
    have htwin := hs.node_eq id hid
    rw [hn] at htwin
    refine ⟨n, n.rename p, hn, htwin, (n.kind_rename p).symm, (n.span_rename p).symm, ?_⟩
    rw [Node.sources_rename, List.forall₂_map_right_iff, List.forall₂_same]
    intro source hsource
    exact ⟨hid.tail (refersTo_iff.mpr ⟨n, hn, hsource⟩), rfl⟩

/-- Where one of the walks succeeds, all nodes in reach are stored in both graphs. -/
theorem matches_of_order (horder : (∃ order, g.postOrder = .ok order) ∨
    ∃ counted, h.postOrder = .ok counted) : Matches (GetsNumber p g) g.nodes h.nodes := by
  refine hs.matches_of_isSome fun id hid => ?_
  rcases horder with ⟨order, horder⟩ | ⟨counted, hcounted⟩
  · have hl := listed_of_postOrder horder
    have hlt := hl.settled.lt_size id ((hl.mem_iff id).mpr hid)
    simpa [node?] using hlt
  · have hl := listed_of_postOrder hcounted
    have hlt := hl.settled.lt_size (p id) ((hl.mem_iff (p id)).mpr (hs.bijOn.mapsTo hid))
    rw [← hs.isSome_node? hid]
    simpa [node?] using hlt

theorem orders_alike : Alike (fun order counted => List.Forall₂ (GetsNumber p g) order.toList
    counted.toList) (fun _ _ => True) g.postOrder h.postOrder := by
  by_cases horder : (∃ order, g.postOrder = .ok order) ∨ ∃ counted, h.postOrder = .ok counted
  · exact .of_agree ((hs.matches_of_order horder).postOrder ⟨.refl, hs.root_eq⟩)
  · refine .of_not_ok ?_ ?_
    · intro order hok
      exact horder (.inl ⟨order, hok⟩)
    · intro counted hok
      exact horder (.inr ⟨counted, hok⟩)

end StoredAs

/-- What two graphs that hold the same nodes have in common when they are compiled. -/
structure CompileAlike (p : NodeId → NodeId) (g h : Graph) (factory : Factory Op) (input : Shape)
    (axis : Nat) : Prop where
  orders : Alike (fun order counted => counted.toList = order.toList.map p) (fun _ _ => True)
    g.postOrder h.postOrder
  compilations : Alike (fun r r' => r' = r.rename p)
    (fun stop stop' => stop'.done = stop.done.map (Request.rename p))
    (g.compileWith factory input axis) (h.compileWith factory input axis)

theorem map_eq_of_forall₂ {ids twins : List NodeId}
    (hids : List.Forall₂ (GetsNumber p g) ids twins) : twins = ids.map p := by
  induction hids with
  | nil => rfl
  | cons hid _ ih => rw [List.map_cons, hid.2, ih]

/-- What graphs compile to depends on their nodes and not on how these are stored. -/
theorem compileWith_storedAs (p : NodeId → NodeId) (g h : Graph) (factory : Factory Op)
    (input : Shape) (axis : Nat) (hs : StoredAs p g h) (hfactory : factory.IgnoresNode) :
    CompileAlike p g h factory input axis := by
  have horders := hs.orders_alike
  refine ⟨horders.imp fun order counted => map_eq_of_forall₂, ?_⟩
  rcases Nat.lt_or_ge axis input.rank with haxis | haxis
  · rcases horders.ok_or_error with
      ⟨order, counted, horder, hcounted, hboth⟩ | ⟨e, e', horder, hcounted, -⟩
    · have hm := hs.matches_of_order (.inl ⟨order, horder⟩)
      exact compileWith_alike hm (fun id twin hid => hid.2) hs.dim_eq hfactory haxis horder hcounted
        hboth
    · rw [compileWith_of_postOrder haxis horder, compileWith_of_postOrder haxis hcounted]
      exact .error rfl
  · rw [compileWith_of_axis haxis, compileWith_of_axis haxis]
    exact .error rfl

theorem postOrdered_of_map {ids : List NodeId} (h : g.postOrder.map Roster.toList = .ok ids) :
    PostOrdered g.nodes g.root ids := by
  cases horder : g.postOrder with
  | ok order =>
    rw [horder] at h
    obtain rfl : order.toList = ids := Except.ok.inj h
    exact (listed_of_postOrder horder).postOrdered
  | error e =>
    rw [horder] at h
    cases h

/-- The lists of two walks show that the graphs hold the same nodes. -/
theorem storedAs_of_postOrdered {ids : List NodeId} (hg : PostOrdered g.nodes g.root ids)
    (hh : PostOrdered h.nodes h.root (ids.map p))
    (hnode : ∀ id ∈ ids, h.node? (p id) = (g.node? id).map (Node.rename p))
    (hdim : g.bounds.dim = h.bounds.dim) : StoredAs p g h where
  bijOn := by
    refine ⟨fun id hid => ?_, fun id hid other hother heq => ?_, fun twin htwin => ?_⟩
    · exact (hh.mem_iff _).mp (List.mem_map_of_mem ((hg.mem_iff id).mpr hid))
    · exact List.inj_on_of_nodup_map hh.nodup ((hg.mem_iff id).mpr hid)
        ((hg.mem_iff other).mpr hother) heq
    · obtain ⟨id, hid, rfl⟩ := List.mem_map.mp ((hh.mem_iff twin).mpr htwin)
      exact ⟨id, (hg.mem_iff id).mp hid, rfl⟩
  root_eq := by
    have hlast := hh.last
    rw [List.getLast?_map, hg.last] at hlast
    exact Option.some.inj hlast
  node_eq id hid := hnode id ((hg.mem_iff id).mpr hid)
  dim_eq := hdim

/-- The graph `shuffled` with its sources first, next to a node that refers to a missing one. -/
def sorted : Graph where
  nodes := #[.terminal ⟨0, 2⟩, .or ⟨0, 4⟩ [9], .terminal ⟨2, 4⟩, .and ⟨0, 4⟩ [0, 2, 2, 0],
    .or ⟨0, 4⟩ [3, 3]]
  root := 4
  bounds := { dim := 4 }

def toSorted (id : NodeId) : NodeId := [4, 0, 5, 3, 2].getD id id

theorem compileWith_storedAs_shuffled : StoredAs toSorted shuffled sorted ∧
    ∃ r, shuffled.compileWith (ChannelSplit.bind ⟨4, 4, .sum⟩) ⟨[1, 4]⟩ 1 = .ok r ∧
      sorted.compileWith (ChannelSplit.bind ⟨4, 4, .sum⟩) ⟨[1, 4]⟩ 1 = .ok (r.rename toSorted) := by
  have hg : shuffled.postOrder.map Roster.toList = .ok [1, 4, 3, 0] := by cbv
  have hh : sorted.postOrder.map Roster.toList = .ok ([1, 4, 3, 0].map toSorted) := by cbv
  have hs : StoredAs toSorted shuffled sorted :=
    storedAs_of_postOrdered (postOrdered_of_map hg) (postOrdered_of_map hh) (by decide) rfl
  have hok : (shuffled.compileWith (ChannelSplit.bind ⟨4, 4, .sum⟩)
      ⟨[1, 4]⟩ 1).toOption.isSome = true := by decide +kernel
  have hboth := (compileWith_storedAs toSorted shuffled sorted (ChannelSplit.bind ⟨4, 4, .sum⟩)
    ⟨[1, 4]⟩ 1 hs (ChannelSplit.ignoresNode _)).compilations
  refine ⟨hs, ?_⟩
  rcases hboth.ok_or_error with ⟨r, r', hr, hr', rfl⟩ | ⟨stop, stop', hstop, -⟩
  · exact ⟨r, hr, hr'⟩
  · rw [hstop] at hok
    cases hok

end Graph
end AndOrFlow
