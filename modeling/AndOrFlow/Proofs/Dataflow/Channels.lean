import AndOrFlow.Proofs.Acceptance
import AndOrFlow.Proofs.Dataflow.Binding
import AndOrFlow.Proofs.Dataflow.Steps
import Mathlib.Algebra.BigOperators.Ring.List

/-!
# Compiling to channels

On a graph that validation accepts, a channel split fits or it does not: if it fits, every step gets
the units of its span on the feature axis, and if not, the terminal listed first is refused. That
all later operands fit together is a matter of spans: those of an and-node add up to its own width,
those of an or-node all have it.
-/
namespace AndOrFlow

variable {g : Graph} {c : ChannelSplit} {input : Shape} {axis : Nat} {id : NodeId} {n : Node}
  {order : Roster NodeId} {before after : List NodeId} {state : CompileState UnitOp}
  {operands : List Operand} {b : Binding UnitOp}

namespace Shape

variable {s : Shape} {size other i : Nat}

theorem dim?_withDim_of_ne (h : i ≠ axis) : (s.withDim axis size).dim? i = s.dim? i := by
  rw [dim?, withDim, List.getElem?_set_ne (Ne.symm h)]
  rfl

theorem matchesExcept_withDim (s : Shape) (axis size other : Nat) :
    (s.withDim axis size).MatchesExcept (s.withDim axis other) axis := by
  constructor
  · rw [rank_withDim, rank_withDim]
  · intro i _
    by_cases h : i = axis
    · exact Or.inl h
    · exact Or.inr (by rw [dim?_withDim_of_ne h, dim?_withDim_of_ne h])

end Shape

namespace ChannelSplit

structure Suits (c : ChannelSplit) (dim : Nat) (input : Shape) (axis : Nat) : Prop where
  axis_lt : axis < input.rank
  dvd_in : dim ∣ c.inChannels
  dvd_out : dim ∣ c.outChannels
  dim_eq : input.dim? axis = some c.inChannels

theorem outWidth_eq {dim : Nat} (h : dim ∣ c.outChannels) (s : Span) :
    c.outWidth dim s = s.width * (c.outChannels / dim) := Nat.mul_div_assoc _ h

/-- Where the split fits, only an overflow keeps a terminal from being bound. -/
theorem Suits.bind_terminal_ends {r : Request} (h : c.Suits r.dim input r.axis)
    (hkind : r.kind = .terminal) (hin : r.inputs = [input]) (hdim : 0 < r.dim)
    (hspan : r.span.lo ≤ r.span.hi) :
    Outcome (c.Transforms r input) Failure.Overflows (c.bind r) := by
  apply (ChannelSplit.bind_terminal_ends hkind hin hdim hspan h.axis_lt).imp_error
  intro failure hblocks
  rcases hblocks with hoverflows | ⟨e, hrefusal, -⟩
  · exact hoverflows
  · rw [refusal?_eq_none_iff.mpr ⟨h.dvd_out, h.dvd_in, h.dim_eq⟩] at hrefusal
    cases hrefusal

/-- What a node is bound to: the units of its span on the feature axis, fused from as many if it is
an and-node. -/
structure Fills (c : ChannelSplit) (dim : Nat) (input : Shape) (axis : Nat) (k : Kind) (s : Span)
    (op : UnitOp) (shape : Shape) : Prop where
  shape_eq : shape = input.withDim axis (c.outWidth dim s)
  fuses : k = .and → op = .fuse (c.outWidth dim s) (c.outWidth dim s)
  of_fuse : ∀ inWidth outWidth, op = .fuse inWidth outWidth →
    inWidth = c.outWidth dim s ∧ outWidth = c.outWidth dim s

end ChannelSplit

namespace Graph

/-- A step computes a node of the graph, with the units of the node's span. -/
structure Carries (g : Graph) (c : ChannelSplit) (input : Shape) (axis : Nat) (s : Step UnitOp) :
    Prop where
  node : ∃ n, g.node? s.source = some n ∧ n.kind = s.kind ∧ n.span = s.span
  fills : c.Fills g.bounds.dim input axis s.kind s.span s.op s.shape

structure Compiled (g : Graph) (c : ChannelSplit) (input : Shape) (axis : Nat)
    (before : List NodeId) (state : CompileState UnitOp) : Prop where
  compiled_eq : state.compiled.toList = before
  sources_eq : state.steps.toList.map Step.source = before
  carries : ∀ s ∈ state.steps, g.Carries c input axis s
  reads_lt : ∀ (i : Nat) (s : Step UnitOp), state.steps[i]? = some s → ∀ j ∈ s.reads, j < i

theorem compiled_nil : g.Compiled c input axis [] ⟨#[], #[], .empty⟩ :=
  ⟨rfl, rfl, by simp, by simp⟩

namespace Compiled

theorem size_eq (h : g.Compiled c input axis before state) :
    state.steps.size = state.compiled.size := by
  have hlength := congrArg List.length (h.sources_eq.trans h.compiled_eq.symm)
  simpa [Roster.toList, Roster.size] using hlength

theorem operandShape_eq (h : g.Compiled c input axis before state) (hmem : id ∈ state.compiled)
    (hn : g.node? id = some n) :
    operandShape input state.steps (.step (state.compiled.placeOf id)) =
      input.withDim axis (c.outWidth g.bounds.dim n.span) := by
  obtain ⟨s, hs, hsource⟩ :=
    CompileState.exists_step h.compiled_eq h.sources_eq (Roster.place?_of_mem hmem)
  have hcarries := h.carries s (Array.mem_of_getElem? hs)
  obtain ⟨m, hm, -, hspan⟩ := hcarries.node
  rw [hsource, hn] at hm
  obtain rfl := Option.some.inj hm
  rw [operandShape, hs, Option.map_some, Option.getD_some, hcarries.fills.shape_eq, hspan]

theorem extend (h : g.Compiled c input axis before state) (hn : g.node? id = some n)
    (hnew : id ∉ before) (hreads : ∀ j ∈ operands.filterMap Operand.index?, j < state.steps.size)
    (hfills : c.Fills g.bounds.dim input axis n.kind n.span b.op b.shape) (shapes : List Shape) :
    g.Compiled c input axis (before ++ [id])
      (state.extend ⟨id, n.kind, n.span, g.bounds.dim, axis, shapes⟩ operands b) := by
  constructor
  · exact CompileState.compiled_extend h.compiled_eq hnew _ _
  · exact CompileState.sources_extend h.sources_eq _ _ _
  · intro s hs
    rcases Array.mem_push.mp hs with hs | rfl
    · exact h.carries s hs
    · exact ⟨⟨n, hn, rfl, rfl⟩, hfills⟩
  · intro i s hs
    rw [CompileState.extend, Array.getElem?_push] at hs
    split at hs
    · rename_i hi
      obtain rfl := Option.some.inj hs
      rw [hi]
      exact hreads
    · exact h.reads_lt i s hs

end Compiled

theorem lt_of_mem_operandsAt {compiled : Roster NodeId}
    (h : ∀ source ∈ n.sources, source ∈ compiled) :
    ∀ j ∈ (n.operandsAt compiled.placeOf).filterMap Operand.index?, j < compiled.size := by
  have hplace : ∀ source ∈ n.sources, compiled.placeOf source < compiled.size := by
    intro source hsource
    exact Roster.lt_of_place? (Roster.place?_of_mem (h source hsource))
  intro j hj
  cases n with
  | terminal s => simp [Node.operandsAt, Operand.index?] at hj
  | and s sources | or s sources =>
    simp only [Node.operandsAt, List.mem_filterMap, List.mem_map, exists_exists_and_eq_and,
      Operand.index?, Option.some.injEq] at hj
    obtain ⟨source, hsource, rfl⟩ := hj
    exact hplace source hsource

namespace Proper

theorem sources_ne_nil (hg : g.Proper) (hn : g.node? id = some n) (hkind : n.kind ≠ .terminal) :
    n.sources ≠ [] := by
  intro hnil
  rw [(hg.keeps hn).kind_eq_terminal hnil] at hkind
  exact hkind rfl

theorem outWidth_alternative (hg : g.Proper) (hn : g.node? id = some n)
    (hout : g.bounds.dim ∣ c.outChannels) (hkind : n.kind = .or) : ∀ source ∈ n.sources,
      g.widthAt source * (c.outChannels / g.bounds.dim) = c.outWidth g.bounds.dim n.span := by
  cases n with
  | terminal | and => cases hkind
  | or s alternatives =>
    intro source hsource
    obtain ⟨m, hm, -, hspan⟩ := (hg.keeps hn).2 source hsource
    rw [widthAt_of_node? hm, hspan, ChannelSplit.outWidth_eq hout, Node.span]

variable (hg : g.Proper) (hl : Listed g.nodes g.root order)
include hg hl

theorem dim_pos : 0 < g.bounds.dim := by
  obtain ⟨n, hn, hspan⟩ := hg.exists_root
  have hproper := hg.proper_of_mem hl g.root ((hl.mem_iff _).mpr .refl) n hn
  rwa [hspan] at hproper

theorem node_of_source (hid : id ∈ order) (hn : g.node? id = some n) : ∀ source ∈ n.sources,
    ∃ m, g.node? source = some m ∧ m.span.Proper := by
  intro source hsource
  have hmem : source ∈ order :=
    hl.settled.mem_of_reaches hid (.single (refersTo_iff.mpr ⟨n, hn, hsource⟩))
  have hlt := hl.settled.lt_size source hmem
  have hm : g.node? source = some g.nodes[source] := Array.getElem?_eq_getElem hlt
  exact ⟨_, hm, hg.proper_of_mem hl source hmem _ hm⟩

/-- The operands of an and-node have its own width between them. -/
theorem sum_outWidth (hid : id ∈ order) (hn : g.node? id = some n)
    (hout : g.bounds.dim ∣ c.outChannels) (hkind : n.kind = .and) :
    (n.sources.map fun source => g.widthAt source * (c.outChannels / g.bounds.dim)).sum =
      c.outWidth g.bounds.dim n.span := by
  have hproper : ∀ source ∈ n.sources, ∀ m, g.node? source = some m → m.span.Proper := by
    intro source hsource m hm
    obtain ⟨m', hm', hproper⟩ := hg.node_of_source hl hid hn source hsource
    rw [hm] at hm'
    obtain rfl := Option.some.inj hm'
    exact hproper
  cases n with
  | terminal | or => cases hkind
  | and s children =>
    have hsum := (hg.keeps hn).2.sum_width hproper
    have hwidth : ((Node.and s children).sources.map g.widthAt).sum = s.width := by
      rw [Node.sources, Span.width]
      omega
    rw [List.sum_map_mul_right, hwidth, ChannelSplit.outWidth_eq hout, Node.span]

end Proper

theorem requestFor_terminal {s : Span} (hn : g.node? id = some (.terminal s)) :
    g.requestFor input axis state id =
      .ok (⟨id, .terminal, s, g.bounds.dim, axis, [input]⟩, [.input]) := by
  apply requestFor_eq hn
  · simp [Node.sources]
  · rfl
  · intro first _ other _
    trivial

theorem Compiled.sources_mem (hstate : g.Compiled c input axis before state)
    (hl : Listed g.nodes g.root order) (horder : order.toList = before ++ id :: after)
    (hn : g.node? id = some n) : ∀ source ∈ n.sources, source ∈ state.compiled := by
  intro source hsource
  rw [← Roster.mem_toList, hstate.compiled_eq]
  exact hl.settled.sources_before before id after horder source (refersTo_iff.mpr ⟨n, hn, hsource⟩)

section

variable (hg : g.Proper) (hl : Listed g.nodes g.root order)
  (horder : order.toList = before ++ id :: after) (hn : g.node? id = some n)
  (hstate : g.Compiled c input axis before state) (hsuits : c.Suits g.bounds.dim input axis)
include hg hl horder hn hstate hsuits

theorem requestFor_inner (hkind : n.kind ≠ .terminal) :
    g.requestFor input axis state id = .ok (⟨id, n.kind, n.span, g.bounds.dim, axis,
      (n.sources.map fun source => g.widthAt source * (c.outChannels / g.bounds.dim)).map
        (input.withDim axis)⟩, n.operandsAt state.compiled.placeOf) := by
  have hid : id ∈ order := Roster.mem_toList.mp (by simp [horder])
  have hsources := hstate.sources_mem hl horder hn
  have hshape : ∀ source ∈ n.sources,
      operandShape input state.steps (.step (state.compiled.placeOf source)) =
        input.withDim axis (g.widthAt source * (c.outChannels / g.bounds.dim)) := by
    intro source hsource
    obtain ⟨m, hm, -⟩ := hg.node_of_source hl hid hn source hsource
    rw [hstate.operandShape_eq (hsources source hsource) hm, widthAt_of_node? hm,
      ChannelSplit.outWidth_eq hsuits.dvd_out]
  apply requestFor_eq hn hsources
  · cases n with
    | terminal s => exact absurd rfl hkind
    | and s sources | or s sources =>
      rw [Node.operandsAt, List.map_map, List.map_map]
      exact List.map_congr_left hshape
  · intro first hfirst other hother
    simp only [List.map_map, List.mem_map, Function.comp_apply] at hfirst hother
    obtain ⟨source, hsource, rfl⟩ := hfirst
    obtain ⟨source', hsource', rfl⟩ := hother
    cases hk : n.kind with
    | terminal => trivial
    | and => exact Shape.matchesExcept_withDim _ _ _ _
    | or =>
      have hwidth := hg.outWidth_alternative hn hsuits.dvd_out hk
      rw [hwidth source hsource, hwidth source' hsource']
      exact rfl

/-- Where the split fits, a node whose sources are compiled is bound to the units of its span. -/
theorem bind_fills : ∃ shapes operands,
    g.requestFor input axis state id =
      .ok (⟨id, n.kind, n.span, g.bounds.dim, axis, shapes⟩, operands) ∧
    (∀ j ∈ operands.filterMap Operand.index?, j < state.steps.size) ∧
    Outcome (fun b => c.Fills g.bounds.dim input axis n.kind n.span b.op b.shape)
      Failure.Overflows (c.bind ⟨id, n.kind, n.span, g.bounds.dim, axis, shapes⟩) := by
  have hid : id ∈ order := Roster.mem_toList.mp (by simp [horder])
  have hdim := hg.dim_pos hl
  have hspan := Nat.le_of_lt (hg.proper_of_mem hl id hid n hn)
  have hreads := lt_of_mem_operandsAt (hstate.sources_mem hl horder hn)
  rw [← hstate.size_eq] at hreads
  cases hkind : n.kind with
  | terminal =>
    obtain ⟨s, rfl⟩ : ∃ s, n = .terminal s := by
      cases n with
      | terminal s => exact ⟨s, rfl⟩
      | and | or => cases hkind
    refine ⟨_, _, requestFor_terminal hn, by simp [Operand.index?], ?_⟩
    apply Outcome.imp (hsuits.bind_terminal_ends rfl rfl hdim hspan)
    intro b hb
    exact ⟨hb.shape_eq, by simp, by simp [hb.op_eq]⟩
  | and =>
    have hne : n.kind ≠ .terminal := by simp [hkind]
    have hrequest := requestFor_inner hg hl horder hn hstate hsuits hne
    rw [hkind] at hrequest
    refine ⟨_, _, hrequest, hreads, ?_⟩
    apply Outcome.imp (ChannelSplit.bind_and_ends rfl
      (by simpa using hg.sources_ne_nil hn hne) hsuits.axis_lt hdim hspan hsuits.dvd_out rfl)
    intro b hb
    obtain ⟨hop, hshape⟩ := hb
    rw [hg.sum_outWidth hl hid hn hsuits.dvd_out hkind] at hop
    exact ⟨hshape, fun _ => hop, by simp [hop]⟩
  | or =>
    have hne : n.kind ≠ .terminal := by simp [hkind]
    have hrequest := requestFor_inner hg hl horder hn hstate hsuits hne
    rw [hkind] at hrequest
    refine ⟨_, _, hrequest, hreads, ?_⟩
    apply Outcome.imp (ChannelSplit.bind_or_ends rfl
      (by simpa using hg.sources_ne_nil hn hne) hsuits.axis_lt hdim hspan hsuits.dvd_out rfl
      (by simpa using hg.outWidth_alternative hn hsuits.dvd_out hkind))
    intro b hb
    exact ⟨hb.2, by simp, by simp [hb.1]⟩

theorem compileNode_compiled : Outcome (g.Compiled c input axis (before ++ [id]))
    (fun stop => stop.failure.Overflows) (g.compileNode c.bind input axis state id) := by
  obtain ⟨shapes, operands, hrequest, hreads, hbind⟩ :=
    bind_fills hg hl horder hn hstate hsuits
  have hnew : id ∉ before := by
    have hnodup := order.nodup_toList
    rw [horder] at hnodup
    exact List.nodup_middle.mp hnodup |>.notMem ∘ List.mem_append_left after
  apply Outcome.imp_error (Outcome.imp (compileNode_ends hrequest rfl hbind) fun next hnext => ?_)
  · intro stop hstop
    exact hstop.1
  · obtain ⟨b, hfills, rfl⟩ := hnext
    exact hstate.extend hn hnew hreads hfills shapes

end

theorem foldlM_compiled (hg : g.Proper) (hl : Listed g.nodes g.root order)
    (hsuits : c.Suits g.bounds.dim input axis) (horder : order.toList = before ++ after)
    (hstate : g.Compiled c input axis before state) :
    Outcome (g.Compiled c input axis order.toList) (fun stop => stop.failure.Overflows)
      (after.foldlM (g.compileNode c.bind input axis) state) := by
  induction after generalizing before state with
  | nil =>
    rw [List.append_nil] at horder
    rw [horder]
    exact hstate
  | cons id rest ih =>
    have hid : id ∈ order := Roster.mem_toList.mp (by simp [horder])
    have hlt := hl.settled.lt_size id hid
    have hn : g.node? id = some g.nodes[id] := Array.getElem?_eq_getElem hlt
    rw [List.foldlM_cons]
    refine (compileNode_compiled hg hl horder hn hstate hsuits).bind fun next hnext => ?_
    apply ih _ hnext
    rw [horder, List.append_assoc, List.singleton_append]

/-- What a split that fits a graph and an input compiles to: a step for every node that the root
reaches, with the units of the node's span, and all output channels in the end. -/
structure Renders (g : Graph) (c : ChannelSplit) (input : Shape) (axis : Nat)
    (r : Compilation UnitOp) : Prop where
  sources_eq : ∃ order, g.postOrder = .ok order ∧
    r.flow.steps.toList.map Step.source = order.toList
  carries : ∀ s ∈ r.flow.steps, g.Carries c input axis s
  outputShape_eq : r.flow.outputShape? = some (input.withDim axis c.outChannels)

theorem Compiled.outputShape (h : g.Compiled c input axis order.toList state) (hg : g.Proper)
    (hl : Listed g.nodes g.root order) :
    state.steps.back?.map Step.shape = some (input.withDim axis c.outChannels) := by
  have hlast := hl.last
  rw [← h.sources_eq, List.getLast?_map, Option.map_eq_some_iff] at hlast
  obtain ⟨s, hs, hsource⟩ := hlast
  have hcarries := h.carries s (Array.mem_toList_iff.mp (List.mem_of_getLast? hs))
  obtain ⟨n, hn, -, hspan⟩ := hcarries.node
  obtain ⟨m, hm, hroot⟩ := hg.exists_root
  rw [hsource, hm] at hn
  obtain rfl := Option.some.inj hn
  have hwidth : c.outWidth g.bounds.dim s.span = c.outChannels := by
    rw [← hspan, hroot]
    exact Nat.mul_div_cancel_left _ (hg.dim_pos hl)
  rw [← Array.getLast?_toList, hs, Option.map_some, hcarries.fills.shape_eq, hwidth]

theorem compileWith_renders (hg : g.Proper) (hsuits : c.Suits g.bounds.dim input axis) :
    Outcome (g.Renders c input axis) (fun stop => stop.failure.Overflows)
      (g.compileWith c.bind input axis) := by
  obtain ⟨order, horder, hl⟩ := hg.exists_order
  rw [compileWith_eq hsuits.axis_lt horder]
  refine (foldlM_compiled hg hl hsuits (List.nil_append _).symm compiled_nil).bind
    fun state hstate => ?_
  obtain ⟨flow, hflow, hsteps⟩ := Dataflow.exists_ofSteps input hstate.reads_lt
  rw [hflow]
  have hcarries : ∀ s ∈ flow.steps, g.Carries c input axis s := hsteps ▸ hstate.carries
  refine ⟨⟨order, horder, hsteps ▸ hstate.sources_eq⟩, hcarries, ?_⟩
  rw [Dataflow.outputShape?, hsteps]
  exact hstate.outputShape hg hl

/-- The first node listed is a terminal, and compiling ends with the refusal of its request, which
is the only one made. -/
def RefusesFirst (g : Graph) (c : ChannelSplit) (input : Shape) (axis : Nat) : Prop :=
  ∃ order id s e, g.postOrder = .ok order ∧ order.toList.head? = some id ∧
    g.node? id = some (.terminal s) ∧
    let request : Request := ⟨id, .terminal, s, g.bounds.dim, axis, [input]⟩
    c.refusal? request input = some e ∧ c.bind request = .error (.error e) ∧
      g.compileWith c.bind input axis = .error ⟨.error e, [request]⟩

theorem refusesFirst_of_not_suits (hg : g.Proper) (haxis : axis < input.rank)
    (hnot : ¬ c.Suits g.bounds.dim input axis)
    (hwords : ∀ stop, g.compileWith c.bind input axis = .error stop → ¬ stop.failure.Overflows) :
    g.RefusesFirst c input axis := by
  obtain ⟨order, horder, hl⟩ := hg.exists_order
  obtain ⟨id, s, rest, hlist, hn⟩ := hg.exists_terminal_first hl
  have hid : id ∈ order := Roster.mem_toList.mp (by simp [hlist])
  have hspan := Nat.le_of_lt (hg.proper_of_mem hl id hid _ hn)
  let request : Request := ⟨id, .terminal, s, g.bounds.dim, axis, [input]⟩
  have hbind : Outcome (c.Transforms request input) (c.Blocks request input) (c.bind request) :=
    ChannelSplit.bind_terminal_ends rfl rfl (hg.dim_pos hl) hspan haxis
  cases hanswer : c.bind request with
  | ok b =>
    rw [hanswer] at hbind
    obtain ⟨hout, hin, hdim⟩ := ChannelSplit.refusal?_eq_none_iff.mp hbind.accepted
    exact absurd ⟨haxis, hin, hout, hdim⟩ hnot
  | error failure =>
    have hends : Outcome (fun _ => False) (· = failure) (c.bind request) := by
      rw [hanswer]
      exact rfl
    have hcompile : g.compileWith c.bind input axis = .error ⟨failure, [request]⟩ := by
      have hrequest : g.requestFor input axis (⟨#[], #[], .empty⟩ : CompileState UnitOp) id =
          .ok (request, [.input]) := requestFor_terminal hn
      rw [compileWith_eq haxis horder, hlist, List.foldlM_cons]
      rcases (compileNode_ends hrequest rfl hends).ok_or_error with
        ⟨next, -, b, hfalse, -⟩ | ⟨stop, hstop, hfailure, hdone⟩
      · exact hfalse.elim
      · rw [hstop, ← hfailure]
        obtain ⟨_, done⟩ := stop
        obtain rfl : done = [request] := hdone
        rfl
    rw [hanswer] at hbind
    rcases hbind with hoverflows | ⟨e, hrefusal, rfl⟩
    · exact absurd hoverflows (hwords _ hcompile)
    · exact ⟨order, id, s, e, horder, by rw [hlist, List.head?_cons], hn, hrefusal, hanswer,
        hcompile⟩

/-- An accepted graph, such as one that is built, compiles with a channel split just when that fits
the domain and the input; how wide every step is follows from its span, and what does not fit is
refused at the first request. -/
theorem compileWith_channelSplit (g : Graph) (c : ChannelSplit) (input : Shape) (axis : Nat)
    (hg : g.Proper ∨ ∃ b, Graph.build b = .ok g)
    (hwords : ∀ stop, g.compileWith c.bind input axis = .error stop → ¬ stop.failure.Overflows) :
    ((∃ r, g.compileWith c.bind input axis = .ok r) ↔ c.Suits g.bounds.dim input axis) ∧
      (∀ r, g.compileWith c.bind input axis = .ok r → g.Renders c input axis r) ∧
      (axis < input.rank → ¬ c.Suits g.bounds.dim input axis → g.RefusesFirst c input axis) := by
  have hproper : g.Proper := by
    rcases hg with hg | ⟨b, hb⟩
    · exact hg
    · exact proper_of_build hb
  have hrefuses : axis < input.rank → ¬ c.Suits g.bounds.dim input axis →
      g.RefusesFirst c input axis := fun haxis hnot =>
    refusesFirst_of_not_suits hproper haxis hnot hwords
  have hsuits : ∀ r, g.compileWith c.bind input axis = .ok r →
      c.Suits g.bounds.dim input axis := by
    intro r hr
    by_contra hnot
    by_cases haxis : axis < input.rank
    · obtain ⟨order, id, s, e, -, -, -, -, -, herror⟩ := hrefuses haxis hnot
      rw [hr] at herror
      cases herror
    · rw [compileWith, if_pos (Nat.le_of_not_lt haxis)] at hr
      cases hr
  have hrenders : c.Suits g.bounds.dim input axis →
      ∃ r, g.compileWith c.bind input axis = .ok r ∧ g.Renders c input axis r := by
    intro h
    rcases (compileWith_renders hproper h).ok_or_error with hok | ⟨stop, hstop, hoverflows⟩
    · exact hok
    · exact absurd hoverflows (hwords stop hstop)
  refine ⟨⟨fun ⟨r, hr⟩ => hsuits r hr, fun h => ?_⟩, fun r hr => ?_, hrefuses⟩
  · obtain ⟨r, hr, -⟩ := hrenders h
    exact ⟨r, hr⟩
  · obtain ⟨r', hr', hexact⟩ := hrenders (hsuits r hr)
    rw [hr] at hr'
    obtain rfl := Except.ok.inj hr'
    exact hexact

/-- Two positions, as one leaf or as two. -/
def halves : Graph where
  nodes := #[.terminal ⟨0, 1⟩, .terminal ⟨1, 2⟩, .and ⟨0, 2⟩ [0, 1], .terminal ⟨0, 2⟩,
    .or ⟨0, 2⟩ [3, 2]]
  root := 4
  bounds := { dim := 2 }

/-- Four channels split into two units and are taken to six; three do not split. -/
theorem compileWith_channelSplit_halves : halves.Proper ∧
    (∃ r, halves.compileWith (ChannelSplit.bind ⟨4, 6, .concatReduce⟩) ⟨[1, 4]⟩ 1 = .ok r ∧
      halves.Renders ⟨4, 6, .concatReduce⟩ ⟨[1, 4]⟩ 1 r) ∧
    halves.RefusesFirst ⟨3, 6, .sum⟩ ⟨[1, 3]⟩ 1 := by
  have hproper : halves.Proper := ⟨by decide +kernel, by decide⟩
  refine ⟨hproper, ?_, ?_⟩
  · have hok : (halves.compileWith (ChannelSplit.bind ⟨4, 6, .concatReduce⟩)
        ⟨[1, 4]⟩ 1).toOption.isSome = true := by decide +kernel
    cases hrun : halves.compileWith (ChannelSplit.bind ⟨4, 6, .concatReduce⟩) ⟨[1, 4]⟩ 1 with
    | error stop => simp [hrun, Except.toOption] at hok
    | ok r =>
      have hwords : ∀ stop, halves.compileWith (ChannelSplit.bind ⟨4, 6, .concatReduce⟩)
          ⟨[1, 4]⟩ 1 = .error stop → ¬ stop.failure.Overflows := by simp [hrun]
      exact ⟨r, rfl, (compileWith_channelSplit halves _ _ _ (Or.inl hproper) hwords).2.1 r hrun⟩
  · have hrun : halves.compileWith (ChannelSplit.bind ⟨3, 6, .sum⟩) ⟨[1, 3]⟩ 1 =
        .error ⟨.error (.operator 3 "3 channels do not split into 2 units"),
          [⟨3, .terminal, ⟨0, 2⟩, 2, 1, [⟨[1, 3]⟩]⟩]⟩ := by cbv
    have hwords : ∀ stop, halves.compileWith (ChannelSplit.bind ⟨3, 6, .sum⟩) ⟨[1, 3]⟩ 1 =
        .error stop → ¬ stop.failure.Overflows := by
      intro stop hstop
      rw [hrun] at hstop
      obtain rfl := Except.error.inj hstop
      exact id
    have hnot : ¬ ChannelSplit.Suits ⟨3, 6, .sum⟩ halves.bounds.dim ⟨[1, 3]⟩ 1 := by
      intro h
      exact absurd h.dvd_in (by decide)
    exact (compileWith_channelSplit halves _ _ _ (Or.inl hproper) hwords).2.2 (by decide) hnot

end Graph
end AndOrFlow
