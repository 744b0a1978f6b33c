import AndOrFlow.Proofs.Dataflow.Channels
import AndOrFlow.Proofs.Dataflow.Refinement
import AndOrFlow.Proofs.Derivation

/-!
# Composition of channels

A descent through a dataflow graph starts at the output. It enters all operands of a step that
fuses, from left to right, and one operand of a step that combines, chosen anew at every visit, and
it ends at transforms of slices of the input. Where a channel split compiles an accepted graph, the
descents are the derivations of the graph, with every leaf scaled to its units. So whatever is
chosen, the slices that are met tile the input channels and yield all output channels.
-/
namespace AndOrFlow

/-- Input channels `[lo, hi)` and how many output channels they are taken to. -/
structure Slice where
  lo : Nat
  hi : Nat
  outWidth : Nat
  deriving DecidableEq

/-- From the position on, the slices take the channels below `hi`, each where the one before it
ends. -/
def Slice.Tile (hi : Nat) : Nat → List Slice → Prop
  | position, [] => position = hi
  | position, slice :: rest =>
    slice.lo = position ∧ slice.lo ≤ slice.hi ∧ Tile hi slice.hi rest

namespace Dataflow

mutual

/-- Some descent from the operand meets these slices, from left to right. -/
inductive Meets (flow : Dataflow UnitOp) : Operand → List Slice → Prop
  | input : Meets flow .input []
  | transform {i lo hi outWidth : Nat} {s : Step UnitOp} (hs : flow.step? i = some s)
      (hop : s.op = .transform lo hi outWidth) : Meets flow (.step i) [⟨lo, hi, outWidth⟩]
  | fuse {i inWidth outWidth : Nat} {s : Step UnitOp} {slices : List Slice}
      (hs : flow.step? i = some s) (hop : s.op = .fuse inWidth outWidth)
      (h : MeetsEach flow s.inputs slices) : Meets flow (.step i) slices
  | combine {i arity width : Nat} {rule : CombineRule} {s : Step UnitOp} {operand : Operand}
      {slices : List Slice} (hs : flow.step? i = some s) (hop : s.op = .combine rule arity width)
      (hmem : operand ∈ s.inputs) (h : Meets flow operand slices) : Meets flow (.step i) slices

/-- Descents from the operands, one after the other, meet these slices between them. -/
inductive MeetsEach (flow : Dataflow UnitOp) : List Operand → List Slice → Prop
  | nil : MeetsEach flow [] []
  | cons {operand : Operand} {operands : List Operand} {slices more : List Slice}
      (h : Meets flow operand slices) (hrest : MeetsEach flow operands more) :
      MeetsEach flow (operand :: operands) (slices ++ more)

end

def Yields (flow : Dataflow UnitOp) (id : NodeId) (operand : Operand) : Prop :=
  ∃ i s, operand = .step i ∧ flow.step? i = some s ∧ s.source = id

end Dataflow

variable {g : Graph} {c : ChannelSplit} {input : Shape} {axis dim i : Nat} {n : Node}
  {flow : Dataflow UnitOp} {s : Step UnitOp} {r : Compilation UnitOp} {request : Request}
  {b : Binding UnitOp} {bounds : Bounds} {lo hi : Nat} {spans : List Span}

namespace ChannelSplit

def sliceOf (c : ChannelSplit) (dim : Nat) (s : Span) : Slice where
  lo := s.lo * (c.inChannels / dim)
  hi := s.hi * (c.inChannels / dim)
  outWidth := c.outWidth dim s

@[simp] theorem sliceOf_outWidth (c : ChannelSplit) (dim : Nat) (s : Span) :
    (c.sliceOf dim s).outWidth = c.outWidth dim s := rfl

theorem sliceOf_domain (c : ChannelSplit) (hdim : 0 < dim) (hin : dim ∣ c.inChannels) :
    c.sliceOf dim ⟨0, dim⟩ = ⟨0, c.inChannels, c.outChannels⟩ := by
  rw [sliceOf, outWidth, Nat.zero_mul, Nat.mul_div_cancel' hin, Nat.sub_zero,
    Nat.mul_div_cancel_left _ hdim]

theorem tile_slices (c : ChannelSplit) (dim : Nat) (h : bounds.Tiles hi lo spans) :
    Slice.Tile (hi * (c.inChannels / dim)) (lo * (c.inChannels / dim))
      (spans.map (c.sliceOf dim)) := by
  induction h with
  | done => exact rfl
  | next hlt _ _ ih => exact ⟨rfl, Nat.mul_le_mul_right _ (Nat.le_of_lt hlt), ih⟩

theorem sum_slices (hout : dim ∣ c.outChannels) (h : bounds.Tiles hi lo spans) :
    lo * (c.outChannels / dim) + ((spans.map (c.sliceOf dim)).map Slice.outWidth).sum =
      hi * (c.outChannels / dim) := by
  induction h with
  | done => simp
  | @next lo mid rest hlt _ _ ih =>
    have hwidth : lo + (mid - lo) = mid := Nat.add_sub_of_le (Nat.le_of_lt hlt)
    rw [List.map_cons, List.map_cons, List.sum_cons, sliceOf, outWidth_eq hout, Span.width,
      ← Nat.add_assoc, ← Nat.add_mul, hwidth]
    exact ih

theorem proper_slices (hpos : 0 < c.inChannels / dim) (h : bounds.Tiles hi lo spans) :
    ∀ slice ∈ spans.map (c.sliceOf dim), slice.lo < slice.hi := by
  induction h with
  | done => simp
  | next hlt _ _ ih =>
    exact List.forall_mem_cons.mpr ⟨Nat.mul_lt_mul_of_pos_right hlt hpos, ih⟩

theorem op_of_bindAnd {shape : Shape} {outWidth count : Nat}
    (h : bindAnd request shape outWidth count = .ok b) :
    ∃ inWidth, b.op = .fuse inWidth outWidth := by
  unfold bindAnd at h
  obtain ⟨inWidth, -, h⟩ := bind_eq_ok_iff.mp h
  obtain ⟨params, -, h⟩ := bind_eq_ok_iff.mp h
  obtain ⟨cost, -, h⟩ := bind_eq_ok_iff.mp h
  cases h
  exact ⟨inWidth, rfl⟩

theorem op_of_bindOr {first shape : Shape} {outWidth count : Nat}
    (h : c.bindOr request first shape outWidth count = .ok b) :
    ∃ width, b.op = .combine c.rule request.inputs.length width := by
  unfold bindOr at h
  obtain ⟨width, -, h⟩ := bind_eq_ok_iff.mp h
  obtain ⟨_, -, h⟩ := bind_eq_ok_iff.mp h
  obtain ⟨charged, -, h⟩ := bind_eq_ok_iff.mp h
  cases h
  exact ⟨width, rfl⟩

/-- The operator of an and-node fuses, and that of an or-node combines. -/
theorem op_of_bind (h : c.bind request = .ok b) :
    (request.kind = .and → ∃ inWidth outWidth, b.op = .fuse inWidth outWidth) ∧
      (request.kind = .or → ∃ rule arity width, b.op = .combine rule arity width) := by
  unfold bind at h
  obtain ⟨length, -, h⟩ := bind_eq_ok_iff.mp h
  obtain ⟨unit, -, h⟩ := bind_eq_ok_iff.mp h
  obtain ⟨outWidth, -, h⟩ := bind_eq_ok_iff.mp h
  obtain ⟨first, -, h⟩ := bind_eq_ok_iff.mp h
  obtain ⟨count, -, h⟩ := bind_eq_ok_iff.mp h
  constructor
  · intro hkind
    rw [hkind] at h
    obtain ⟨inWidth, hop⟩ := op_of_bindAnd h
    exact ⟨inWidth, outWidth, hop⟩
  · intro hkind
    rw [hkind] at h
    obtain ⟨width, hop⟩ := op_of_bindOr h
    exact ⟨_, _, width, hop⟩

theorem op_of_bind_terminal (h : c.bind request = .ok b) (hkind : request.kind = .terminal)
    (hin : request.inputs = [input]) (hdim : 0 < request.dim) (hspan : request.span.Proper)
    (haxis : request.axis < input.rank) :
    b.op = .transform (request.span.lo * (c.inChannels / request.dim))
      (request.span.hi * (c.inChannels / request.dim)) (c.outWidth request.dim request.span) := by
  have hends : Outcome (c.Transforms request input) (c.Blocks request input) (c.bind request) :=
    bind_terminal_ends hkind hin hdim (Nat.le_of_lt hspan) haxis
  rw [h] at hends
  exact hends.op_eq

/-- The step does to its operands what the node does to its sources. -/
inductive Realizes (c : ChannelSplit) (dim : Nat) (flow : Dataflow UnitOp) (s : Step UnitOp) :
    Node → Prop
  | terminal {span : Span} (hop : s.op = .transform (span.lo * (c.inChannels / dim))
      (span.hi * (c.inChannels / dim)) (c.outWidth dim span)) :
      Realizes c dim flow s (.terminal span)
  | and {span : Span} {children : List NodeId} {inWidth outWidth : Nat}
      (hop : s.op = .fuse inWidth outWidth) (hinputs : List.Forall₂ flow.Yields children s.inputs) :
      Realizes c dim flow s (.and span children)
  | or {span : Span} {alternatives : List NodeId} {rule : CombineRule} {arity width : Nat}
      (hop : s.op = .combine rule arity width)
      (hinputs : List.Forall₂ flow.Yields alternatives s.inputs) :
      Realizes c dim flow s (.or span alternatives)

namespace Realizes

variable {outWidth inWidth arity width : Nat} {rule : CombineRule}

theorem of_transform (h : c.Realizes dim flow s n) (hop : s.op = .transform lo hi outWidth) :
    ∃ span, n = .terminal span ∧ ⟨lo, hi, outWidth⟩ = c.sliceOf dim span := by
  cases h with
  | terminal hop' =>
    cases hop.symm.trans hop'
    exact ⟨_, rfl, rfl⟩
  | and hop' | or hop' => cases hop.symm.trans hop'

theorem of_fuse (h : c.Realizes dim flow s n) (hop : s.op = .fuse inWidth outWidth) :
    ∃ span children, n = .and span children ∧ List.Forall₂ flow.Yields children s.inputs := by
  cases h with
  | and hop' hinputs => exact ⟨_, _, rfl, hinputs⟩
  | terminal hop' | or hop' => cases hop.symm.trans hop'

theorem of_combine (h : c.Realizes dim flow s n) (hop : s.op = .combine rule arity width) :
    ∃ span alternatives, n = .or span alternatives ∧
      List.Forall₂ flow.Yields alternatives s.inputs := by
  cases h with
  | or hop' hinputs => exact ⟨_, _, rfl, hinputs⟩
  | terminal hop' | and hop' => cases hop.symm.trans hop'

end Realizes
end ChannelSplit

namespace Graph

/-- Every step realizes a node that the root reaches, over its span, and the last one the root. -/
structure RealizedBy (g : Graph) (c : ChannelSplit) (flow : Dataflow UnitOp) : Prop where
  reaches : ∀ i s, flow.step? i = some s → Reaches g.nodes g.root s.source
  realizes : ∀ i s, flow.step? i = some s → ∃ n, g.node? s.source = some n ∧ s.span = n.span ∧
    c.Realizes g.bounds.dim flow s n
  output : ∃ i s, flow.output? = some i ∧ flow.step? i = some s ∧ s.source = g.root

/-- A step reads what its node refers to, and its operator is that of the node's kind. -/
theorem Computes.realizes (h : g.Computes c.bind input axis flow.steps i s n request)
    (haxis : axis < input.rank) (hdim : 0 < g.bounds.dim) (hproper : n.span.Proper) :
    c.Realizes g.bounds.dim flow s n := by
  have hinputs : n.kind ≠ .terminal → List.Forall₂ flow.Yields n.sources s.inputs := by
    intro hkind
    apply (h.reads.inner hkind).imp
    intro source operand hreads
    obtain ⟨j, t, hoperand, -, ht, hsource⟩ := hreads
    exact ⟨j, t, hoperand, ht, hsource⟩
  have hbound := h.bound
  rw [h.request_eq] at hbound
  cases n with
  | terminal span =>
    rw [h.reads.terminal rfl] at hbound
    exact .terminal (ChannelSplit.op_of_bind_terminal hbound rfl rfl hdim hproper haxis)
  | and span children =>
    obtain ⟨inWidth, outWidth, hop⟩ := (ChannelSplit.op_of_bind hbound).1 rfl
    exact .and hop (hinputs (by simp [Node.kind]))
  | or span alternatives =>
    obtain ⟨rule, arity, width, hop⟩ := (ChannelSplit.op_of_bind hbound).2 rfl
    exact .or hop (hinputs (by simp [Node.kind]))

theorem axis_lt_of_compileWith {factory : Factory UnitOp}
    (h : g.compileWith factory input axis = .ok r) : axis < input.rank := by
  by_contra haxis
  rw [compileWith, if_pos (Nat.le_of_not_lt haxis)] at h
  cases h

theorem realizedBy_of_compileWith (hg : g.Proper)
    (h : g.compileWith c.bind input axis = .ok r) : g.RealizedBy c r.flow := by
  obtain ⟨order, state, horder, hfold, hsteps, -⟩ := compileWith_eq_ok h
  have hl := listed_of_postOrder horder
  have hemits : g.Emits c.bind input axis order.toList state :=
    emits_foldlM emits_nil order.nodup_toList hfold
  have hmem : ∀ (i : Nat) s, state.steps[i]? = some s → s.source ∈ order := by
    intro i s hs
    rw [← Roster.mem_toList, ← hemits.sources_eq]
    exact List.mem_map_of_mem (Array.mem_toList_iff.mpr (Array.mem_of_getElem? hs))
  constructor
  · intro i s hs
    rw [Dataflow.step?, hsteps] at hs
    exact (hl.mem_iff _).mp (hmem i s hs)
  · intro i s hs
    rw [Dataflow.step?, hsteps] at hs
    obtain ⟨n, request, hn, -, hcomputes⟩ := hemits.computes i s hs
    rw [← hsteps] at hcomputes
    refine ⟨n, hn, hcomputes.span_eq, ?_⟩
    apply hcomputes.realizes (axis_lt_of_compileWith h) (hg.dim_pos hl)
    exact hg.proper_of_mem hl _ (hmem i s hs) n hn
  · obtain ⟨s, hs, hsource⟩ := hemits.exists_last hl.last
    rw [← hsteps] at hs
    have hpos : r.flow.size ≠ 0 := Nat.ne_zero_of_lt (Array.getElem?_eq_some_iff.mp hs).1
    exact ⟨r.flow.size - 1, s, if_neg hpos, hs, hsource⟩

/-- A split that compiles fits: else the terminal listed first is refused. -/
theorem suits_of_compileWith (hg : g.Proper) (h : g.compileWith c.bind input axis = .ok r) :
    c.Suits g.bounds.dim input axis := by
  by_contra hnot
  -- Nothing overflows in a run that does not stop.
  have hwords : ∀ stop, g.compileWith c.bind input axis = .error stop →
      ¬ stop.failure.Overflows := by simp [h]
  obtain ⟨_, _, _, _, -, -, -, -, -, herror⟩ :=
    refusesFirst_of_not_suits hg (axis_lt_of_compileWith h) hnot hwords
  rw [h] at herror
  cases herror

theorem RealizedBy.of_yields (hflow : g.RealizedBy c flow) {id : NodeId}
    (hid : flow.Yields id (.step i)) (hs : flow.step? i = some s) :
    ∃ n, g.node? id = some n ∧ c.Realizes g.bounds.dim flow s n := by
  obtain ⟨j, t, hstep, ht, rfl⟩ := hid
  cases hstep
  cases hs.symm.trans ht
  obtain ⟨n, hn, -, hrealizes⟩ := hflow.realizes i s hs
  exact ⟨n, hn, hrealizes⟩

theorem RealizedBy.of_node (hflow : g.RealizedBy c flow) {id : NodeId} {operand : Operand}
    (hid : flow.Yields id operand) (hn : g.node? id = some n) :
    ∃ i s, operand = .step i ∧ flow.step? i = some s ∧ c.Realizes g.bounds.dim flow s n := by
  obtain ⟨i, s, hstep, hs, rfl⟩ := hid
  obtain ⟨n', hn', -, hrealizes⟩ := hflow.realizes i s hs
  cases hn.symm.trans hn'
  exact ⟨i, s, hstep, hs, hrealizes⟩

mutual

/-- A descent from a step makes the choices of some derivation of its node. -/
theorem RealizedBy.exists_derives (hflow : g.RealizedBy c flow) {id : NodeId} {operand : Operand}
    {slices : List Slice} (hid : flow.Yields id operand) : flow.Meets operand slices →
      ∃ spans, g.Derives id spans ∧ slices = spans.map (c.sliceOf g.bounds.dim)
  | .input => by
    -- A descent enters steps only: no inner node reads the graph input.
    obtain ⟨i, s, hstep, -⟩ := hid
    cases hstep
  | .transform hs hop => by
    obtain ⟨n, hn, hrealizes⟩ := hflow.of_yields hid hs
    obtain ⟨span, rfl, hslice⟩ := hrealizes.of_transform hop
    exact ⟨[span], .terminal hn, by rw [List.map_singleton, hslice]⟩
  | .fuse hs hop heach => by
    obtain ⟨n, hn, hrealizes⟩ := hflow.of_yields hid hs
    obtain ⟨span, children, rfl, hinputs⟩ := hrealizes.of_fuse hop
    obtain ⟨spans, hderives, hslices⟩ := hflow.exists_derivesEach hinputs heach
    exact ⟨spans, .and hn hderives, hslices⟩
  | .combine hs hop hmem hmeets => by
    obtain ⟨n, hn, hrealizes⟩ := hflow.of_yields hid hs
    obtain ⟨span, alternatives, rfl, hinputs⟩ := hrealizes.of_combine hop
    obtain ⟨k, hk⟩ := List.mem_iff_getElem?.mp hmem
    obtain ⟨alternative, halternative, hyields⟩ :=
      Listing.exists_getElem?_of_forall₂ hinputs.flip hk
    obtain ⟨spans, hderives, hslices⟩ := hflow.exists_derives hyields hmeets
    exact ⟨spans, .or hn (List.mem_of_getElem? halternative) hderives, hslices⟩

theorem RealizedBy.exists_derivesEach (hflow : g.RealizedBy c flow) {ids : List NodeId}
    {operands : List Operand} {slices : List Slice}
    (hids : List.Forall₂ flow.Yields ids operands) : flow.MeetsEach operands slices →
      ∃ spans, g.DerivesEach ids spans ∧ slices = spans.map (c.sliceOf g.bounds.dim)
  | .nil => by
    cases hids
    exact ⟨[], .nil, rfl⟩
  | .cons hmeets hrest => by
    cases hids with
    | cons hid hids =>
      obtain ⟨spans, hderives, rfl⟩ := hflow.exists_derives hid hmeets
      obtain ⟨more, hmore, rfl⟩ := hflow.exists_derivesEach hids hrest
      exact ⟨spans ++ more, .cons hderives hmore, List.map_append.symm⟩

end

mutual

/-- A derivation of a node chooses for a descent from its step. -/
theorem RealizedBy.meets (hflow : g.RealizedBy c flow) {id : NodeId} {operand : Operand}
    {spans : List Span} (hid : flow.Yields id operand) :
    g.Derives id spans → flow.Meets operand (spans.map (c.sliceOf g.bounds.dim))
  | .terminal hn => by
    obtain ⟨i, s, rfl, hs, hrealizes⟩ := hflow.of_node hid hn
    cases hrealizes with
    | terminal hop => exact .transform hs hop
  | .and hn heach => by
    obtain ⟨i, s, rfl, hs, hrealizes⟩ := hflow.of_node hid hn
    cases hrealizes with
    | and hop hinputs => exact .fuse hs hop (hflow.meetsEach hinputs heach)
  | .or hn hmem hderives => by
    obtain ⟨i, s, rfl, hs, hrealizes⟩ := hflow.of_node hid hn
    cases hrealizes with
    | or hop hinputs =>
      obtain ⟨k, hk⟩ := List.mem_iff_getElem?.mp hmem
      obtain ⟨operand, hoperand, hyields⟩ := Listing.exists_getElem?_of_forall₂ hinputs hk
      exact .combine hs hop (List.mem_of_getElem? hoperand) (hflow.meets hyields hderives)

theorem RealizedBy.meetsEach (hflow : g.RealizedBy c flow) {ids : List NodeId}
    {operands : List Operand} {spans : List Span}
    (hids : List.Forall₂ flow.Yields ids operands) :
    g.DerivesEach ids spans → flow.MeetsEach operands (spans.map (c.sliceOf g.bounds.dim))
  | .nil => by
    cases hids
    exact .nil
  | .cons hderives hrest => by
    cases hids with
    | cons hid hids =>
      rw [List.map_append]
      exact .cons (hflow.meets hid hderives) (hflow.meetsEach hids hrest)

end

/-- Step `i` composes the whole: there are descents from it, they are the derivations of the node,
and what each of them meets makes up the channels of the whole. -/
structure Composes (g : Graph) (c : ChannelSplit) (flow : Dataflow UnitOp) (i : Nat) (id : NodeId)
    (whole : Slice) : Prop where
  exists_meets : ∃ slices, flow.Meets (.step i) slices
  meets_iff : ∀ slices, flow.Meets (.step i) slices ↔
    ∃ spans, g.Derives id spans ∧ slices = spans.map (c.sliceOf g.bounds.dim)
  tiles : ∀ slices, flow.Meets (.step i) slices → Slice.Tile whole.hi whole.lo slices
  proper : 0 < c.inChannels → ∀ slices, flow.Meets (.step i) slices →
    ∀ slice ∈ slices, slice.lo < slice.hi
  sum_outWidth : ∀ slices, flow.Meets (.step i) slices →
    (slices.map Slice.outWidth).sum = whole.outWidth

theorem RealizedBy.composes (hflow : g.RealizedBy c flow) (hg : g.Proper)
    (hsuits : c.Suits g.bounds.dim input axis) (hs : flow.step? i = some s) :
    g.Composes c flow i s.source (c.sliceOf g.bounds.dim s.span) := by
  have hid : flow.Yields s.source (.step i) := ⟨i, s, rfl, hs, rfl⟩
  obtain ⟨n, hn, hspan, -⟩ := hflow.realizes i s hs
  obtain ⟨m, hm, hdecomposes⟩ := hg.decomposes_of_reaches (hflow.reaches i s hs)
  cases hn.symm.trans hm
  rw [← hspan] at hdecomposes
  have hmeets : ∀ slices, flow.Meets (.step i) slices →
      ∃ spans, g.bounds.Tiles s.span.hi s.span.lo spans ∧
        slices = spans.map (c.sliceOf g.bounds.dim) := by
    intro slices h
    obtain ⟨spans, hderives, hslices⟩ := hflow.exists_derives hid h
    exact ⟨spans, hdecomposes.tiles spans hderives, hslices⟩
  constructor
  · obtain ⟨spans, hderives⟩ := hdecomposes.exists_derives
    exact ⟨_, hflow.meets hid hderives⟩
  · intro slices
    constructor
    · exact hflow.exists_derives hid
    · rintro ⟨spans, hderives, rfl⟩
      exact hflow.meets hid hderives
  · intro slices h
    obtain ⟨spans, htiles, rfl⟩ := hmeets slices h
    exact c.tile_slices g.bounds.dim htiles
  · intro hpos slices h
    obtain ⟨order, -, hl⟩ := hg.exists_order
    obtain ⟨spans, htiles, rfl⟩ := hmeets slices h
    apply ChannelSplit.proper_slices _ htiles
    exact Nat.div_pos (Nat.le_of_dvd hpos hsuits.dvd_in) (hg.dim_pos hl)
  · intro slices h
    obtain ⟨spans, htiles, rfl⟩ := hmeets slices h
    -- The widths telescope along the tiling, as the bounds of the slices do.
    have hsum := ChannelSplit.sum_slices hsuits.dvd_out htiles
    have hwidth := ChannelSplit.outWidth_eq hsuits.dvd_out s.span
    rw [Span.width, Nat.sub_mul] at hwidth
    rw [ChannelSplit.sliceOf_outWidth]
    omega

/-- Compilation preserves composition: from every step on, whatever operands are chosen, the slices
that are met tile the input units of its span and yield its output units, and from the output on
these are all input channels and all output channels. -/
theorem compileWith_composes (g : Graph) (c : ChannelSplit) (input : Shape) (axis : Nat)
    (r : Compilation UnitOp) (hg : g.Proper) (h : g.compileWith c.bind input axis = .ok r) :
    (∀ i s, r.flow.step? i = some s →
      g.Composes c r.flow i s.source (c.sliceOf g.bounds.dim s.span)) ∧
    ∃ out, r.flow.output? = some out ∧
      g.Composes c r.flow out g.root ⟨0, c.inChannels, c.outChannels⟩ := by
  have hsuits := suits_of_compileWith hg h
  have hflow := realizedBy_of_compileWith hg h
  have hsteps : ∀ i s, r.flow.step? i = some s →
      g.Composes c r.flow i s.source (c.sliceOf g.bounds.dim s.span) :=
    fun i s hs => hflow.composes hg hsuits hs
  refine ⟨hsteps, ?_⟩
  obtain ⟨order, -, hl⟩ := hg.exists_order
  obtain ⟨out, s, hout, hs, hsource⟩ := hflow.output
  obtain ⟨n, hn, hspan, -⟩ := hflow.realizes out s hs
  obtain ⟨m, hm, hroot⟩ := hg.exists_root
  rw [hsource] at hn
  cases hn.symm.trans hm
  have hwhole := c.sliceOf_domain (hg.dim_pos hl) hsuits.dvd_in
  rw [← hroot, ← hspan] at hwhole
  have hcomposes := hsteps out s hs
  rw [hwhole, hsource] at hcomposes
  exact ⟨out, hout, hcomposes⟩

/-- Whether one leaf is taken or two, four channels are taken to six. -/
theorem compileWith_composes_halves : halves.Proper ∧ ∃ r,
    halves.compileWith (ChannelSplit.bind ⟨4, 6, .concatReduce⟩) ⟨[1, 4]⟩ 1 = .ok r ∧
    r.flow.output? = some 4 ∧
    (r.flow.Meets (.step 4) [⟨0, 4, 6⟩] ∧ r.flow.Meets (.step 4) [⟨0, 2, 3⟩, ⟨2, 4, 3⟩]) ∧
    halves.Composes ⟨4, 6, .concatReduce⟩ r.flow 4 4 ⟨0, 4, 6⟩ := by
  have hproper : halves.Proper := ⟨by decide +kernel, by decide⟩
  have hlast : (halves.compileWith (ChannelSplit.bind ⟨4, 6, .concatReduce⟩)
      ⟨[1, 4]⟩ 1).toOption.bind (fun r => r.flow.output?) = some 4 := by decide +kernel
  cases hrun : halves.compileWith (ChannelSplit.bind ⟨4, 6, .concatReduce⟩) ⟨[1, 4]⟩ 1 with
  | error stop => simp [hrun, Except.toOption] at hlast
  | ok r =>
    obtain ⟨-, out, hout, hcomposes⟩ :=
      compileWith_composes halves ⟨4, 6, .concatReduce⟩ ⟨[1, 4]⟩ 1 r hproper hrun
    rw [hrun] at hlast
    cases hout.symm.trans hlast
    refine ⟨hproper, r, rfl, hout, ⟨?_, ?_⟩, hcomposes⟩
    · have hleaf : halves.Derives 3 [⟨0, 2⟩] := .terminal rfl
      exact (hcomposes.meets_iff _).mpr ⟨_, .or rfl (by decide) hleaf, by decide⟩
    · have hfirst : halves.Derives 0 [⟨0, 1⟩] := .terminal rfl
      have hsecond : halves.Derives 1 [⟨1, 2⟩] := .terminal rfl
      have hboth : halves.Derives 2 [⟨0, 1⟩, ⟨1, 2⟩] :=
        .and rfl (.cons hfirst (.cons hsecond .nil))
      exact (hcomposes.meets_iff _).mpr ⟨_, .or rfl (by decide) hboth, by decide⟩

end Graph
end AndOrFlow
