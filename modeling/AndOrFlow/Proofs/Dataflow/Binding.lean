import AndOrFlow.Dataflow.ChannelSplit
import AndOrFlow.Proofs.Outcome
import Mathlib.Algebra.GroupWithZero.Nat

/-!
# What a channel split binds

Where the output channels split into units, a node over a span gets as many units as the span has
positions, whatever its kind, and only a terminal can be refused: when the input channels do not
split, or the input does not have that many. Apart from that nothing but a number too large for a
word keeps a node from being bound.
-/
namespace AndOrFlow

variable {ε α : Type} {post : α → Prop} {a b : Nat} {s : Shape}

def Fault.Overflows : Fault → Prop
  | addition | multiplication => True
  | subtraction | emptySpan => False

def Failure.Overflows : Failure ε → Prop
  | fault f => f.Overflows
  | error _ => False

/-- The value has the property, unless a number overflows. -/
abbrev Checked.Gives (post : α → Prop) : Checked α → Prop := Outcome post Fault.Overflows

theorem Checked.Gives.lift {x : Checked α} {fail : Failure ε → Prop} (h : x.Gives post)
    (hfail : ∀ failure, failure.Overflows → fail failure) :
    Outcome post fail (monadLift x : Except (Failure ε) α) := by
  cases x with
  | ok value => exact h
  | error f => exact hfail (.fault f) h

namespace Word

theorem add_gives (a b : Nat) : (add a b).Gives (· = a + b) := by
  rw [add]
  split
  · exact rfl
  · exact trivial

theorem mul_gives (a b : Nat) : (mul a b).Gives (· = a * b) := by
  rw [mul]
  split
  · exact rfl
  · exact trivial

theorem product_gives (xs : List Nat) : (product xs).Gives fun _ => True := by
  have hfold : ∀ (xs : List Nat) (start : Nat),
      Checked.Gives (fun _ => True) (xs.foldlM mul start) := by
    intro xs
    induction xs with
    | nil => exact fun start => trivial
    | cons x xs ih =>
      intro start
      rw [List.foldlM_cons]
      exact (mul_gives start x).bind fun next _ => ih next
  exact hfold xs 1

end Word

theorem CombineRule.charge_gives (rule : CombineRule) (count arity width : Nat) :
    (rule.charge count arity width).Gives fun _ => True := by
  cases rule with
  | sum => exact (Word.mul_gives _ _).bind fun _ _ => trivial
  | sumRelu =>
    exact (Word.add_gives _ _).bind fun _ _ => (Word.mul_gives _ _).bind fun _ _ => trivial
  | weightedSum =>
    exact (Word.mul_gives _ _).bind fun _ _ => (Word.mul_gives _ _).bind fun _ _ => trivial
  | concatReduce =>
    refine (Word.mul_gives _ _).bind fun _ _ => (Word.mul_gives _ _).bind fun _ _ => ?_
    exact (Word.add_gives _ _).bind fun _ _ => (Word.mul_gives _ _).bind fun _ _ => trivial

namespace ChannelSplit

open Failure (demand)

variable {c : ChannelSplit} {r : Request} {input : Shape} {widths : List Nat}
  {fail : Failure CompileError → Prop} {bound : Binding UnitOp → Prop}

def outWidth (c : ChannelSplit) (dim : Nat) (s : Span) : Nat :=
  (s.hi - s.lo) * c.outChannels / dim

theorem denseParams_gives (inWidth outWidth : Nat) :
    (denseParams inWidth outWidth).Gives fun _ => True := by
  exact (Word.mul_gives _ _).bind fun _ _ => (Word.add_gives _ _).imp fun _ _ => trivial

theorem demand_ends {p : Prop} [Decidable p] {e : CompileError} (h : ¬ p → fail (.error e)) :
    Outcome (fun _ => p) fail (demand p e) := by
  rw [demand]
  split
  · assumption
  · apply h
    assumption

theorem unit_ends {channels : Nat} (hdim : 0 < r.dim)
    (h : ¬ r.dim ∣ channels → fail (.error (.operator r.node
      s!"{channels} channels do not split into {r.dim} units"))) :
    Outcome (fun unit => r.dim ∣ channels ∧ unit = channels / r.dim) fail (unit channels r) := by
  have hdemand := demand_ends (p := 0 < r.dim ∧ channels % r.dim = 0) fun hnot =>
    h fun hdvd => hnot ⟨hdim, Nat.mod_eq_zero_of_dvd hdvd⟩
  exact hdemand.bind fun _ hsplit => ⟨Nat.dvd_of_mod_eq_zero hsplit.2, rfl⟩

theorem widthOf_eq {width : Nat} (h : s.dim? r.axis = some width) : widthOf s r = .ok width := by
  rw [widthOf, h]

theorem totalWidth_ends (hfail : ∀ failure, failure.Overflows → fail failure)
    (haxis : r.axis < input.rank) (widths : List Nat) (total : Nat) :
    Outcome (· = total + widths.sum) fail
      (totalWidth r (widths.map (input.withDim r.axis)) total) := by
  induction widths generalizing total with
  | nil => exact rfl
  | cons width rest ih =>
    rw [List.map_cons, totalWidth, widthOf_eq (Shape.dim?_withDim_self haxis)]
    refine ((Word.add_gives total width).lift hfail).bind fun sum hsum => ?_
    rw [List.sum_cons, ← Nat.add_assoc, ← hsum]
    exact ih sum

theorem bind_ends {rest : List Shape} (hfail : ∀ failure, failure.Overflows → fail failure)
    (hin : r.inputs = s :: rest) (hdim : 0 < r.dim) (hspan : r.span.lo ≤ r.span.hi)
    (hrefuse : ¬ r.dim ∣ c.outChannels → fail (.error (.operator r.node
      s!"{c.outChannels} channels do not split into {r.dim} units")))
    (hkind : ∀ count, r.dim ∣ c.outChannels → Outcome bound fail (
      let shape := s.withDim r.axis (c.outWidth r.dim r.span)
      match r.kind with
      | .terminal => c.bindTerminal r s shape (c.outWidth r.dim r.span) count
      | .and => bindAnd r shape (c.outWidth r.dim r.span) count
      | .or => c.bindOr r s shape (c.outWidth r.dim r.span) count)) :
    Outcome bound fail (c.bind r) := by
  have hlength : r.span.length = .ok r.span.width := Span.length_eq_ok_iff.mpr ⟨hspan, rfl⟩
  have hfirst : firstOperand r = .ok s := by rw [firstOperand, hin]
  rw [bind, hlength]
  refine (unit_ends hdim hrefuse).bind fun unit hunit => ?_
  obtain ⟨hdvd, hunit⟩ := hunit
  refine ((Word.mul_gives _ _).lift hfail).bind fun width hwidth => ?_
  have hwidth : width = c.outWidth r.dim r.span := by
    rw [hwidth, hunit, outWidth, Nat.mul_div_assoc _ hdvd, Span.width]
  rw [hfirst]
  refine ((Word.product_gives _).lift hfail).bind fun count _ => ?_
  rw [hwidth]
  exact hkind count hdvd

/-- Why a terminal that reads the given shape is refused, if it is. -/
def refusal? (c : ChannelSplit) (r : Request) (s : Shape) : Option CompileError :=
  if r.dim ∣ c.outChannels then
    if r.dim ∣ c.inChannels then
      if s.dim? r.axis = some c.inChannels then none
      else some (.shapeMismatch r.node r.span (s.withDim r.axis c.inChannels) s)
    else some (.operator r.node s!"{c.inChannels} channels do not split into {r.dim} units")
  else some (.operator r.node s!"{c.outChannels} channels do not split into {r.dim} units")

theorem refusal?_eq_none_iff : c.refusal? r s = none ↔
    r.dim ∣ c.outChannels ∧ r.dim ∣ c.inChannels ∧ s.dim? r.axis = some c.inChannels := by
  by_cases hout : r.dim ∣ c.outChannels
  · by_cases hin : r.dim ∣ c.inChannels
    · by_cases hwidth : s.dim? r.axis = some c.inChannels
      · simp [refusal?, hout, hin, hwidth]
      · simp [refusal?, hout, hin, hwidth]
    · simp [refusal?, hout, hin]
  · simp [refusal?, hout]

/-- What a terminal is bound to: it takes its slice of the input channels to its share of the output
channels. -/
structure Transforms (c : ChannelSplit) (r : Request) (s : Shape) (b : Binding UnitOp) : Prop where
  accepted : c.refusal? r s = none
  op_eq : b.op = .transform (r.span.lo * (c.inChannels / r.dim))
    (r.span.hi * (c.inChannels / r.dim)) (c.outWidth r.dim r.span)
  shape_eq : b.shape = s.withDim r.axis (c.outWidth r.dim r.span)

def Blocks (c : ChannelSplit) (r : Request) (s : Shape) (failure : Failure CompileError) : Prop :=
  failure.Overflows ∨ ∃ e, c.refusal? r s = some e ∧ failure = .error e

theorem blocks_of_overflows (failure : Failure CompileError) (h : failure.Overflows) :
    c.Blocks r s failure := Or.inl h

theorem blocks_of_refusal {e : CompileError} (h : c.refusal? r s = some e) :
    c.Blocks r s (.error e) := Or.inr ⟨e, h, rfl⟩

theorem bind_terminal_ends (hkind : r.kind = .terminal) (hin : r.inputs = [s]) (hdim : 0 < r.dim)
    (hspan : r.span.lo ≤ r.span.hi) (haxis : r.axis < s.rank) :
    Outcome (c.Transforms r s) (c.Blocks r s) (c.bind r) := by
  obtain ⟨available, havailable⟩ : ∃ available, s.dim? r.axis = some available :=
    ⟨_, List.getElem?_eq_getElem haxis⟩
  apply bind_ends blocks_of_overflows hin hdim hspan
  · intro hout
    apply blocks_of_refusal
    rw [refusal?, if_neg hout]
  · intro count hout
    rw [hkind]
    dsimp only
    rw [bindTerminal, widthOf_eq havailable]
    refine (unit_ends hdim fun hin => ?_).bind fun unit hunit => ?_
    · apply blocks_of_refusal
      rw [refusal?, if_pos hout, if_neg hin]
    obtain ⟨hin, hunit⟩ := hunit
    refine (demand_ends fun hwidth => ?_).bind fun _ hwidth => ?_
    · apply blocks_of_refusal
      rw [refusal?, if_pos hout, if_pos hin, if_neg (by simpa [havailable] using hwidth)]
    refine ((Word.mul_gives _ _).lift blocks_of_overflows).bind fun lo hlo => ?_
    refine ((Word.mul_gives _ _).lift blocks_of_overflows).bind fun hi hhi => ?_
    have hle : lo ≤ hi := by
      rw [hlo, hhi]
      exact Nat.mul_le_mul_right unit hspan
    have hsub : Word.sub hi lo = .ok (hi - lo) := Word.sub_eq_ok_iff.mpr ⟨hle, rfl⟩
    rw [hsub]
    refine ((denseParams_gives _ _).lift blocks_of_overflows).bind fun params _ => ?_
    refine ((Word.mul_gives _ _).lift blocks_of_overflows).bind fun cost _ => ?_
    exact {
      accepted := refusal?_eq_none_iff.mpr ⟨hout, hin, by rw [havailable, hwidth]⟩
      op_eq := by rw [hlo, hhi, hunit]
      shape_eq := rfl }

section

variable (hin : r.inputs = widths.map (input.withDim r.axis)) (hne : widths ≠ [])
  (haxis : r.axis < input.rank) (hdim : 0 < r.dim) (hspan : r.span.lo ≤ r.span.hi)
  (hout : r.dim ∣ c.outChannels)
include hin hne haxis hdim hspan hout

theorem bind_and_ends (hkind : r.kind = .and) :
    Outcome (fun b => b.op = .fuse widths.sum (c.outWidth r.dim r.span) ∧
      b.shape = input.withDim r.axis (c.outWidth r.dim r.span)) Failure.Overflows (c.bind r) := by
  obtain ⟨width, rest, rfl⟩ := List.exists_cons_of_ne_nil hne
  rw [List.map_cons] at hin
  apply bind_ends (fun _ h => h) hin hdim hspan (fun h => absurd hout h)
  intro count _
  rw [hkind]
  dsimp only
  rw [bindAnd, hin, ← List.map_cons]
  refine (totalWidth_ends (fun _ h => h) haxis _ _).bind fun total htotal => ?_
  refine ((denseParams_gives _ _).lift fun _ h => h).bind fun params _ => ?_
  refine ((Word.mul_gives _ _).lift fun _ h => h).bind fun cost _ => ?_
  rw [Nat.zero_add] at htotal
  exact ⟨by rw [htotal], Shape.withDim_withDim _ _ _ _⟩

theorem bind_or_ends (hkind : r.kind = .or)
    (hwidths : ∀ width ∈ widths, width = c.outWidth r.dim r.span) :
    Outcome (fun b => b.op = .combine c.rule widths.length (c.outWidth r.dim r.span) ∧
      b.shape = input.withDim r.axis (c.outWidth r.dim r.span)) Failure.Overflows (c.bind r) := by
  obtain ⟨width, rest, rfl⟩ := List.exists_cons_of_ne_nil hne
  obtain rfl := hwidths width (by simp)
  rw [List.map_cons] at hin
  apply bind_ends (fun _ h => h) hin hdim hspan (fun h => absurd hout h)
  intro count _
  rw [hkind]
  dsimp only
  rw [bindOr, widthOf_eq (Shape.dim?_withDim_self haxis)]
  refine (demand_ends fun h => absurd rfl h).bind fun _ _ => ?_
  refine ((c.rule.charge_gives _ _ _).lift fun _ h => h).bind fun charged _ => ?_
  exact ⟨by rw [hin]; simp, Shape.withDim_withDim _ _ _ _⟩

end

end ChannelSplit
end AndOrFlow
