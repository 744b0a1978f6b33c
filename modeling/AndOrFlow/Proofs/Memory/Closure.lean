import AndOrFlow.Proofs.Memory.Safety
import Mathlib.Logic.Relation
import Mathlib.Order.Bounds.Basic

/-!
# What it takes to rebuild an output

A plan made of drop flags has one decision for every step, whatever the flags are. To rebuild a
dropped output takes the dropped steps that it depends on through dropped steps alone. These are the
least set that holds the step and, with every step, the dropped ones that it reads; the replay list
holds this set and nothing else, in execution order.
-/
namespace AndOrFlow
namespace Plan
open Relation

variable {Op : Type} {g : Dataflow Op} {flags : DropFlags} {i v : Nat}

def ReadsDropped (g : Dataflow Op) (flags : DropFlags) (v u : Nat) : Prop :=
  u ∈ g.operands v ∧ Drops g flags u

/-- With step `i`, the set holds whatever dropped step one of its steps reads. -/
def ClosedFrom (g : Dataflow Op) (flags : DropFlags) (i : Nat) (s : Set Nat) : Prop :=
  i ∈ s ∧ ∀ v ∈ s, ∀ u, ReadsDropped g flags v u → u ∈ s

/-- The steps that a chain of dropped operands leads to are the least closed set. -/
theorem isLeast_closedFrom (g : Dataflow Op) (flags : DropFlags) (i : Nat) :
    IsLeast { s | ClosedFrom g flags i s } { v | ReflTransGen (ReadsDropped g flags) i v } := by
  refine ⟨⟨.refl, fun v hv u hread => hv.tail hread⟩, fun s hs v hv => ?_⟩
  induction hv with
  | refl => exact hs.1
  | tail _ hread ih => exact hs.2 _ ih _ hread

theorem drops_of_reads (hi : Drops g flags i) (h : ReflTransGen (ReadsDropped g flags) i v) :
    Drops g flags v := by
  cases h with
  | refl => exact hi
  | tail _ hread => exact hread.2

/-- The replay list of a dropped step holds just what a chain of dropped operands leads to. -/
theorem mem_replayAt_iff (hi : i < g.size) (hdrops : Drops g flags i) :
    v ∈ (ofDropped g flags).replayAt i ↔ ReflTransGen (ReadsDropped g flags) i v := by
  have hplan := rebuilds_ofDropped g flags
  constructor
  · intro hv
    clear hdrops
    induction i using Nat.strongRecOn with
    | ind i ih =>
      obtain ⟨-, rfl | ⟨u, hu, hv⟩⟩ := (hplan.mem_replayAt i v).mp hv
      · exact .refl
      · have hlt := g.operands_lt hu
        obtain ⟨hdropped, -⟩ := (hplan.mem_replayAt u v).mp hv
        obtain ⟨husize, hdrops⟩ := isDropped_ofDropped_iff.mp hdropped
        exact (ih u hlt husize hv).head ⟨hu, hdrops⟩
  · intro h
    induction h with
    | refl => exact hplan.self_mem (isDropped_ofDropped_iff.mpr ⟨hi, hdrops⟩)
    | tail _ hread ih =>
      have hsize := Nat.lt_of_le_of_lt (hplan.le ih) hi
      have hlt := Nat.lt_trans (g.operands_lt hread.1) hsize
      exact hplan.operand_mem ih hread.1 (isDropped_ofDropped_iff.mpr ⟨hlt, hread.2⟩)

/-- The list rebuilds step `i` and holds no step without need; all of it lies in `[start, stop)`. -/
structure RebuildsLeast (g : Dataflow Op) (flags : DropFlags) (i start stop : Nat)
    (replay : List Nat) : Prop where
  ascending : replay.Pairwise (· < ·)
  last : replay.getLast? = some i
  drops : ∀ v ∈ replay, Drops g flags v
  mem_iff : ∀ v, v ∈ replay ↔ ReflTransGen (ReadsDropped g flags) i v
  least : IsLeast { s | ClosedFrom g flags i s } { v | v ∈ replay }
  first : replay.head? = some start
  stop_eq : stop = i + 1
  within : ∀ v ∈ replay, start ≤ v ∧ v < stop

structure Minimal (g : Dataflow Op) (flags : DropFlags) (p : Plan) : Prop where
  size_eq : p.size = g.size
  recompute_iff : ∀ i, (∃ start stop replay, p.decision? i = some (.recompute start stop replay)) ↔
    i < g.size ∧ g.output? ≠ some i ∧ flags[i]? = some true
  rebuilds : ∀ i start stop replay, p.decision? i = some (.recompute start stop replay) →
    RebuildsLeast g flags i start stop replay
  ofDropped_eq : ofDropped g p.dropped = p

theorem head?_le_of_pairwise {xs : List Nat} {x y : Nat} (h : xs.Pairwise (· < ·))
    (hx : xs.head? = some x) (hy : y ∈ xs) : x ≤ y := by
  obtain ⟨rest, rfl⟩ := List.head?_eq_some_iff.mp hx
  rcases List.mem_cons.mp hy with rfl | hy
  · exact Nat.le_refl y
  · exact Nat.le_of_lt (List.rel_of_pairwise_cons h hy)

theorem decision?_of_drops (hi : i < g.size) (hdrops : Drops g flags i) :
    (ofDropped g flags).decision? i = some (.ofReplay ((ofDropped g flags).replayAt i) i) := by
  rw [replayAt, decision?_ofDropped hi, decisionAt, if_pos hdrops]
  rfl

theorem rebuildsLeast_replayAt (hi : i < g.size) (hdrops : Drops g flags i) :
    RebuildsLeast g flags i (((ofDropped g flags).replayAt i).headD i) (i + 1)
      ((ofDropped g flags).replayAt i) := by
  have hplan := rebuilds_ofDropped g flags
  have hascending := hplan.ascending i
  have hmem : ∀ v, v ∈ (ofDropped g flags).replayAt i ↔
      ReflTransGen (ReadsDropped g flags) i v := fun v => mem_replayAt_iff hi hdrops
  have hfirst : ((ofDropped g flags).replayAt i).head? =
      some (((ofDropped g flags).replayAt i).headD i) := by
    cases h : (ofDropped g flags).replayAt i with
    | nil => simpa [h] using (hmem i).mpr .refl
    | cons first rest => rfl
  refine ⟨hascending, ?_, fun v hv => drops_of_reads hdrops ((hmem v).mp hv), hmem, ?_, hfirst, rfl,
    fun v hv => ⟨head?_le_of_pairwise hascending hfirst hv, Nat.lt_succ_of_le (hplan.le hv)⟩⟩
  · rw [replayAt_ofDropped hi, if_pos hdrops]
    simp
  · simpa only [hmem] using isLeast_closedFrom g flags i

/-- A plan made of drop flags rebuilds every dropped output, and by the least replay. -/
theorem ofDropped_minimal (g : Dataflow Op) (flags : DropFlags) :
    Minimal g flags (ofDropped g flags) := by
  have hdrops : ∀ i, (∃ start stop replay,
      (ofDropped g flags).decision? i = some (.recompute start stop replay)) ↔
      i < g.size ∧ Drops g flags i := by
    intro i
    rw [← isDropped_ofDropped_iff, isDropped]
    cases (ofDropped g flags).decision? i with
    | none => simp
    | some d => cases d <;> simp [Decision.isRecompute, Decision.isRetain]
  refine ⟨size_ofDropped g flags, hdrops, ?_, ofDropped_dropped g flags⟩
  intro i start stop replay hdecision
  obtain ⟨hi, hi'⟩ := (hdrops i).mp ⟨start, stop, replay, hdecision⟩
  rw [decision?_of_drops hi hi', Decision.ofReplay, Option.some.injEq,
    Decision.recompute.injEq] at hdecision
  obtain ⟨rfl, rfl, rfl⟩ := hdecision
  exact rebuildsLeast_replayAt hi hi'

/-- Of two paths to the fourth step one is dropped; the flags go on behind the last step. -/
theorem ofDropped_minimal_twoPaths :
    (ofDropped twoPaths #[true, false, true, true, true, true]).decision? 3 =
        some (.recompute 0 4 [0, 2, 3]) ∧
      RebuildsLeast twoPaths #[true, false, true, true, true, true] 3 0 4 [0, 2, 3] := by
  have hdecision : (ofDropped twoPaths #[true, false, true, true, true, true]).decision? 3 =
      some (.recompute 0 4 [0, 2, 3]) := by decide
  exact ⟨hdecision, (ofDropped_minimal twoPaths _).rebuilds 3 0 4 [0, 2, 3] hdecision⟩

end Plan
end AndOrFlow
