import AndOrFlow.Memory.Workload

/-!
# Replay lists

A replay list is closed under dropped operands. Run in ascending order it finds every operand of a
step either retained or rebuilt already, and running it leaves nothing half rebuilt: whatever it
rebuilds, it rebuilds with all that this needs in turn.
-/
namespace AndOrFlow

namespace Sorting

theorem pairwise_union {xs ys : List Nat} (hxs : xs.Pairwise (· < ·)) (hys : ys.Pairwise (· < ·)) :
    (union xs ys).Pairwise (· < ·) := by
  induction xs generalizing ys with
  | nil => exact hys
  | cons x xs ih =>
    obtain ⟨hx, hxs'⟩ := List.pairwise_cons.mp hxs
    induction ys with
    | nil => exact hxs
    | cons y ys ihy =>
      obtain ⟨hy, hys'⟩ := List.pairwise_cons.mp hys
      simp only [union]
      unfold interleave
      split
      · rename_i hxy
        refine List.pairwise_cons.mpr ⟨fun z hz => ?_, ih hxs' hys⟩
        rcases mem_union.mp hz with hz | hz
        · exact hx z hz
        · rcases List.mem_cons.mp hz with rfl | hz
          · exact hxy
          · exact Nat.lt_trans hxy (hy z hz)
      · split
        · rename_i hyx
          have hrest : (union (x :: xs) ys).Pairwise (· < ·) := ihy hys'
          refine List.pairwise_cons.mpr ⟨fun z hz => ?_, hrest⟩
          have hz' : z ∈ union (x :: xs) ys := hz
          rcases mem_union.mp hz' with hz | hz
          · rcases List.mem_cons.mp hz with rfl | hz
            · exact hyx
            · exact Nat.lt_trans hyx (hx z hz)
          · exact hy z hz
        · rename_i hxy hyx
          have heq : x = y := by omega
          subst heq
          refine List.pairwise_cons.mpr ⟨fun z hz => ?_, ih hxs' hys'⟩
          rcases mem_union.mp hz with hz | hz
          · exact hx z hz
          · exact hy z hz

theorem mem_foldr_union {v : Nat} {f : Nat → List Nat} {xs : List Nat} :
    v ∈ (xs.map f).foldr union [] ↔ ∃ x ∈ xs, v ∈ f x := by
  induction xs with
  | nil => simp
  | cons x xs ih => simp [ih]

theorem pairwise_foldr_union {f : Nat → List Nat} {xs : List Nat}
    (h : ∀ x ∈ xs, (f x).Pairwise (· < ·)) : ((xs.map f).foldr union []).Pairwise (· < ·) := by
  induction xs with
  | nil => exact .nil
  | cons x xs ih =>
    exact pairwise_union (h x (by simp)) (ih fun y hy => h y (by simp [hy]))

end Sorting

namespace Plan

variable {Op : Type} {g : Dataflow Op} {flags : DropFlags} {p : Plan} {i j u v : Nat}

/-- The replay list of step `v`; none if it is retained. -/
def replayAt (p : Plan) (v : Nat) : List Nat := ((p.decision? v).map Decision.replay).getD []

/-- A plan whose replay lists suffice: a dropped step is replayed with all that its operands replay,
in execution order. -/
structure Rebuilds (g : Dataflow Op) (p : Plan) : Prop where
  size_eq : p.size = g.size
  mem_replayAt : ∀ v j, j ∈ p.replayAt v ↔
    p.isDropped v = true ∧ (j = v ∨ ∃ u ∈ g.operands v, j ∈ p.replayAt u)
  ascending : ∀ v, (p.replayAt v).Pairwise (· < ·)

theorem lt_size_of_isDropped (hsize : p.size = g.size) (h : p.isDropped i = true) : i < g.size := by
  refine Nat.lt_of_not_le fun hle => ?_
  have hnone : p.decision? i = none :=
    Array.getElem?_eq_none (Nat.le_trans (Nat.le_of_eq hsize) hle)
  simp [isDropped, hnone] at h

theorem le_of_mem_replay {replay : Nat → List Nat}
    (hreplay : ∀ v j, j ∈ replay v → j = v ∨ ∃ u ∈ g.operands v, j ∈ replay u)
    (hj : j ∈ replay v) : j ≤ v := by
  induction v using Nat.strongRecOn with
  | ind v ih =>
    rcases hreplay v j hj with rfl | ⟨u, hu, hj⟩
    · exact Nat.le_refl j
    · have hlt := g.operands_lt hu
      have hle := ih u hlt hj
      omega

namespace Rebuilds

theorem self_mem (h : p.Rebuilds g) (hv : p.isDropped v = true) : v ∈ p.replayAt v :=
  (h.mem_replayAt v v).mpr ⟨hv, Or.inl rfl⟩

theorem le (h : p.Rebuilds g) (hj : j ∈ p.replayAt v) : j ≤ v :=
  le_of_mem_replay (fun v j hj => ((h.mem_replayAt v j).mp hj).2) hj

theorem isDropped (h : p.Rebuilds g) (hj : j ∈ p.replayAt v) : p.isDropped j = true := by
  induction v using Nat.strongRecOn with
  | ind v ih =>
    obtain ⟨hv, rfl | ⟨u, hu, hj⟩⟩ := (h.mem_replayAt v j).mp hj
    · exact hv
    · exact ih u (g.operands_lt hu) hj

theorem lt_size (h : p.Rebuilds g) (hv : p.isDropped v = true) : v < g.size :=
  lt_size_of_isDropped h.size_eq hv

/-- What a replayed step replays is replayed with it. -/
theorem trans (h : p.Rebuilds g) (hu : u ∈ p.replayAt v) (hj : j ∈ p.replayAt u) :
    j ∈ p.replayAt v := by
  induction v using Nat.strongRecOn with
  | ind v ih =>
    obtain ⟨hv, rfl | ⟨w, hw, hu⟩⟩ := (h.mem_replayAt v u).mp hu
    · exact hj
    · exact (h.mem_replayAt v j).mpr ⟨hv, Or.inr ⟨w, hw, ih w (g.operands_lt hw) hu⟩⟩

theorem operand_mem (h : p.Rebuilds g) (hj : j ∈ p.replayAt v) (hu : u ∈ g.operands j)
    (hdrop : p.isDropped u = true) : u ∈ p.replayAt v :=
  h.trans hj ((h.mem_replayAt j u).mpr ⟨h.isDropped hj, Or.inr ⟨u, hu, h.self_mem hdrop⟩⟩)

end Rebuilds

theorem decision?_ofDropped (h : i < g.size) :
    (ofDropped g flags).decision? i = some (decisionAt g flags (decisionsBelow g flags i) i) :=
  getElem?_decisionsBelow g flags h

theorem replayAt_ofDropped (h : i < g.size) :
    (ofDropped g flags).replayAt i =
      if Drops g flags i then
        ((g.operands i).map (ofDropped g flags).replayAt).foldr Sorting.union [] ++ [i]
      else [] := by
  have hearlier : ∀ j ∈ g.operands i,
      (((decisionsBelow g flags i)[j]?).map Decision.replay).getD [] =
        (ofDropped g flags).replayAt j := by
    intro j hj
    have hlt := g.operands_lt hj
    rw [replayAt, decision?_ofDropped (Nat.lt_trans hlt h), getElem?_decisionsBelow g flags hlt]
  rw [replayAt, decision?_ofDropped h, decisionAt]
  split
  · simp only [Option.map_some, Option.getD_some, Decision.ofReplay, Decision.replay, replayOf]
    rw [List.map_congr_left hearlier]
  · rfl

theorem replayAt_of_size_le (h : g.size ≤ i) : (ofDropped g flags).replayAt i = [] := by
  have hnone : (ofDropped g flags).decision? i = none := by
    simp [decision?, ofDropped, h]
  simp [replayAt, hnone]

theorem isDropped_ofDropped_iff :
    (ofDropped g flags).isDropped i = true ↔ i < g.size ∧ Drops g flags i := by
  by_cases h : i < g.size
  · simp [isDropped_ofDropped h, h]
  · simp [isDropped, decision?, ofDropped, h]

theorem rebuilds_ofDropped (g : Dataflow Op) (flags : DropFlags) :
    (ofDropped g flags).Rebuilds g := by
  have hmem : ∀ v j, j ∈ (ofDropped g flags).replayAt v ↔ (ofDropped g flags).isDropped v = true ∧
      (j = v ∨ ∃ u ∈ g.operands v, j ∈ (ofDropped g flags).replayAt u) := by
    intro v j
    rw [isDropped_ofDropped_iff]
    by_cases hv : v < g.size
    · rw [replayAt_ofDropped hv]
      by_cases hdrop : Drops g flags v
      · rw [if_pos hdrop, List.mem_append, Sorting.mem_foldr_union, List.mem_singleton, or_comm]
        simp [hv, hdrop]
      · simp [hdrop]
    · simp [replayAt_of_size_le (Nat.le_of_not_lt hv), hv]
  have hle : ∀ v j, j ∈ (ofDropped g flags).replayAt v → j ≤ v := by
    intro v
    induction v using Nat.strongRecOn with
    | ind v ih =>
      intro j hj
      obtain ⟨-, rfl | ⟨u, hu, hj⟩⟩ := (hmem v j).mp hj
      · exact Nat.le_refl j
      · have hlt := g.operands_lt hu
        have := ih u hlt j hj
        omega
  refine ⟨size_ofDropped g flags, hmem, fun v => ?_⟩
  -- The step itself comes last: all that its operands replay lies before them.
  induction v using Nat.strongRecOn with
  | ind v ih =>
    by_cases hv : v < g.size
    · rw [replayAt_ofDropped hv]
      split
      · have hreplays : ∀ u ∈ g.operands v, ((ofDropped g flags).replayAt u).Pairwise (· < ·) :=
          fun u hu => ih u (g.operands_lt hu)
        refine List.pairwise_append.mpr
          ⟨Sorting.pairwise_foldr_union hreplays, List.pairwise_singleton _ _, ?_⟩
        intro j hj last hlast
        obtain rfl := List.mem_singleton.mp hlast
        obtain ⟨u, hu, hj⟩ := Sorting.mem_foldr_union.mp hj
        have hlt := g.operands_lt hu
        have hle := le_of_mem_replay (fun v j hj => ((hmem v j).mp hj).2) hj
        omega
      · exact .nil
    · rw [replayAt_of_size_le (Nat.le_of_not_lt hv)]
      exact .nil

/-- The flags that a plan tells of lead back to it. -/
theorem ofDropped_dropped (g : Dataflow Op) (flags : DropFlags) :
    ofDropped g (ofDropped g flags).dropped = ofDropped g flags := by
  have hdrops : ∀ i < g.size, Drops g (ofDropped g flags).dropped i ↔ Drops g flags i := by
    intro i hi
    have hflag : (ofDropped g flags).dropped[i]? =
        some (decisionAt g flags (decisionsBelow g flags i) i).isRecompute := by
      have hdecision : (ofDropped g flags).decision? i = _ := decision?_ofDropped hi
      rw [decision?] at hdecision
      simp [dropped, hdecision]
    simp only [Drops, hflag, Option.some.injEq, isRecompute_decisionAt]
    exact ⟨fun h => h.2, fun h => ⟨h.1, h⟩⟩
  have hbelow : ∀ n ≤ g.size,
      decisionsBelow g (ofDropped g flags).dropped n = decisionsBelow g flags n := by
    intro n hn
    induction n with
    | zero => rfl
    | succ n ih => simp only [decisionsBelow, ih (Nat.le_of_lt hn), decisionAt, hdrops n hn]
  exact congrArg Plan.mk (hbelow g.size (Nat.le_refl _))

end Plan
end AndOrFlow
