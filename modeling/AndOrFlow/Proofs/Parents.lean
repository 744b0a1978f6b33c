import AndOrFlow.Proofs.Validity
import Mathlib.Data.Set.Card

/-!
# Who refers to a node

The parents of a node are listed in ascending order, each as often as it refers to the node. So a
node has more than one entry if it has two parents, but also if its only parent repeats it. Nothing
keeps an accepted or-node from repeating an alternative; an and-node within reach never repeats a
child, as long as no leaf is empty.
-/
namespace AndOrFlow

variable {ids : List Nat}

theorem countP_eq_ncard {α : Type} (xs : List α) (q : α → Bool) :
    xs.countP q = {i : Nat | ∃ x, xs[i]? = some x ∧ q x = true}.ncard := by
  let positions := (xs.zipIdx.filter fun e => q e.1).map Prod.snd
  have hnodup : positions.Nodup := by
    refine List.Nodup.sublist (List.filter_sublist.map _) ?_
    rw [List.zipIdx_map_snd]
    exact List.nodup_range'
  have hlength : positions.length = xs.countP q := by
    rw [List.length_map, ← List.countP_eq_length_filter]
    conv_rhs => rw [← List.zipIdx_map_fst 0 xs, List.countP_map]
    rfl
  have hset : {i : Nat | ∃ x, xs[i]? = some x ∧ q x = true} = ↑positions.toFinset := by
    ext i
    simp [positions, List.mk_mem_zipIdx_iff_getElem?]
  rw [hset, Set.ncard_coe_finset, List.toFinset_card_of_nodup hnodup, hlength]

theorem one_lt_length_iff : 1 < ids.length ↔ (∃ p ∈ ids, ∃ q ∈ ids, p ≠ q) ∨
    ∃ p, 1 < ids.count p ∧ ∀ q ∈ ids, q = p := by
  constructor
  · intro hlength
    by_cases hdiffer : ∃ p ∈ ids, ∃ q ∈ ids, p ≠ q
    · exact Or.inl hdiffer
    · push Not at hdiffer
      obtain ⟨p, hp⟩ := List.exists_mem_of_length_pos (Nat.zero_lt_of_lt hlength)
      have heq : ∀ q ∈ ids, q = p := fun q hq => hdiffer q hq p hp
      have hcount : ids.count p = ids.length := List.count_eq_length.mpr fun q hq => (heq q hq).symm
      exact Or.inr ⟨p, hcount ▸ hlength, heq⟩
  · rintro (⟨p, hp, q, hq, hne⟩ | ⟨p, hcount, -⟩)
    · by_contra hlength
      obtain ⟨only, rfl⟩ : ∃ only, ids = [only] := by
        have hpos := List.length_pos_of_mem hp
        exact List.length_eq_one_iff.mp (by omega)
      rw [List.mem_singleton] at hp hq
      exact hne (hp.trans hq.symm)
    · exact Nat.lt_of_lt_of_le hcount List.count_le_length

theorem pairwise_lt_iff (h : ids.Pairwise (· ≤ ·)) :
    ids.Pairwise (· < ·) ↔ ∀ p, ids.count p ≤ 1 := by
  rw [← List.nodup_iff_count_le_one]
  constructor
  · exact fun hlt => hlt.imp Nat.ne_of_lt
  · exact fun hnodup => (h.and hnodup).imp fun hboth => Nat.lt_of_le_of_ne hboth.1 hboth.2

namespace Graph

variable {g : Graph} {id c p : NodeId} {n : Node} {lo hi : Nat}

def parentsOf (g : Graph) (c : NodeId) : List NodeId := g.parents[c]?.getD []

def HasTwoParents (g : Graph) (c : NodeId) : Prop :=
  ∃ p q, p ≠ q ∧ RefersTo g.nodes p c ∧ RefersTo g.nodes q c

/-- A single node refers to the node, but more than once. -/
def OnlyRepeated (g : Graph) (c : NodeId) : Prop :=
  ∃ p, 1 < (sourcesAt g.nodes p).count c ∧ ∀ q, RefersTo g.nodes q c → q = p

theorem pairwise_parentsOf (g : Graph) (c : NodeId) : (g.parentsOf c).Pairwise (· ≤ ·) := by
  unfold parentsOf
  cases hcolumn : g.parents[c]? with
  | none => exact .nil
  | some ids =>
    exact pairwise_transpose (fun _ _ => Nat.le_of_lt) (fun _ _ i => Or.inr i.le_refl) hcolumn

theorem Tiles.lo_le (h : g.Tiles hi lo ids)
    (hproper : ∀ id ∈ ids, ∀ n, g.node? id = some n → n.span.Proper) (hid : id ∈ ids)
    (hn : g.node? id = some n) : lo ≤ n.span.lo := by
  induction ids generalizing lo with
  | nil => cases hid
  | cons child rest ih =>
    obtain ⟨m, hm, rfl, hrest⟩ := h
    rcases List.mem_cons.mp hid with rfl | hid
    · rw [hm] at hn
      rw [Option.some.inj hn]
    · have hlt : m.span.lo < m.span.hi := hproper child (by simp) m hm
      have hle := ih hrest (fun id hid => hproper id (by simp [hid])) hid
      omega

/-- No tile is used twice, as each begins where the one before it ends. -/
theorem Tiles.nodup (h : g.Tiles hi lo ids)
    (hproper : ∀ id ∈ ids, ∀ n, g.node? id = some n → n.span.Proper) : ids.Nodup := by
  induction ids generalizing lo with
  | nil => exact .nil
  | cons child rest ih =>
    obtain ⟨n, hn, rfl, hrest⟩ := h
    have hlt : n.span.lo < n.span.hi := hproper child (by simp) n hn
    have hrestProper : ∀ id ∈ rest, ∀ n, g.node? id = some n → n.span.Proper :=
      fun id hid => hproper id (by simp [hid])
    refine List.nodup_cons.mpr ⟨fun hchild => ?_, ih hrest hrestProper⟩
    have hle := hrest.lo_le hrestProper hchild hn
    omega

theorem Proper.nodup_sources (h : g.Proper) (hr : Reaches g.nodes g.root p)
    (hn : g.node? p = some n) (hkind : n.kind ≠ .or) : n.sources.Nodup := by
  obtain ⟨order, -, hl⟩ := h.exists_order
  cases n with
  | terminal s => exact .nil
  | and s children =>
    obtain ⟨-, htiles⟩ := h.keeps hn
    refine htiles.nodup fun id hid m hm => ?_
    have href : RefersTo g.nodes p id := refersTo_iff.mpr ⟨_, hn, hid⟩
    exact h.proper_of_mem hl id ((hl.mem_iff id).mpr (hr.tail href)) m hm
  | or s alternatives => exact absurd rfl hkind

theorem parentsOf_of_lt (hc : c < g.size) : g.parents[c]? = some (g.parentsOf c) := by
  rw [parentsOf, Array.getElem?_eq_getElem (g.size_parents ▸ hc), Option.getD_some]

theorem parentsOf_of_le (hc : g.size ≤ c) : g.parentsOf c = [] := by
  rw [parentsOf, Array.getElem?_eq_none (g.size_parents ▸ hc), Option.getD_none]

theorem shared_eq_ncard (g : Graph) :
    g.stats.shared = {c : NodeId | 1 < (g.parentsOf c).length}.ncard := by
  have hset : {i : Nat | ∃ ids, g.parents.toList[i]? = some ids ∧ decide (1 < ids.length) = true} =
      {c | 1 < (g.parentsOf c).length} := by
    ext c
    rw [Set.mem_ofPred_eq, Set.mem_ofPred_eq, Array.getElem?_toList, parentsOf]
    cases g.parents[c]? <;> simp
  rw [← hset, ← countP_eq_ncard, Array.countP_toList]
  rfl

section

variable (h : g.validate = .ok ())
include h

theorem lt_size_of_refersTo (href : RefersTo g.nodes p c) : c < g.size := by
  obtain ⟨n, hn, hc⟩ := refersTo_iff.mp href
  obtain ⟨m, hm⟩ := ((validate_eq_ok_iff.mp h).2.2 p n hn).exists_source c hc
  exact (Array.getElem?_eq_some_iff.mp hm).1

theorem count_parentsOf (c p : NodeId) :
    (g.parentsOf c).count p = (sourcesAt g.nodes p).count c := by
  rcases Nat.lt_or_ge c g.size with hc | hc
  · rw [count_transpose (parentsOf_of_lt hc), Array.getElem?_map, sourcesAt]
  · have hnone : c ∉ sourcesAt g.nodes p := fun href =>
      Nat.not_lt.mpr hc (lt_size_of_refersTo h href)
    rw [parentsOf_of_le hc, List.count_nil, List.count_eq_zero_of_not_mem hnone]

theorem mem_parentsOf : p ∈ g.parentsOf c ↔ RefersTo g.nodes p c := by
  rw [← List.count_pos_iff, count_parentsOf h, List.count_pos_iff, RefersTo]

theorem one_lt_length_parentsOf :
    1 < (g.parentsOf c).length ↔ g.HasTwoParents c ∨ g.OnlyRepeated c := by
  simp only [one_lt_length_iff, mem_parentsOf h, count_parentsOf h, HasTwoParents, OnlyRepeated]
  grind

theorem shared_eq_add : g.stats.shared =
    {c | g.HasTwoParents c}.ncard + {c | g.OnlyRepeated c}.ncard := by
  have hunion : {c : NodeId | 1 < (g.parentsOf c).length} =
      {c | g.HasTwoParents c} ∪ {c | g.OnlyRepeated c} := by
    ext c
    exact one_lt_length_parentsOf h
  have hfinite : {c : NodeId | 1 < (g.parentsOf c).length}.Finite := by
    refine (Set.finite_lt_nat g.size).subset fun c hc => ?_
    obtain ⟨p, hp⟩ := List.exists_mem_of_length_pos (Nat.zero_lt_of_lt hc)
    exact lt_size_of_refersTo h ((mem_parentsOf h).mp hp)
  rw [hunion] at hfinite
  have hdisjoint : Disjoint {c | g.HasTwoParents c} {c | g.OnlyRepeated c} := by
    refine Set.disjoint_left.mpr fun c htwo honly => ?_
    obtain ⟨p, q, hne, hp, hq⟩ := htwo
    obtain ⟨only, -, honly⟩ := honly
    exact hne ((honly p hp).trans (honly q hq).symm)
  rw [shared_eq_ncard, hunion, Set.ncard_union_eq hdisjoint
    (hfinite.subset Set.subset_union_left) (hfinite.subset Set.subset_union_right)]

end

/-- What the entries for parents tell of the references, and what is counted as shared. -/
structure ParentsListed (g : Graph) : Prop where
  size_eq : g.parents.size = g.size
  /-- No reference is left out, and nothing else is entered. -/
  mem_iff : ∀ c p, p ∈ g.parentsOf c ↔ RefersTo g.nodes p c
  ascending : ∀ c, (g.parentsOf c).Pairwise (· ≤ ·)
  count_eq : ∀ c p, (g.parentsOf c).count p = (sourcesAt g.nodes p).count c
  /-- The entries are different exactly if no node repeats the reference. -/
  strict_iff : ∀ c, (g.parentsOf c).Pairwise (· < ·) ↔ ∀ p, (sourcesAt g.nodes p).count c ≤ 1
  /-- What is shared has two parents, or one that repeats the reference. -/
  shared_eq : g.stats.shared = {c | g.HasTwoParents c}.ncard + {c | g.OnlyRepeated c}.ncard
  /-- Without repetitions, only nodes with two parents are shared. -/
  shared_of_nodup : (∀ p, (sourcesAt g.nodes p).Nodup) →
    g.stats.shared = {c | g.HasTwoParents c}.ncard
  /-- Within reach, only an or-node repeats a source. -/
  kind_of_repeats : 1 ≤ g.bounds.minSize → ∀ p n, Reaches g.nodes g.root p →
    g.node? p = some n → ¬ n.sources.Nodup → n.kind = .or

/-- A parent is entered as often as it refers to the node, and counted as often. -/
theorem parents_listed (g : Graph) (h : g.validate = .ok ()) : g.ParentsListed where
  size_eq := g.size_parents
  mem_iff c p := mem_parentsOf h
  ascending := g.pairwise_parentsOf
  count_eq := count_parentsOf h
  strict_iff c := by
    simp only [pairwise_lt_iff (g.pairwise_parentsOf c), count_parentsOf h]
  shared_eq := shared_eq_add h
  shared_of_nodup hnodup := by
    have hnone : {c | g.OnlyRepeated c} = ∅ := by
      apply Set.eq_empty_iff_forall_notMem.mpr
      intro c honly
      obtain ⟨p, hrepeats, -⟩ := honly
      exact Nat.not_lt.mpr (List.nodup_iff_count_le_one.mp (hnodup p) c) hrepeats
    rw [shared_eq_add h, hnone, Set.ncard_empty, Nat.add_zero]
  kind_of_repeats hmin p n hr hn hrepeats := by
    by_contra hkind
    exact hrepeats (Proper.nodup_sources ⟨h, hmin⟩ hr hn hkind)

/-- Three positions joined in two ways, which share the first leaf; one of the two joins is offered
twice. -/
def threeWays : Graph where
  nodes := #[.terminal ⟨0, 1⟩, .terminal ⟨1, 2⟩, .terminal ⟨2, 3⟩, .terminal ⟨1, 3⟩,
    .and ⟨0, 3⟩ [0, 3], .and ⟨0, 3⟩ [0, 1, 2], .or ⟨0, 3⟩ [4, 5, 5]]
  root := 6
  bounds := { dim := 3 }

theorem parents_listed_threeWays : threeWays.validate = .ok () ∧
    threeWays.parentsOf 0 = [4, 5] ∧ (threeWays.parentsOf 0).Pairwise (· < ·) ∧
      threeWays.parentsOf 5 = [6, 6] ∧ RefersTo threeWays.nodes 6 5 ∧
        threeWays.stats.shared =
          {c | threeWays.HasTwoParents c}.ncard + {c | threeWays.OnlyRepeated c}.ncard := by
  have hvalid : threeWays.validate = .ok () := by decide +kernel
  have h := parents_listed threeWays hvalid
  have hfirst : threeWays.parentsOf 0 = [4, 5] := by decide +kernel
  have hjoin : threeWays.parentsOf 5 = [6, 6] := by decide +kernel
  refine ⟨hvalid, hfirst, ?_, hjoin, (h.mem_iff 5 6).mp (by simp [hjoin]), h.shared_eq⟩
  rw [hfirst]
  decide

/-- A leaf that is offered twice. -/
def repeatedChoice : Graph where
  nodes := #[.terminal ⟨0, 2⟩, .or ⟨0, 2⟩ [0, 0]]
  root := 1
  bounds := { dim := 2 }

/-- A parent may be listed twice, and a node be counted as shared that has a single parent. -/
theorem parents_repeated : repeatedChoice.validate = .ok () ∧
    repeatedChoice.parents = #[[1, 1], []] ∧ ¬ (repeatedChoice.parentsOf 0).Pairwise (· < ·) ∧
      repeatedChoice.stats.shared = 1 ∧ {c | repeatedChoice.HasTwoParents c}.ncard = 0 := by
  have hvalid : repeatedChoice.validate = .ok () := by decide +kernel
  have hparents : repeatedChoice.parents = #[[1, 1], []] := by decide +kernel
  have hrefers : ∀ p c, RefersTo repeatedChoice.nodes p c → p = 1 := by
    intro p c href
    obtain ⟨n, hn, -⟩ := refersTo_iff.mp href
    have hp : p < 2 := (Array.getElem?_eq_some_iff.mp hn).1
    have hleaf : p ≠ 0 := by
      rintro rfl
      exact List.not_mem_nil href
    exact Nat.le_antisymm (Nat.le_of_lt_succ hp) (Nat.pos_of_ne_zero hleaf)
  have hnone : {c | repeatedChoice.HasTwoParents c} = ∅ := by
    refine Set.eq_empty_iff_forall_notMem.mpr fun c htwo => ?_
    obtain ⟨p, q, hne, hp, hq⟩ := htwo
    exact hne ((hrefers p c hp).trans (hrefers q c hq).symm)
  refine ⟨hvalid, hparents, ?_, by decide +kernel, by rw [hnone, Set.ncard_empty]⟩
  rw [parentsOf, hparents]
  decide

end Graph
end AndOrFlow
