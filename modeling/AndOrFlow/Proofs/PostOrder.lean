import AndOrFlow.Proofs.Renumbering

/-!
# The walk on any graph

The walk may be asked to order any nodes from any root. It succeeds exactly if what the root reaches
is sound: no reference dangles there and none leads round. What is out of reach does not matter. An
error names what is wrong, and no walk is cut short: one that may go deeper ends the same.
-/
namespace AndOrFlow
open Relation

variable {nodes : Array Node} {id source root depth fuel size : Nat} {path : List NodeId}
  {done : Roster NodeId} {e : GraphError}

/-- Visiting sources only depends on how the sources are entered that are not open. -/
theorem visitSources_congr
    {enter follow : NodeId → Roster NodeId → Except GraphError (Roster NodeId)}
    (h : ∀ child done, child < size → child ∉ path → enter child done = follow child done)
    (children : List NodeId) (done : Roster NodeId) :
    visitSources enter size path id children done =
      visitSources follow size path id children done := by
  induction children generalizing done with
  | nil => rfl
  | cons child rest ih =>
    rw [visitSources, visitSources]
    split
    · rfl
    · rename_i hsize
      split
      · exact ih done
      · split
        · rfl
        · rename_i hopen
          rw [h child done (Nat.lt_of_not_le hsize) hopen]
          exact bind_congr ih

/-- Any depth that leaves room for the nodes that are not open yet is as good as any other. -/
theorem visit_depth (h : Open nodes depth path id) (h' : Open nodes fuel path id)
    (done : Roster NodeId) : visit nodes depth path id done = visit nodes fuel path id done := by
  -- Neither depth is used up, as the open nodes are distinct and all stored.
  induction depth generalizing fuel path id done with
  | zero => exact absurd h.depth_pos (Nat.lt_irrefl 0)
  | succ depth ih =>
    obtain ⟨fuel, rfl⟩ := Nat.exists_eq_succ_of_ne_zero (Nat.ne_of_gt h'.depth_pos)
    have henter : ∀ child done, child < nodes.size → child ∉ id :: path →
        visit nodes depth (id :: path) child done = visit nodes fuel (id :: path) child done :=
      fun child done hlt hnew => ih (h.enter hlt hnew) (h'.enter hlt hnew) done
    rw [visit, visit, visitSources_congr henter]

/-- What can be wrong with a walk. -/
theorem wrong_of_postOrder (h : postOrder nodes root = .error e) :
    e = .empty ∧ nodes.size = 0 ∨ e = .dangling root root ∧ nodes.size ≤ root ∨
      Stuck nodes root e := by
  rcases Nat.lt_or_ge root nodes.size with hroot | hroot
  · have hend := postOrder_end hroot
    rw [h] at hend
    exact Or.inr (Or.inr hend)
  · unfold postOrder at h
    split at h
    · rename_i hempty
      cases h
      exact Or.inl ⟨rfl, Array.size_eq_zero_iff.mpr (Array.isEmpty_iff.mp hempty)⟩
    · cases h
      exact Or.inr (Or.inl ⟨rfl, hroot⟩)

theorem kind_of_postOrder (h : postOrder nodes root = .error e) :
    e = .empty ∨ (∃ node, e = .cycle node) ∨ ∃ node child, e = .dangling node child := by
  rcases wrong_of_postOrder h with ⟨heq, -⟩ | ⟨heq, -⟩ | hstuck
  · exact Or.inl heq
  · exact Or.inr (Or.inr ⟨_, _, heq⟩)
  · cases e with
    | cycle node => exact Or.inr (Or.inl ⟨node, rfl⟩)
    | dangling node child => exact Or.inr (Or.inr ⟨node, child, rfl⟩)
    | _ => exact hstuck.elim

theorem postOrder_of_empty (h : nodes.size = 0) : postOrder nodes root = .error .empty := by
  rw [postOrder, if_pos (Array.isEmpty_iff.mpr (Array.size_eq_zero_iff.mp h))]

theorem postOrder_ne_empty (h : nodes.size ≠ 0) : postOrder nodes root ≠ .error .empty := by
  intro herror
  rcases wrong_of_postOrder herror with ⟨-, hsize⟩ | ⟨heq, -⟩ | hstuck
  · exact h hsize
  · cases heq
  · exact hstuck

/-- The root is stored, and nothing that it reaches refers to a missing node or leads round. -/
structure SoundBelow (nodes : Array Node) (root : NodeId) : Prop where
  root_lt : root < nodes.size
  source_lt : ∀ id source, Reaches nodes root id → RefersTo nodes id source → source < nodes.size
  acyclic : ∀ id, Reaches nodes root id → ¬ TransGen (RefersTo nodes) id id

theorem Listed.soundBelow {order : Roster NodeId} (h : Listed nodes root order) :
    SoundBelow nodes root where
  root_lt := h.settled.lt_size root ((h.mem_iff root).mpr .refl)
  source_lt _ source hr href := h.settled.lt_size source ((h.mem_iff source).mpr (hr.tail href))
  acyclic id hr := h.settled.acyclic ((h.mem_iff id).mpr hr)

theorem SoundBelow.not_stuck (h : SoundBelow nodes root) : ¬ Stuck nodes root e := by
  intro hstuck
  cases e with
  | dangling node child =>
    obtain ⟨hr, href, hdangling⟩ := hstuck
    exact Nat.not_le.mpr (h.source_lt node child hr href) hdangling
  | cycle node => exact h.acyclic node hstuck.1 hstuck.2
  | _ => exact hstuck

theorem SoundBelow.exists_order (h : SoundBelow nodes root) :
    ∃ order, postOrder nodes root = .ok order := by
  rcases (postOrder_end h.root_lt).ok_or_error with ⟨order, horder, -⟩ | ⟨e, -, hstuck⟩
  · exact ⟨order, horder⟩
  · exact absurd hstuck h.not_stuck

/-- What the root reaches, each node once and after all that it refers to, the root last. -/
structure PostOrdered (nodes : Array Node) (root : NodeId) (ids : List NodeId) : Prop where
  nodup : ids.Nodup
  mem_iff : ∀ id, id ∈ ids ↔ Reaches nodes root id
  sources_before : ∀ before id after, ids = before ++ id :: after →
    ∀ source, RefersTo nodes id source → source ∈ before
  last : ids.getLast? = some root

theorem Listed.postOrdered {order : Roster NodeId} (h : Listed nodes root order) :
    PostOrdered nodes root order.toList where
  nodup := order.nodup_toList
  mem_iff id := Roster.mem_toList.trans (h.mem_iff id)
  sources_before := h.settled.sources_before
  last := h.last

namespace Graph

structure OrderDecided (g : Graph) (outcome : Except GraphError (Roster NodeId)) : Prop where
  empty_iff : outcome = .error .empty ↔ g.size = 0
  ok_iff : (∃ order, outcome = .ok order) ↔ SoundBelow g.nodes g.root
  order : ∀ order, outcome = .ok order → PostOrdered g.nodes g.root order.toList
  cycle : ∀ node, outcome = .error (.cycle node) →
    Reaches g.nodes g.root node ∧ TransGen (RefersTo g.nodes) node node
  dangling : ∀ node child, outcome = .error (.dangling node child) →
    (node = g.root ∧ child = g.root ∧ g.size ≤ g.root) ∨
      (Reaches g.nodes g.root node ∧ RefersTo g.nodes node child ∧ g.size ≤ child)
  no_other : ∀ e, outcome = .error e →
    e = .empty ∨ (∃ node, e = .cycle node) ∨ ∃ node child, e = .dangling node child

/-- Whatever the nodes are, the walk ends as they decide, and more depth makes no difference. -/
theorem postOrder_decided (g : Graph) : g.OrderDecided g.postOrder ∧
    (g.root < g.size → ∀ depth, g.size ≤ depth →
      visit g.nodes depth [] g.root .empty = g.postOrder) := by
  constructor
  · refine ⟨⟨?_, postOrder_of_empty⟩, ⟨?_, fun h => h.exists_order⟩, ?_, ?_, ?_,
      fun _ => kind_of_postOrder⟩
    · intro herror
      by_contra hsize
      exact postOrder_ne_empty hsize herror
    · rintro ⟨order, horder⟩
      exact (listed_of_postOrder horder).soundBelow
    · intro order horder
      exact (listed_of_postOrder horder).postOrdered
    · intro node herror
      rcases wrong_of_postOrder herror with ⟨heq, -⟩ | ⟨heq, -⟩ | hstuck
      · cases heq
      · cases heq
      · exact hstuck
    · intro node child herror
      rcases wrong_of_postOrder herror with ⟨heq, -⟩ | ⟨heq, hroot⟩ | hstuck
      · cases heq
      · cases heq
        exact Or.inl ⟨rfl, rfl, hroot⟩
      · exact Or.inr hstuck
  · intro hroot depth hdepth
    rw [postOrder, postOrder_eq_visit hroot]
    exact visit_depth (Open.of_root hroot hdepth) (Open.of_root hroot (Nat.le_refl _)) _

/-- Two positions listed as one child twice, next to an alternative of its own that refers to a
missing node, out of reach. -/
def tangled : Graph where
  nodes := #[.terminal ⟨0, 1⟩, .and ⟨0, 2⟩ [0, 0], .or ⟨0, 2⟩ [2, 7], .or ⟨0, 2⟩ [1, 1]]
  root := 3
  bounds := { dim := 2 }

theorem postOrder_decided_tangled : PostOrdered tangled.nodes 3 [0, 1, 3] ∧
    visit tangled.nodes 9 [] 3 .empty = tangled.postOrder := by
  have h := postOrder_decided tangled
  constructor
  · have hlist : tangled.postOrder.map Roster.toList = .ok [0, 1, 3] := by cbv
    cases horder : tangled.postOrder with
    | error e => simp [horder, Except.map] at hlist
    | ok order =>
      rw [horder] at hlist
      rw [← Except.ok.inj hlist]
      exact h.1.order order horder
  · exact h.2 (by decide) 9 (by decide)

end Graph
end AndOrFlow
