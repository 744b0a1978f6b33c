import AndOrFlow.Proofs.Renumbering

/-!
# The form of a node

Unfolding a node and its sources all the way down leaves a tree without numbers. Where references
lead to earlier nodes every node has one such form, and related nodes of two arrays have the same.
-/
namespace AndOrFlow

/-- A node with its sources in full. -/
inductive Form where
  | node (kind : Kind) (span : Span) (sources : List Form)

mutual

inductive HasForm (nodes : Array Node) : NodeId → Form → Prop
  | node {id : NodeId} {n : Node} {forms : List Form} (hn : nodes[id]? = some n)
      (h : HaveForms nodes n.sources forms) : HasForm nodes id (.node n.kind n.span forms)

inductive HaveForms (nodes : Array Node) : List NodeId → List Form → Prop
  | nil : HaveForms nodes [] []
  | cons {id : NodeId} {ids : List NodeId} {form : Form} {forms : List Form}
      (h : HasForm nodes id form) (hrest : HaveForms nodes ids forms) :
      HaveForms nodes (id :: ids) (form :: forms)

end

variable {nodes twins : Array Node} {id : NodeId} {ids : List NodeId} {R : NodeId → NodeId → Prop}

mutual

theorem HasForm.unique {id : NodeId} {form other : Form} :
    HasForm nodes id form → HasForm nodes id other → form = other
  | .node hn h, .node hm h' => by
    obtain rfl := Option.some.inj (hn.symm.trans hm)
    rw [h.unique h']

theorem HaveForms.unique {ids : List NodeId} {forms others : List Form} :
    HaveForms nodes ids forms → HaveForms nodes ids others → forms = others
  | .nil, .nil => rfl
  | .cons h hrest, .cons h' hrest' => by rw [h.unique h', hrest.unique hrest']

end

mutual

theorem HasForm.of_matches (hR : Matches R nodes twins) {id twin : NodeId} {form : Form}
    (hr : R id twin) : HasForm nodes id form → HasForm twins twin form
  | .node hm h => by
    obtain ⟨m, n, hm', hn, hkind, hspan, hsources⟩ := hR.node id twin hr
    obtain rfl := Option.some.inj (hm.symm.trans hm')
    rw [hkind, hspan]
    exact .node hn (h.of_matches hR hsources)

theorem HaveForms.of_matches (hR : Matches R nodes twins) {ids others : List NodeId}
    {forms : List Form} (hr : List.Forall₂ R ids others) :
    HaveForms nodes ids forms → HaveForms twins others forms
  | .nil => by
    obtain rfl := List.forall₂_nil_left_iff.mp hr
    exact .nil
  | .cons h hrest => by
    obtain ⟨twin, rest, htwin, hothers, rfl⟩ := List.forall₂_cons_left_iff.mp hr
    exact .cons (h.of_matches hR htwin) (hrest.of_matches hR hothers)

end

theorem exists_haveForms (h : ∀ id ∈ ids, ∃ form, HasForm nodes id form) :
    ∃ forms, HaveForms nodes ids forms := by
  induction ids with
  | nil => exact ⟨[], .nil⟩
  | cons id rest ih =>
    obtain ⟨⟨form, hform⟩, hrest⟩ := List.forall_mem_cons.mp h
    obtain ⟨forms, hforms⟩ := ih hrest
    exact ⟨form :: forms, .cons hform hforms⟩

/-- A node has a form where references lead to earlier nodes. -/
theorem exists_hasForm
    (hlt : ∀ (id : NodeId) (n : Node), nodes[id]? = some n → ∀ source ∈ n.sources, source < id)
    (hid : id < nodes.size) : ∃ form, HasForm nodes id form := by
  induction id using Nat.strongRecOn with
  | _ id ih =>
    have hn : nodes[id]? = some nodes[id] := Array.getElem?_eq_getElem hid
    have hsources : ∀ source ∈ nodes[id].sources, ∃ form, HasForm nodes source form := by
      intro source hsource
      have hlower := hlt id _ hn source hsource
      exact ih source hlower (Nat.lt_trans hlower hid)
    obtain ⟨forms, hforms⟩ := exists_haveForms hsources
    exact ⟨_, .node hn hforms⟩

/-- There is an answer neither here nor there, or both unfold to the same and to nothing else. -/
def SameForm (nodes twins : Array Node) : Option NodeId → Option NodeId → Prop
  | none, none => True
  | some id, some twin =>
    ∃ form, ∀ other, (HasForm nodes id other ↔ other = form) ∧
      (HasForm twins twin other ↔ other = form)
  | _, _ => False

/-- Answers that stand for the same item have the same form. -/
theorem Cache.Catalog.sameForm {b : Bounds} {c d : Cache} {items others : List Item}
    {answer reply : Option NodeId} {expected : Option Item} (h : Catalog b c items)
    (h' : Catalog b d others) (hanswer : answer.map (fun id => items[id]?) = expected.map some)
    (hreply : reply.map (fun id => others[id]?) = expected.map some) :
    SameForm c.store.nodes d.store.nodes answer reply := by
  cases expected with
  | none =>
    obtain rfl : answer = none := Option.map_eq_none_iff.mp hanswer
    obtain rfl : reply = none := Option.map_eq_none_iff.mp hreply
    exact trivial
  | some x =>
    obtain ⟨id, rfl, hid⟩ := Option.map_eq_some_iff.mp hanswer
    obtain ⟨twin, rfl, htwin⟩ := Option.map_eq_some_iff.mp hreply
    obtain ⟨n, hn, -⟩ := h.exists_node hid
    obtain ⟨form, hform⟩ := exists_hasForm h.sources_lt (Array.getElem?_eq_some_iff.mp hn).1
    have hform' := hform.of_matches (h.matches_sameItem h') ⟨x, hid, htwin⟩
    refine ⟨form, fun other => ⟨⟨fun hother => hother.unique hform, ?_⟩,
      ⟨fun hother => hother.unique hform', ?_⟩⟩⟩
    · rintro rfl
      exact hform
    · rintro rfl
      exact hform'

end AndOrFlow
