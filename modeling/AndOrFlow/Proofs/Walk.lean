import AndOrFlow.Graph.PostOrder
import AndOrFlow.Proofs.Outcome
import Mathlib.Data.List.Perm.Subperm
import Mathlib.Logic.Relation

/-!
# What the post-order walk lists

On any array of nodes the walk ends in one of three ways: it lists what the starting node reaches,
sources first, or it names a reachable node with a dangling reference, or a reachable node on a
cycle. Depth never runs out, because the nodes being visited are distinct.
-/
namespace AndOrFlow
open Relation
variable {nodes : Array Node} {id source root : NodeId} {path : List NodeId}
  {done more : Roster NodeId}

def sourcesAt (nodes : Array Node) (id : NodeId) : List NodeId :=
  (nodes[id]?.map Node.sources).getD []

def RefersTo (nodes : Array Node) (id source : NodeId) : Prop := source ∈ sourcesAt nodes id

/-- A chain of references, possibly empty, leads from the first node to the second. -/
abbrev Reaches (nodes : Array Node) : NodeId → NodeId → Prop := ReflTransGen (RefersTo nodes)

theorem refersTo_iff : RefersTo nodes id source ↔ ∃ n, nodes[id]? = some n ∧ source ∈ n.sources := by
  unfold RefersTo sourcesAt
  cases nodes[id]? <;> simp

/-- Every listed node comes after all its sources. -/
structure Settled (nodes : Array Node) (done : Roster NodeId) : Prop where
  lt_size : ∀ id ∈ done, id < nodes.size
  sources_before : ∀ (before : List NodeId) (id : NodeId) (after : List NodeId),
    done.toList = before ++ id :: after → ∀ source, RefersTo nodes id source → source ∈ before

/-- Why a walk from `start` may find no order. -/
def Stuck (nodes : Array Node) (start : NodeId) : GraphError → Prop
  | .dangling node child =>
    Reaches nodes start node ∧ RefersTo nodes node child ∧ nodes.size ≤ child
  | .cycle node => Reaches nodes start node ∧ TransGen (RefersTo nodes) node node
  | _ => False

abbrev WalkEnd (nodes : Array Node) (start : NodeId) (post : Roster NodeId → Prop) :
    Except GraphError (Roster NodeId) → Prop :=
  Outcome post (Stuck nodes start)

/-- What a visit below the nodes of `path` has added. -/
structure Grown (nodes : Array Node) (path : List NodeId) (start : NodeId)
    (done more : Roster NodeId) : Prop where
  settled : Settled nodes more
  extend : done.toList <+: more.toList
  fresh : ∀ id ∈ more, id ∈ done ∨ (Reaches nodes start id ∧ id ∉ path)

theorem Stuck.of_refersTo {e : GraphError} (href : RefersTo nodes id source)
    (h : Stuck nodes source e) : Stuck nodes id e := by
  cases e with
  | dangling => exact ⟨h.1.head href, h.2⟩
  | cycle => exact ⟨h.1.head href, h.2⟩
  | _ => exact h

theorem Grown.trans {start : NodeId} {last : Roster NodeId}
    (h : Grown nodes path start done more) (h' : Grown nodes path start more last) :
    Grown nodes path start done last := by
  refine ⟨h'.settled, h.extend.trans h'.extend, ?_⟩
  intro v hv
  rcases h'.fresh v hv with hv | hv
  · exact h.fresh v hv
  · exact Or.inr hv

theorem Grown.of_refersTo (href : RefersTo nodes id source)
    (h : Grown nodes path source done more) : Grown nodes path id done more :=
  ⟨h.settled, h.extend, fun v hv => (h.fresh v hv).imp_right fun hr => ⟨hr.1.head href, hr.2⟩⟩

theorem Roster.mem_of_extends (h : done.toList <+: more.toList) (hid : id ∈ done) : id ∈ more :=
  Roster.mem_toList.mp (h.subset (Roster.mem_toList.mpr hid))

/-- A node is listed once all its sources are. -/
theorem Settled.add (h : Settled nodes done) (hid : id < nodes.size) (hnew : id ∉ done)
    (hsources : ∀ source, RefersTo nodes id source → source ∈ done) :
    Settled nodes (done.add id) := by
  have hlist : (done.add id).toList = done.toList ++ [id] := by simp [hnew]
  refine ⟨?_, ?_⟩
  · intro v hv
    rcases Roster.mem_add.mp hv with hv | rfl
    · exact h.lt_size v hv
    · exact hid
  · intro before v after heq source href
    rw [hlist] at heq
    rcases List.eq_nil_or_concat after with rfl | ⟨front, last, rfl⟩
    · obtain ⟨rfl, hv⟩ := List.append_inj' heq rfl
      obtain rfl : id = v := by simpa using hv
      exact Roster.mem_toList.mpr (hsources source href)
    · have heq' : done.toList ++ [id] = (before ++ v :: front) ++ [last] := by
        rw [heq]
        simp
      obtain ⟨hfront, -⟩ := List.append_inj' heq' rfl
      exact h.sources_before before v front hfront source href

theorem visitSources_end
    {enter : NodeId → Roster NodeId → Except GraphError (Roster NodeId)}
    (henter : ∀ child done, child < nodes.size → child ∉ done → child ∉ path →
      RefersTo nodes id child → Settled nodes done →
      WalkEnd nodes child (fun more => Grown nodes path child done more ∧ child ∈ more)
        (enter child done))
    (hpath : ∀ open_ ∈ path, ReflTransGen (RefersTo nodes) open_ id)
    (children : List NodeId) (hchildren : ∀ child ∈ children, RefersTo nodes id child)
    (done : Roster NodeId) (hdone : Settled nodes done) :
    WalkEnd nodes id
      (fun more => Grown nodes path id done more ∧ ∀ child ∈ children, child ∈ more)
      (visitSources enter nodes.size path id children done) := by
  induction children generalizing done with
  | nil => exact ⟨⟨hdone, List.prefix_rfl, fun v hv => Or.inl hv⟩, by simp⟩
  | cons child rest ih =>
    have hrest : ∀ c ∈ rest, RefersTo nodes id c := fun c hc => hchildren c (by simp [hc])
    have href := hchildren child (by simp)
    unfold visitSources
    split
    · rename_i hsize
      exact ⟨.refl, href, hsize⟩
    · rename_i hsize
      split
      · rename_i hmem
        refine (ih hrest done hdone).imp fun more hmore => ⟨hmore.1, ?_⟩
        intro c hc
        rcases List.mem_cons.mp hc with rfl | hc
        · exact Roster.mem_of_extends hmore.1.extend hmem
        · exact hmore.2 c hc
      · rename_i hmem
        split
        · rename_i hopen
          exact ⟨.single href, TransGen.tail' (hpath child hopen) href⟩
        · rename_i hopen
          have hchild := henter child done (by omega) hmem hopen href hdone
          refine (hchild.imp_error fun e => .of_refersTo href).bind fun mid hmid => ?_
          have hgrown := hmid.1.of_refersTo href
          refine (ih hrest mid hgrown.settled).imp fun more hmore => ⟨hgrown.trans hmore.1, ?_⟩
          intro c hc
          rcases List.mem_cons.mp hc with rfl | hc
          · exact Roster.mem_of_extends hmore.1.extend hmid.2
          · exact hmore.2 c hc

theorem length_le_of_nodup (hpath : path.Nodup) (hlt : ∀ v ∈ path, v < nodes.size) :
    path.length ≤ nodes.size := by
  have hsub : path ⊆ List.range nodes.size := fun v hv => List.mem_range.mpr (hlt v hv)
  simpa using (List.subperm_of_subset hpath hsub).length_le

theorem visit_end (depth : Nat) (path : List NodeId) (id : NodeId) (done : Roster NodeId)
    (hnodup : (id :: path).Nodup) (hlt : ∀ v ∈ id :: path, v < nodes.size)
    (hdepth : nodes.size ≤ depth + path.length)
    (hpath : ∀ v ∈ path, Reaches nodes v id) (hnew : id ∉ done) (hdone : Settled nodes done) :
    WalkEnd nodes id
      (fun more => Grown nodes path id done more ∧ more.toList.getLast? = some id)
      (visit nodes depth path id done) := by
  induction depth generalizing path id done with
  | zero =>
    -- More distinct nodes would be open than there are.
    have := length_le_of_nodup hnodup hlt
    simp only [List.length_cons] at this
    omega
  | succ depth ih =>
    have hopen : ∀ v ∈ id :: path, Reaches nodes v id := by
      intro v hv
      rcases List.mem_cons.mp hv with rfl | hv
      · exact .refl
      · exact hpath v hv
    have henter : ∀ child done, child < nodes.size → child ∉ done → child ∉ id :: path →
        RefersTo nodes id child → Settled nodes done →
        WalkEnd nodes child (fun more => Grown nodes (id :: path) child done more ∧ child ∈ more)
          (visit nodes depth (id :: path) child done) := by
      intro child done hsize hmem hcycle href hsettled
      have hchild : ∀ v ∈ child :: id :: path, v < nodes.size := by
        intro v hv
        rcases List.mem_cons.mp hv with rfl | hv
        · exact hsize
        · exact hlt v hv
      have hvisit := ih (id :: path) child done (List.nodup_cons.mpr ⟨hcycle, hnodup⟩) hchild
        (by simp only [List.length_cons]; omega)
        (fun v hv => (hopen v hv).tail href) hmem hsettled
      exact hvisit.imp fun more hmore =>
        ⟨hmore.1, Roster.mem_toList.mp (List.mem_of_getLast? hmore.2)⟩
    have hsources := visitSources_end henter hopen (sourcesAt nodes id) (fun child hchild => hchild)
      done hdone
    refine hsources.bind fun more hmore => ?_
    obtain ⟨hgrown, hall⟩ := hmore
    have hid : id ∉ more := by
      intro hid
      rcases hgrown.fresh id hid with h | ⟨-, h⟩
      · exact hnew h
      · exact h (by simp)
    have hlist : (more.add id).toList = more.toList ++ [id] := by simp [hid]
    refine ⟨⟨hgrown.settled.add (hlt id (by simp)) hid hall, ?_, ?_⟩, by simp [hlist]⟩
    · exact hgrown.extend.trans (hlist ▸ List.prefix_append _ _)
    · intro v hv
      rcases Roster.mem_add.mp hv with hv | rfl
      · rcases hgrown.fresh v hv with h | ⟨hr, hp⟩
        · exact Or.inl h
        · exact Or.inr ⟨hr, fun h => hp (by simp [h])⟩
      · exact Or.inr ⟨.refl, (List.nodup_cons.mp hnodup).1⟩

theorem Settled.mem_of_reaches (h : Settled nodes done) (hid : id ∈ done)
    (hr : Reaches nodes id source) : source ∈ done := by
  induction hr with
  | refl => exact hid
  | tail _ href ih =>
    obtain ⟨before, after, heq⟩ := List.append_of_mem (Roster.mem_toList.mpr ih)
    have hmem := h.sources_before before _ after heq _ href
    exact Roster.mem_toList.mp (heq ▸ List.mem_append_left _ hmem)

theorem Settled.exists_earlier {place : Nat} (h : Settled nodes done)
    (hid : done.toList[place]? = some id) (href : RefersTo nodes id source) :
    ∃ earlier < place, done.toList[earlier]? = some source := by
  obtain ⟨hlt, heq⟩ := List.getElem?_eq_some_iff.mp hid
  have hsplit : done.toList = done.toList.take place ++ id :: done.toList.drop (place + 1) := by
    rw [← heq, List.getElem_cons_drop, List.take_append_drop]
  have hmem := h.sources_before _ id _ hsplit source href
  obtain ⟨earlier, hearlier⟩ := List.mem_iff_getElem?.mp hmem
  rw [List.getElem?_take] at hearlier
  split at hearlier
  · rename_i hbefore
    exact ⟨earlier, hbefore, hearlier⟩
  · cases hearlier

theorem Settled.exists_earlier_of_transGen {place : Nat} (h : Settled nodes done)
    (hid : done.toList[place]? = some id) (htrans : TransGen (RefersTo nodes) id source) :
    ∃ earlier < place, done.toList[earlier]? = some source := by
  induction htrans with
  | single href => exact h.exists_earlier hid href
  | tail _ href ih =>
    obtain ⟨middle, hmiddle, hlisted⟩ := ih
    obtain ⟨earlier, hearlier, hsource⟩ := h.exists_earlier hlisted href
    exact ⟨earlier, Nat.lt_trans hearlier hmiddle, hsource⟩

theorem Settled.acyclic (h : Settled nodes done) (hid : id ∈ done) :
    ¬ TransGen (RefersTo nodes) id id := by
  intro hcycle
  obtain ⟨place, hplace⟩ := List.mem_iff_getElem?.mp (Roster.mem_toList.mpr hid)
  obtain ⟨earlier, hlt, hearlier⟩ := h.exists_earlier_of_transGen hplace hcycle
  have hbound := (List.getElem?_eq_some_iff.mp hearlier).1
  have hsame := (List.getElem?_inj hbound done.nodup_toList).mp (hearlier.trans hplace.symm)
  exact Nat.ne_of_lt hlt hsame

/-- Induction along a settled list, from the sources of a node to the node. -/
theorem Settled.induct {motive : NodeId → Prop} (h : Settled nodes done)
    (step : ∀ id ∈ done, (∀ source, RefersTo nodes id source → source ∈ done ∧ motive source) →
      motive id) : ∀ id ∈ done, motive id := by
  have hsplit : ∀ (n : Nat) (before : List NodeId) (id : NodeId) (after : List NodeId),
      before.length = n → done.toList = before ++ id :: after → motive id := by
    intro n
    induction n using Nat.strongRecOn with
    | _ n ih =>
      intro before id after hlen heq
      refine step id (Roster.mem_toList.mp (by simp [heq])) fun source href => ?_
      have hmem := h.sources_before before id after heq source href
      refine ⟨Roster.mem_toList.mp (by simp [heq, hmem]), ?_⟩
      obtain ⟨front, back, rfl⟩ := List.append_of_mem hmem
      refine ih front.length ?_ front source (back ++ id :: after) rfl (by simp [heq])
      simp only [List.length_append, List.length_cons] at hlen
      omega
  intro id hid
  obtain ⟨before, after, heq⟩ := List.append_of_mem (Roster.mem_toList.mpr hid)
  exact hsplit _ before id after rfl heq

structure Listed (nodes : Array Node) (root : NodeId) (order : Roster NodeId) : Prop where
  settled : Settled nodes order
  mem_iff : ∀ id, id ∈ order ↔ Reaches nodes root id
  last : order.toList.getLast? = some root

theorem postOrder_eq_visit (hroot : root < nodes.size) :
    postOrder nodes root = visit nodes nodes.size [] root .empty := by
  have hempty : ¬ nodes.isEmpty = true := by
    rw [Array.isEmpty_iff]
    rintro rfl
    exact Nat.not_lt_zero root hroot
  rw [postOrder, if_neg hempty, if_neg (Nat.not_le.mpr hroot)]

theorem postOrder_end (hroot : root < nodes.size) :
    WalkEnd nodes root (Listed nodes root) (postOrder nodes root) := by
  have hstart : Settled nodes (.empty : Roster NodeId) :=
    ⟨fun v hv => by simp [← Roster.mem_toList] at hv, fun before v after heq => by simp at heq⟩
  have hvisit := visit_end nodes.size [] root .empty (by simp) (by simpa using hroot) (by simp)
    (by simp) (by simp [← Roster.mem_toList]) hstart
  rw [postOrder_eq_visit hroot]
  refine hvisit.imp fun order horder => ⟨horder.1.settled, ?_, horder.2⟩
  intro id
  have hmem : root ∈ order := Roster.mem_toList.mp (List.mem_of_getLast? horder.2)
  constructor
  · intro hid
    rcases horder.1.fresh id hid with h | h
    · simp [← Roster.mem_toList] at h
    · exact h.1
  · exact fun hr => horder.1.settled.mem_of_reaches hmem hr

theorem listed_of_postOrder {order : Roster NodeId} (h : postOrder nodes root = .ok order) :
    Listed nodes root order := by
  have hroot : root < nodes.size := by
    by_contra hroot
    unfold postOrder at h
    split at h
    · cases h
    · rw [if_pos (Nat.le_of_not_lt hroot)] at h
      cases h
  have hend := postOrder_end hroot
  rwa [h] at hend

theorem rank_lt_of_transGen {rank : NodeId → Nat}
    (hlt : ∀ id source, RefersTo nodes id source → rank source < rank id)
    (h : TransGen (RefersTo nodes) id source) : rank source < rank id := by
  induction h with
  | single href => exact hlt _ _ href
  | tail _ href ih => exact Nat.lt_trans (hlt _ _ href) ih

/-- Where no reference dangles and every one leads to a smaller rank, the walk succeeds. -/
theorem exists_postOrder_of_rank (hroot : root < nodes.size) (rank : NodeId → Nat)
    (hsize : ∀ id source, RefersTo nodes id source → source < nodes.size)
    (hlt : ∀ id source, RefersTo nodes id source → rank source < rank id) :
    ∃ order, postOrder nodes root = .ok order ∧ Listed nodes root order := by
  have hend := postOrder_end hroot
  cases heq : postOrder nodes root with
  | ok order => exact ⟨order, rfl, by rwa [heq] at hend⟩
  | error e =>
    rw [heq] at hend
    cases e with
    | dangling node child =>
      obtain ⟨-, href, hdangling⟩ := hend
      exact absurd hdangling (Nat.not_le.mpr (hsize _ _ href))
    | cycle node => exact absurd (rank_lt_of_transGen hlt hend.2) (Nat.lt_irrefl _)
    | _ => exact hend.elim

theorem exists_postOrder (hroot : root < nodes.size)
    (hlt : ∀ id source, RefersTo nodes id source → source < id) :
    ∃ order, postOrder nodes root = .ok order ∧ Listed nodes root order := by
  refine exists_postOrder_of_rank hroot (fun id => id) (fun id source href => ?_) hlt
  obtain ⟨n, hn, -⟩ := refersTo_iff.mp href
  exact Nat.lt_trans (hlt id source href) (Array.getElem?_eq_some_iff.mp hn).1

end AndOrFlow
