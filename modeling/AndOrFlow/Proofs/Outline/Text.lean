import AndOrFlow.Graph.Outline
import Mathlib.Data.List.Forall2

/-!
# The text of an outline

A line starts with its branches, three characters for each level, and goes on with the number of its
node, so both can be read off the text again. What follows the number tells the three kinds of
occurrence apart, and of a node that occurs for the first time it tells the kind and the span. No
line contains a line break, so the text of an outline falls into the texts of its lines.
-/
namespace AndOrFlow

variable {m n : Nat} {c : Char} {x y z w : List Char} {s t : Span} {p q : Node}
  {trail other : List Bool}

theorem isDigit_of_mem_repr (h : c ∈ (Nat.repr n).toList) : c.isDigit = true := by
  rw [Nat.toList_repr] at h
  exact Nat.isDigit_of_mem_toDigits (by decide) (by decide) h

theorem not_mem_repr (n : Nat) (h : c.isDigit = false) : c ∉ (Nat.repr n).toList := by
  intro hc
  rw [isDigit_of_mem_repr hc] at h
  cases h

theorem toList_repr_inj (h : (Nat.repr m).toList = (Nat.repr n).toList) : m = n := by
  rw [Nat.toList_repr, Nat.toList_repr] at h
  have hvalue := congrArg (fun digits => Nat.ofDigitChars 10 digits 0) h
  simpa only [Nat.ofDigitChars_ten_toDigits] using hvalue

/-- A character splits equal texts alike if it does not occur before. -/
theorem split_at_first (hx : c ∉ x) (hy : c ∉ y) (h : x ++ c :: z = y ++ c :: w) :
    x = y ∧ z = w := by
  induction x generalizing y with
  | nil =>
    cases y with
    | nil => exact ⟨rfl, (List.cons.inj h).2⟩
    | cons d y => exact absurd (by simp [(List.cons.inj h).1]) hy
  | cons d x ih =>
    cases y with
    | nil => exact absurd (by simp [(List.cons.inj h).1]) hx
    | cons e y =>
      obtain ⟨rfl, hrest⟩ := List.cons.inj h
      obtain ⟨rfl, hzw⟩ := ih (fun hc => hx (by simp [hc])) (fun hc => hy (by simp [hc])) hrest
      exact ⟨rfl, hzw⟩

/-- A number ends where a character is no digit. -/
theorem split_after_number (hc : c.isDigit = false)
    (h : (Nat.repr m).toList ++ c :: z = (Nat.repr n).toList ++ c :: w) : m = n ∧ z = w := by
  obtain ⟨hnumber, hrest⟩ := split_at_first (not_mem_repr m hc) (not_mem_repr n hc) h
  exact ⟨toList_repr_inj hnumber, hrest⟩

theorem Span.toList_text (s : Span) : s.text.toList =
    '[' :: ((Nat.repr s.lo).toList ++ ',' :: ' ' :: ((Nat.repr s.hi).toList ++ [')'])) := by
  simp [text, toString]

theorem Span.toList_text_inj (h : s.text.toList = t.text.toList) : s = t := by
  rw [toList_text, toList_text] at h
  obtain ⟨hlo, hrest⟩ := split_after_number (by decide) (List.cons.inj h).2
  obtain ⟨hhi, -⟩ := split_after_number (by decide) (List.cons.inj hrest).2
  exact Span.ext hlo hhi

theorem Span.newline_not_mem_text (s : Span) : '\n' ∉ s.text.toList := by
  rw [toList_text]
  have hlo := not_mem_repr s.lo (c := '\n') (by decide)
  have hhi := not_mem_repr s.hi (c := '\n') (by decide)
  simp only [List.mem_cons, List.mem_append, not_or]
  exact ⟨by decide, hlo, by decide, by decide, hhi, by decide⟩

theorem Kind.newline_not_mem_label (k : Kind) : '\n' ∉ k.label.toList := by
  cases k with
  | terminal | and | or => decide

namespace Node

theorem toList_text (p : Node) : p.text.toList = p.kind.label.toList ++ p.span.text.toList := by
  simp [text]

/-- The first character of a node's text is that of its kind. -/
theorem text_ne {other : String} (p : Node)
    (h : other.toList.head? ∉ [some 'T', some 'A', some 'O']) : p.text ≠ other := by
  rintro rfl
  rw [toList_text] at h
  cases p with
  | terminal | and | or => simp [kind, Kind.label] at h

theorem toList_text_inj (h : p.text.toList = q.text.toList) :
    p.kind = q.kind ∧ p.span = q.span := by
  rw [toList_text, toList_text] at h
  have hkind : p.kind = q.kind := by
    cases hp : p.kind <;> cases hq : q.kind <;>
      simp_all [Kind.label, Span.toList_text]
  rw [hkind] at h
  exact ⟨hkind, Span.toList_text_inj (List.append_cancel_left h)⟩

theorem newline_not_mem_text (p : Node) : '\n' ∉ p.text.toList := by
  rw [toList_text, List.mem_append, not_or]
  exact ⟨p.kind.newline_not_mem_label, p.span.newline_not_mem_text⟩

end Node

namespace Occurrence

def nodeId : Occurrence → NodeId
  | first id _ | again id | missing id => id

/-- What a line says of its node after the number. -/
def remark : Occurrence → String
  | first _ node => node.text
  | again _ => "→ (see above)"
  | missing _ => "<missing>"

/-- What is the same in two occurrences of the same text: all but the sources of a node. -/
inductive Like : Occurrence → Occurrence → Prop
  | first (id : NodeId) {p q : Node} (kind_eq : p.kind = q.kind) (span_eq : p.span = q.span) :
    Like (.first id p) (.first id q)
  | again (id : NodeId) : Like (.again id) (.again id)
  | missing (id : NodeId) : Like (.missing id) (.missing id)

theorem text_eq (o : Occurrence) : o.text = o.nodeId.text ++ " " ++ o.remark := by
  cases o with
  | first id p => rfl
  | again id =>
    have hremark : " → (see above)" = " " ++ "→ (see above)" := by decide
    rw [String.append_assoc]
    exact congrArg (id.text ++ ·) hremark
  | missing id =>
    have hremark : " <missing>" = " " ++ "<missing>" := by decide
    rw [String.append_assoc]
    exact congrArg (id.text ++ ·) hremark

theorem toList_text (o : Occurrence) :
    o.text.toList = '#' :: ((Nat.repr o.nodeId).toList ++ ' ' :: o.remark.toList) := by
  rw [text_eq]
  simp [NodeId.text, toString]

/-- The first character after the number tells what kind of occurrence it is. -/
theorem like_of_remark {a b : Occurrence} (hid : a.nodeId = b.nodeId)
    (h : a.remark = b.remark) : Like a b := by
  cases a with
  | first i p =>
    cases b with
    | first j q =>
      obtain ⟨hkind, hspan⟩ := Node.toList_text_inj (congrArg String.toList h)
      obtain rfl : i = j := hid
      exact .first i hkind hspan
    | again j | missing j => exact absurd h (p.text_ne (by rw [remark]; decide))
  | again i =>
    cases b with
    | first j q => exact absurd h.symm (q.text_ne (by rw [remark]; decide))
    | again j =>
      obtain rfl : i = j := hid
      exact .again i
    | missing j => exact absurd h (by rw [remark, remark]; decide)
  | missing i =>
    cases b with
    | first j q => exact absurd h.symm (q.text_ne (by rw [remark]; decide))
    | again j => exact absurd h (by rw [remark, remark]; decide)
    | missing j =>
      obtain rfl : i = j := hid
      exact .missing i

theorem newline_not_mem_text (o : Occurrence) : '\n' ∉ o.text.toList := by
  have hnumber := not_mem_repr o.nodeId (c := '\n') (by decide)
  have hremark : '\n' ∉ o.remark.toList := by
    cases o with
    | first id p => exact p.newline_not_mem_text
    | again id => exact (by decide : '\n' ∉ "→ (see above)".toList)
    | missing id => exact (by decide : '\n' ∉ "<missing>".toList)
  rw [toList_text]
  simp only [List.mem_cons, List.mem_append, not_or]
  exact ⟨by decide, hnumber, by decide, hremark⟩

end Occurrence

/-- What is drawn for one level of a line: for the deepest, or for one that it passes by. -/
def stem (deepest last : Bool) : String :=
  if deepest then (if last then "└─ " else "├─ ") else (if last then "   " else "│  ")

theorem length_stem : ∀ deepest last, (stem deepest last).toList.length = 3 := by decide

theorem stem_inj : ∀ deepest last last',
    (stem deepest last).toList = (stem deepest last').toList → last = last' := by decide

theorem newline_not_mem_stem : ∀ deepest last, '\n' ∉ (stem deepest last).toList := by decide

theorem hash_not_mem_stem : ∀ deepest last, '#' ∉ (stem deepest last).toList := by decide

theorem toList_branches_cons (last : Bool) (deeper : List Bool) :
    (branches (last :: deeper)).toList =
      (stem deeper.isEmpty last).toList ++ (branches deeper).toList := by
  cases deeper with
  | nil => simp [branches, stem]
  | cons next deeper =>
    rw [branches, String.toList_append]
    · rfl
    · intro h
      cases h

theorem not_mem_branches (trail : List Bool)
    (hc : ∀ deepest last, c ∉ (stem deepest last).toList) : c ∉ (branches trail).toList := by
  induction trail with
  | nil => simp [branches]
  | cons last deeper ih =>
    rw [toList_branches_cons, List.mem_append, not_or]
    exact ⟨hc _ last, ih⟩

theorem length_branches (trail : List Bool) :
    (branches trail).toList.length = 3 * trail.length := by
  induction trail with
  | nil => simp [branches]
  | cons last deeper ih =>
    rw [toList_branches_cons, List.length_append, length_stem, ih, List.length_cons]
    omega

theorem branches_inj (h : (branches trail).toList = (branches other).toList) : trail = other := by
  have hlength := congrArg List.length h
  rw [length_branches, length_branches] at hlength
  induction trail generalizing other with
  | nil =>
    cases other with
    | nil => rfl
    | cons last deeper => simp at hlength
  | cons last deeper ih =>
    cases other with
    | nil => simp at hlength
    | cons last' deeper' =>
      have hdepth : deeper.length = deeper'.length := by
        simp only [List.length_cons] at hlength
        omega
      have hempty : deeper.isEmpty = deeper'.isEmpty := by
        rw [Bool.eq_iff_iff, List.isEmpty_iff_length_eq_zero, List.isEmpty_iff_length_eq_zero,
          hdepth]
      rw [toList_branches_cons, toList_branches_cons, hempty] at h
      obtain ⟨hstem, hrest⟩ := List.append_inj h (by rw [length_stem, length_stem])
      rw [stem_inj _ last last' hstem, ih hrest (by rw [hdepth])]

namespace OutlineLine

theorem toList_text (l : OutlineLine) :
    l.text.toList = (branches l.trail).toList ++ l.occurrence.text.toList :=
  String.toList_append

/-- What is the same in two lines of the same text. -/
structure Like (l l' : OutlineLine) : Prop where
  trail_eq : l.trail = l'.trail
  occurrence : l.occurrence.Like l'.occurrence

theorem like_of_text {l l' : OutlineLine} (h : l.text = l'.text) : l.Like l' := by
  have hchars := congrArg String.toList h
  rw [toList_text, toList_text, Occurrence.toList_text, Occurrence.toList_text] at hchars
  obtain ⟨htrail, hrest⟩ := split_at_first (not_mem_branches l.trail hash_not_mem_stem)
    (not_mem_branches l'.trail hash_not_mem_stem) hchars
  obtain ⟨hid, hremark⟩ := split_after_number (by decide) hrest
  exact ⟨branches_inj htrail, Occurrence.like_of_remark hid (String.toList_inj.mp hremark)⟩

theorem newline_not_mem_text (l : OutlineLine) : '\n' ∉ l.text.toList := by
  rw [toList_text, List.mem_append, not_or]
  exact ⟨not_mem_branches l.trail newline_not_mem_stem, l.occurrence.newline_not_mem_text⟩

end OutlineLine

theorem splitOn_lines {lines : List (List Char)} (h : ∀ line ∈ lines, '\n' ∉ line) :
    (lines.flatMap (· ++ ['\n'])).splitOn '\n' = lines ++ [[]] := by
  induction lines with
  | nil => rfl
  | cons line lines ih =>
    rw [List.flatMap_cons, List.append_assoc, List.singleton_append,
      List.splitOn_append_cons_self_of_not_mem (h line (by simp)),
      ih fun other hother => h other (by simp [hother]), List.cons_append]

namespace Graph

theorem toList_tree (g : Graph) :
    g.tree.toList = (g.outline.map fun l => l.text.toList).flatMap (· ++ ['\n']) := by
  simp [tree, String.toList_join, List.flatMap_map]

/-- The text of a graph, split at its line breaks, is its outline, line by line. -/
theorem split_tree (g : Graph) : (g.tree.split '\n').toList.map (·.copy) =
    g.outline.map OutlineLine.text ++ [""] := by
  have hlines : ∀ line ∈ g.outline.map fun l => l.text.toList, '\n' ∉ line := by
    intro line hline
    obtain ⟨l, -, rfl⟩ := List.mem_map.mp hline
    exact l.newline_not_mem_text
  rw [String.toList_split_char, toList_tree, splitOn_lines hlines]
  simp

theorem like_of_tree {g h : Graph} (heq : g.tree = h.tree) :
    List.Forall₂ OutlineLine.Like g.outline h.outline := by
  have hlines := g.split_tree
  rw [heq, h.split_tree] at hlines
  have htext : g.outline.map OutlineLine.text = h.outline.map OutlineLine.text :=
    List.append_cancel_right hlines.symm
  rw [← List.forall₂_eq_eq_eq, List.forall₂_map_left_iff, List.forall₂_map_right_iff] at htext
  exact htext.imp fun l l' => OutlineLine.like_of_text

end Graph
end AndOrFlow
