/-!
# Ordered lists

A stable insertion sort, and the union of two ascending lists of positions. Both are structural
recursions, so they can be run inside a proof.
-/
namespace AndOrFlow.Sorting

variable {α : Type}

/-- Puts `x` before the first element that it does not come after. -/
def insert (le : α → α → Bool) (x : α) : List α → List α
  | [] => [x]
  | y :: ys => if le x y then x :: y :: ys else y :: insert le x ys

/-- Elements that are equal for `le` keep their order. -/
def sort (le : α → α → Bool) (xs : List α) : List α := xs.foldr (insert le) []

/-- One row of `union`: `x` heads the first list, `rest` merges what comes after `x`. -/
def interleave (x : Nat) (xs : List Nat) (rest : List Nat → List Nat) : List Nat → List Nat
  | [] => x :: xs
  | y :: ys =>
    if x < y then x :: rest (y :: ys)
    else if y < x then y :: interleave x xs rest ys
    else x :: rest ys

/-- The union of two strictly ascending lists, strictly ascending. -/
def union : List Nat → List Nat → List Nat
  | [] => fun ys => ys
  | x :: xs => interleave x xs (union xs)

theorem insert_perm (le : α → α → Bool) (x : α) (ys : List α) :
    (insert le x ys).Perm (x :: ys) := by
  induction ys with
  | nil => exact .refl _
  | cons y ys ih =>
    unfold insert
    split
    · exact .refl _
    · exact (ih.cons y).trans (.swap x y ys)

theorem sort_perm (le : α → α → Bool) (xs : List α) : (sort le xs).Perm xs := by
  induction xs with
  | nil => exact .refl _
  | cons x xs ih => exact (insert_perm le x (sort le xs)).trans (ih.cons x)

@[simp] theorem mem_sort {le : α → α → Bool} {z : α} {xs : List α} :
    z ∈ sort le xs ↔ z ∈ xs :=
  (sort_perm le xs).mem_iff

/-- Sorting goes by the order alone. -/
theorem sort_map {β : Type} {le : α → α → Bool} {le' : β → β → Bool} {f : α → β}
    (h : ∀ a b, le' (f a) (f b) = le a b) (xs : List α) :
    sort le' (xs.map f) = (sort le xs).map f := by
  have hinsert : ∀ x ys, insert le' (f x) (ys.map f) = (insert le x ys).map f := by
    intro x ys
    induction ys with
    | nil => rfl
    | cons y ys ih =>
      simp only [List.map_cons, insert, h, ih]
      split <;> rfl
  induction xs with
  | nil => rfl
  | cons x xs ih =>
    change insert le' (f x) (sort le' (xs.map f)) = (insert le x (sort le xs)).map f
    rw [ih, hinsert]

section

variable {le : α → α → Bool} {x : α} {xs ys : List α}
  (htotal : ∀ a b, le a b = true ∨ le b a = true)
  (htrans : ∀ a b c, le a b = true → le b c = true → le a c = true)
include htotal htrans

theorem pairwise_insert (h : ys.Pairwise fun a b => le a b = true) :
    (insert le x ys).Pairwise fun a b => le a b = true := by
  induction ys with
  | nil => exact List.pairwise_singleton _ x
  | cons y ys ih =>
    obtain ⟨hy, hys⟩ := List.pairwise_cons.mp h
    unfold insert
    split
    · rename_i hxy
      exact List.pairwise_cons.mpr ⟨fun z hz => (List.mem_cons.mp hz).elim (fun heq => heq ▸ hxy)
        fun hz => htrans x y z hxy (hy z hz), h⟩
    · rename_i hxy
      refine List.pairwise_cons.mpr ⟨fun z hz => ?_, ih hys⟩
      rcases List.mem_cons.mp ((insert_perm le x ys).mem_iff.mp hz) with rfl | hz
      · exact (htotal y z).resolve_right hxy
      · exact hy z hz

theorem pairwise_sort (xs : List α) : (sort le xs).Pairwise fun a b => le a b = true := by
  induction xs with
  | nil => exact .nil
  | cons x xs ih => exact pairwise_insert htotal htrans ih

/-- What the elements are decides on the sorted list, if no two are equal for `le`. -/
theorem sort_eq_of_perm (hanti : ∀ a b, le a b = true → le b a = true → a = b)
    (h : xs.Perm ys) : sort le xs = sort le ys := by
  have hperm := ((sort_perm le xs).trans h).trans (sort_perm le ys).symm
  exact hperm.eq_of_pairwise (fun a b _ _ => hanti a b) (pairwise_sort htotal htrans xs)
    (pairwise_sort htotal htrans ys)

end

@[simp] theorem mem_union {v : Nat} {xs ys : List Nat} :
    v ∈ union xs ys ↔ v ∈ xs ∨ v ∈ ys := by
  induction xs generalizing ys with
  | nil => simp [union]
  | cons x xs ih =>
    simp only [union]
    induction ys with
    | nil => simp [interleave]
    | cons y ys ihy =>
      unfold interleave
      split
      · simp [ih, or_assoc]
      · split
        · simp [ihy, or_assoc, or_left_comm]
        · have : x = y := by omega
          subst this
          simp [ih]; grind

end AndOrFlow.Sorting
