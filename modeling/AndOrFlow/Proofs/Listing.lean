import Mathlib.Data.List.Forall2
import Mathlib.Data.List.Nodup

/-!
# Lists that number their entries

A position stands for the entry found there. It stands for the same entry when the list grows at
its end, and a list without repetitions gives every entry one position.
-/
namespace AndOrFlow.Listing
variable {α : Type*} {xs ys : List α} {x : α} {i j : Nat}

theorem getElem?_of_extends (h : xs <+: ys) (hx : xs[i]? = some x) : ys[i]? = some x := by
  obtain ⟨zs, rfl⟩ := h
  obtain ⟨hi, -⟩ := List.getElem?_eq_some_iff.mp hx
  rw [List.getElem?_append_left hi]
  exact hx

theorem position_inj (h : xs.Nodup) (hi : xs[i]? = some x) (hj : xs[j]? = some x) : i = j :=
  (List.getElem?_inj (List.getElem?_eq_some_iff.mp hi).1 h).mp (hi.trans hj.symm)

theorem exists_entry {β : Type*} {ys : Array β} {y : β} (h : xs.length = ys.size)
    (hy : ys[i]? = some y) : ∃ x, xs[i]? = some x := by
  have hi : i < xs.length := by
    rw [h]
    exact (Array.getElem?_eq_some_iff.mp hy).1
  exact ⟨xs[i], List.getElem?_eq_getElem hi⟩

theorem exists_element {β : Type*} {ys : Array β} (h : xs.length = ys.size)
    (hx : xs[i]? = some x) : ∃ y, ys[i]? = some y := by
  have hi : i < ys.size := by
    rw [← h]
    exact (List.getElem?_eq_some_iff.mp hx).1
  exact ⟨ys[i], Array.getElem?_eq_getElem hi⟩

/-- Entries keep their positions, so a list of positions keeps standing for the same entries. -/
theorem map_getElem?_of_extends {ids : List Nat} {entries : List α} (h : xs <+: ys)
    (hids : ids.map (fun id => xs[id]?) = entries.map some) :
    ids.map (fun id => ys[id]?) = entries.map some := by
  induction ids generalizing entries with
  | nil => simpa using hids
  | cons id ids ih =>
    cases entries with
    | nil => simp at hids
    | cons x entries =>
      simp only [List.map_cons, List.cons.injEq] at hids ⊢
      exact ⟨getElem?_of_extends h hids.1, ih hids.2⟩

theorem answer_of_extends {answer : Option Nat} {entry : Option α} (h : xs <+: ys)
    (ha : answer.map (fun id => xs[id]?) = entry.map some) :
    answer.map (fun id => ys[id]?) = entry.map some := by
  cases answer with
  | none => simpa using ha
  | some id =>
    cases entry with
    | none => simp at ha
    | some x =>
      simp only [Option.map_some, Option.some.injEq] at ha ⊢
      exact getElem?_of_extends h ha

/-- Without repetitions the entries determine the positions. -/
theorem positions_inj {ids others : List Nat} {entries : List α} (h : xs.Nodup)
    (hids : ids.map (fun id => xs[id]?) = entries.map some)
    (hothers : others.map (fun id => xs[id]?) = entries.map some) : ids = others := by
  induction ids generalizing others entries with
  | nil =>
    cases entries with
    | nil => simpa using hothers
    | cons x entries => simp at hids
  | cons id ids ih =>
    cases entries with
    | nil => simp at hids
    | cons x entries =>
      cases others with
      | nil => simp at hothers
      | cons other others =>
        simp only [List.map_cons, List.cons.injEq] at hids hothers
        rw [position_inj h hids.1 hothers.1, ih hids.2 hothers.2]

theorem answer_inj {answer reply : Option Nat} {entry : Option α} (h : xs.Nodup)
    (ha : answer.map (fun id => xs[id]?) = entry.map some)
    (hr : reply.map (fun id => xs[id]?) = entry.map some) : answer = reply := by
  cases entry with
  | none => rw [Option.map_eq_none_iff.mp ha, Option.map_eq_none_iff.mp hr]
  | some x =>
    obtain ⟨i, rfl, hi⟩ := Option.map_eq_some_iff.mp ha
    obtain ⟨j, rfl, hj⟩ := Option.map_eq_some_iff.mp hr
    rw [position_inj h hi hj]

theorem exists_of_mem_positions {ids : List Nat} {entries : List α} {id : Nat}
    (hids : ids.map (fun id => xs[id]?) = entries.map some) (hid : id ∈ ids) :
    ∃ x ∈ entries, xs[id]? = some x := by
  have h : xs[id]? ∈ entries.map some := hids ▸ List.mem_map_of_mem hid
  obtain ⟨x, hx, heq⟩ := List.mem_map.mp h
  exact ⟨x, hx, heq.symm⟩

theorem exists_of_mem_entries {ids : List Nat} {entries : List α}
    (hids : ids.map (fun id => xs[id]?) = entries.map some) (hx : x ∈ entries) :
    ∃ id ∈ ids, xs[id]? = some x := by
  have h : some x ∈ ids.map (fun id => xs[id]?) := hids ▸ List.mem_map_of_mem hx
  obtain ⟨id, hid, heq⟩ := List.mem_map.mp h
  exact ⟨id, hid, heq⟩

/-- A filter that keeps everything keeps every position. -/
theorem getElem?_filterMap {β : Type*} {f : α → Option β} (h : ∀ x ∈ xs, (f x).isSome) (i : Nat) :
    (xs.filterMap f)[i]? = xs[i]?.bind f := by
  induction xs generalizing i with
  | nil => rfl
  | cons x xs ih =>
    obtain ⟨y, hy⟩ := Option.isSome_iff_exists.mp (h x (by simp))
    rw [List.filterMap_cons_some hy]
    cases i with
    | zero => simp [hy]
    | succ i => simpa using ih (fun z hz => h z (by simp [hz])) i

theorem length_filterMap {β : Type*} {f : α → Option β} (h : ∀ x ∈ xs, (f x).isSome) :
    (xs.filterMap f).length = xs.length := by
  induction xs with
  | nil => rfl
  | cons x xs ih =>
    obtain ⟨y, hy⟩ := Option.isSome_iff_exists.mp (h x (by simp))
    rw [List.filterMap_cons_some hy, List.length_cons, List.length_cons,
      ih fun z hz => h z (by simp [hz])]

theorem exists_getElem?_of_forall₂ {β : Type*} {R : α → β → Prop} {zs : List β}
    (h : List.Forall₂ R xs zs) (hi : xs[i]? = some x) : ∃ z, zs[i]? = some z ∧ R x z := by
  induction h generalizing i with
  | nil => cases hi
  | @cons y z ys zs hr _ ih =>
    cases i with
    | zero =>
      obtain rfl := Option.some.inj hi
      exact ⟨z, rfl, hr⟩
    | succ i => exact ih hi

end AndOrFlow.Listing
