import Std.Data.ExtTreeMap

/-!
# Rosters

A roster lists distinct items in the order in which they were added, and knows the place of each
without a search through the list. Two rosters that list the same are equal.
-/
namespace AndOrFlow

structure Roster (α : Type) [Ord α] [Std.TransOrd α] where
  items : Array α
  places : Std.ExtTreeMap α Nat
  /-- The place of an item is where it is listed, so no item is listed twice. -/
  places_iff : ∀ (a : α) (i : Nat), places[a]? = some i ↔ items[i]? = some a

namespace Roster

variable {α : Type} [Ord α] [Std.TransOrd α]

def empty : Roster α := ⟨#[], ∅, by simp⟩

def size (r : Roster α) : Nat := r.items.size

/-- The items in the order in which they were added. -/
def toList (r : Roster α) : List α := r.items.toList

def place? (r : Roster α) (a : α) : Option Nat := r.places[a]?

instance : Membership α (Roster α) := ⟨fun r a => (r.place? a).isSome⟩

instance (a : α) (r : Roster α) : Decidable (a ∈ r) :=
  inferInstanceAs (Decidable ((r.place? a).isSome = true))

theorem mem_iff_isSome {r : Roster α} {a : α} : a ∈ r ↔ (r.place? a).isSome = true := Iff.rfl

theorem place?_eq_some_iff {r : Roster α} {a : α} {i : Nat} :
    r.place? a = some i ↔ r.toList[i]? = some a := by
  simp [place?, toList, r.places_iff]

theorem lt_of_place? {r : Roster α} {a : α} {i : Nat} (h : r.place? a = some i) : i < r.size := by
  simpa [toList, size] using (List.getElem?_eq_some_iff.mp (place?_eq_some_iff.mp h)).1

@[simp] theorem mem_toList {r : Roster α} {a : α} : a ∈ r.toList ↔ a ∈ r := by
  rw [mem_iff_isSome, Option.isSome_iff_exists, List.mem_iff_getElem?]
  exact exists_congr fun _ => place?_eq_some_iff.symm

theorem nodup_toList (r : Roster α) : r.toList.Nodup := by
  rw [List.nodup_iff_pairwise_ne, List.pairwise_iff_getElem]
  intro i j hi hj hij heq
  have first := place?_eq_some_iff.mpr (List.getElem?_eq_getElem hi)
  have second := place?_eq_some_iff.mpr (List.getElem?_eq_getElem hj)
  rw [heq, second] at first
  simp at first
  omega

@[simp] theorem toList_empty : (empty : Roster α).toList = [] := rfl

variable [Std.LawfulEqOrd α]

@[ext] theorem ext {r s : Roster α} (h : r.toList = s.toList) : r = s := by
  obtain ⟨items, places, hr⟩ := r
  obtain ⟨others, table, hs⟩ := s
  obtain rfl : items = others := Array.toList_inj.mp h
  have : places = table := Std.ExtTreeMap.ext_getElem? fun a => by
    ext i; rw [hr, hs]
  subst this
  rfl

instance [DecidableEq α] : DecidableEq (Roster α) := fun r s =>
  decidable_of_iff (r.items = s.items) ⟨fun h => ext (congrArg Array.toList h), fun h => h ▸ rfl⟩

/-- Lists an item last, unless it is listed already. -/
def add (r : Roster α) (a : α) : Roster α :=
  match h : r.places[a]? with
  | some _ => r
  | none =>
    let place := r.items.size
    { items := r.items.push a
      places := r.places.insert a place
      places_iff := fun b i => by
        have fresh : r.items[i]? ≠ some a := fun hi => by simp [(r.places_iff a i).mpr hi] at h
        have bound : r.places[b]? ≠ some r.items.size := fun hb => by
          simpa using (r.places_iff b r.items.size).mp hb
        simp only [Std.ExtTreeMap.getElem?_insert, Std.compare_eq_iff_eq, Array.getElem?_push]
        grind [r.places_iff b i] }

@[simp] theorem toList_add (r : Roster α) (a : α) :
    (r.add a).toList = if a ∈ r then r.toList else r.toList ++ [a] := by
  unfold add
  split <;> rename_i h <;> simp [mem_iff_isSome, place?, h, toList]

theorem items_add_of_not_mem {r : Roster α} {a : α} (h : a ∉ r) :
    (r.add a).items = r.items.push a := by
  have := r.toList_add a
  rw [if_neg h] at this
  simpa [toList, ← Array.toList_inj] using this

@[simp] theorem mem_add {r : Roster α} {a b : α} : b ∈ r.add a ↔ b ∈ r ∨ b = a := by
  rw [← mem_toList, toList_add]
  split
  · rename_i h; simp only [mem_toList]; grind
  · simp

end Roster
end AndOrFlow
