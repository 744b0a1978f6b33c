/-!
# Turning references around

Rows say which positions each position refers to. Their transpose says for each position which ones
refer to it, in ascending order and as often as they do.
-/
namespace AndOrFlow

/-- Enters row `i` into the columns that it refers to. -/
def enterRow (row : List Nat) (i : Nat) (columns : Array (List Nat)) : Array (List Nat) :=
  row.foldr (fun j columns => columns.modify j (i :: ·)) columns

/-- For every position the positions that refer to it. A reference that leads to no position is left
out. -/
def transpose (rows : Array (List Nat)) : Array (List Nat) :=
  rows.toList.zipIdx.foldr (fun (row, i) => enterRow row i) (Array.replicate rows.size [])

theorem getElem?_enterRow (row : List Nat) (i : Nat) (columns : Array (List Nat)) (j : Nat) :
    (enterRow row i columns)[j]? = columns[j]?.map (List.replicate (row.count j) i ++ ·) := by
  induction row with
  | nil => simp [enterRow]
  | cons k rest ih =>
    simp only [enterRow, List.foldr_cons] at ih ⊢
    rw [Array.getElem?_modify, ih, List.count_cons]
    by_cases h : k = j
    · simp [h, List.replicate_succ, Function.comp_def]
    · simp [h]

theorem getElem?_transpose (rows : Array (List Nat)) (j : Nat) :
    (transpose rows)[j]? =
      if j < rows.size then
        some (rows.toList.zipIdx.flatMap fun (row, i) => List.replicate (row.count j) i)
      else none := by
  unfold transpose
  induction rows.toList.zipIdx with
  | nil => simp [Array.getElem?_replicate]
  | cons entry rest ih =>
    rw [List.foldr_cons, getElem?_enterRow, ih]
    split <;> simp

@[simp] theorem size_transpose (rows : Array (List Nat)) : (transpose rows).size = rows.size := by
  refine Nat.le_antisymm (Nat.le_of_not_lt fun h => ?_) (Nat.le_of_not_lt fun h => ?_)
  · simpa [h] using getElem?_transpose rows rows.size
  · simpa [h] using getElem?_transpose rows (transpose rows).size

/-- A position is in a column exactly if it refers to the column's position. -/
theorem mem_transpose {rows : Array (List Nat)} {i j : Nat} {column : List Nat}
    (h : (transpose rows)[j]? = some column) :
    i ∈ column ↔ ∃ row, rows[i]? = some row ∧ j ∈ row := by
  rw [getElem?_transpose] at h
  split at h <;> simp only [Option.some.injEq, reduceCtorEq] at h
  subst h
  simp only [List.mem_flatMap, List.mem_replicate, Prod.exists, List.mk_mem_zipIdx_iff_getElem?,
    Array.getElem?_toList, ← List.count_pos_iff (a := j)]
  grind

theorem pairwise_zipIdx (rows : List (List Nat)) :
    rows.zipIdx.Pairwise (fun a b => a.2 < b.2) := by
  apply List.pairwise_map.mp
  rw [List.zipIdx_map_snd]
  exact List.pairwise_lt_range'

/-- The rows enter a column one after the other, and a row does so more than once only if it repeats
a reference. -/
theorem pairwise_transpose {R : Nat → Nat → Prop} {rows : Array (List Nat)} {j : Nat}
    {column : List Nat} (hlt : ∀ i k, i < k → R i k)
    (hrow : ∀ row ∈ rows, ∀ i, row.count j ≤ 1 ∨ R i i)
    (h : (transpose rows)[j]? = some column) : column.Pairwise R := by
  rw [getElem?_transpose] at h
  split at h
  · obtain rfl := Option.some.inj h
    apply List.pairwise_flatMap.mpr
    constructor
    · intro entry hentry
      have hmem : entry.1 ∈ rows := Array.mem_toList_iff.mp (List.fst_mem_of_mem_zipIdx hentry)
      exact List.pairwise_replicate.mpr (hrow entry.1 hmem entry.2)
    · apply (pairwise_zipIdx rows.toList).imp
      intro entry later hless a ha b hb
      rw [List.eq_of_mem_replicate ha, List.eq_of_mem_replicate hb]
      exact hlt entry.2 later.2 hless
  · cases h

theorem count_entered {rows : List (List Nat)} {start i j : Nat} :
    ((rows.zipIdx start).flatMap fun (row, i) =>
      List.replicate (row.count j) i).count (start + i) = ((rows[i]?).getD []).count j := by
  -- The rows are numbered from a start that grows, and all that follow have greater numbers.
  induction rows generalizing start i with
  | nil => simp
  | cons row rest ih =>
    rw [List.zipIdx_cons, List.flatMap_cons, List.count_append, List.count_replicate]
    cases i with
    | zero =>
      have hnone : start ∉ (rest.zipIdx (start + 1)).flatMap fun (row, i) =>
          List.replicate (row.count j) i := by
        simp only [List.mem_flatMap, Prod.exists, List.mem_replicate, not_exists, not_and]
        rintro row k hentry - rfl
        have hle := List.le_snd_of_mem_zipIdx hentry
        omega
      simp [List.count_eq_zero_of_not_mem hnone]
    | succ i =>
      have hrest := @ih (start + 1) i
      rw [Nat.add_right_comm start 1 i, Nat.add_assoc] at hrest
      simp [hrest]

/-- A column of a transpose has each row as often as the row has the column. -/
theorem count_transpose {rows : Array (List Nat)} {i j : Nat} {column : List Nat}
    (h : (transpose rows)[j]? = some column) :
    column.count i = ((rows[i]?).getD []).count j := by
  rw [getElem?_transpose] at h
  split at h
  · obtain rfl := Option.some.inj h
    have hcount := @count_entered rows.toList 0 i j
    rwa [Nat.zero_add, Array.getElem?_toList] at hcount
  · cases h

end AndOrFlow
