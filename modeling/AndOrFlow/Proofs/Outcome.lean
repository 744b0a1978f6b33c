import AndOrFlow.Failure
import Mathlib.Data.List.Forall2

/-!
# Outcomes

What is known of a computation that may end early: one property of its value and one of the error
that stands in for it. Two computations compare in the same way, by a relation between their values
and one between their errors; or one of them has a value where the other has.
-/
namespace AndOrFlow
variable {ε α β : Type} {post : α → Prop} {next : β → Prop} {fail : ε → Prop} {x : Except ε α}

def Outcome (post : α → Prop) (fail : ε → Prop) : Except ε α → Prop
  | .ok a => post a
  | .error e => fail e

namespace Outcome

theorem bind {f : α → Except ε β} (hx : Outcome post fail x)
    (hf : ∀ a, post a → Outcome next fail (f a)) : Outcome next fail (x >>= f) := by
  cases x with
  | ok a => exact hf a hx
  | error e => exact hx

theorem imp {after : α → Prop} (hx : Outcome post fail x) (h : ∀ a, post a → after a) :
    Outcome after fail x := by
  cases x with
  | ok a => exact h a hx
  | error e => exact hx

theorem imp_error {other : ε → Prop} (hx : Outcome post fail x) (h : ∀ e, fail e → other e) :
    Outcome post other x := by
  cases x with
  | ok a => exact hx
  | error e => exact h e hx

theorem exists_ok (hx : Outcome post (fun _ => False) x) : ∃ a, x = .ok a ∧ post a := by
  cases x with
  | ok a => exact ⟨a, rfl, hx⟩
  | error e => exact hx.elim

theorem ok_or_error (hx : Outcome post fail x) :
    (∃ a, x = .ok a ∧ post a) ∨ ∃ e, x = .error e ∧ fail e := by
  cases x with
  | ok a => exact Or.inl ⟨a, rfl, hx⟩
  | error e => exact Or.inr ⟨e, rfl, hx⟩

/-- What every step of a fold keeps, the fold keeps. -/
theorem foldlM {f : α → β → Except ε α} {xs : List β} {a : α} (ha : post a)
    (hf : ∀ a, post a → ∀ b ∈ xs, Outcome post fail (f a b)) :
    Outcome post fail (xs.foldlM f a) := by
  induction xs generalizing a with
  | nil => exact ha
  | cons b xs ih =>
    rw [List.foldlM_cons]
    refine (hf a ha b (List.mem_cons_self ..)).bind fun c hc => ih hc ?_
    exact fun d hd y hy => hf d hd y (List.mem_cons_of_mem _ hy)

end Outcome

theorem mapM_eq_ok {f : α → Except ε β} {v : α → β} {xs : List α}
    (h : ∀ x ∈ xs, f x = .ok (v x)) : xs.mapM f = .ok (xs.map v) := by
  induction xs with
  | nil => rfl
  | cons x xs ih =>
    have hrest := ih fun y hy => h y (List.mem_cons_of_mem _ hy)
    rw [List.mapM_cons, h x (List.mem_cons_self ..), hrest]
    rfl

theorem forall₂_of_mapM_eq_ok {f : α → Except ε β} {xs : List α} {ys : List β}
    (h : xs.mapM f = .ok ys) : List.Forall₂ (fun x y => f x = .ok y) xs ys := by
  induction xs generalizing ys with
  | nil =>
    obtain rfl : [] = ys := Except.ok.inj h
    exact .nil
  | cons x xs ih =>
    rw [List.mapM_cons] at h
    obtain ⟨y, hy, h⟩ := bind_eq_ok_iff.mp h
    obtain ⟨rest, hrest, h⟩ := bind_eq_ok_iff.mp h
    obtain rfl := Except.ok.inj h
    exact .cons hy (ih hrest)

theorem exists_of_mapM_eq_ok {f : α → Except ε β} {xs : List α} {ys : List β}
    (h : xs.mapM f = .ok ys) : ∀ x ∈ xs, ∃ y, f x = .ok y := by
  have hpairs := forall₂_of_mapM_eq_ok h
  clear h
  induction hpairs with
  | nil => simp
  | cons hxy _ ih => exact List.forall_mem_cons.mpr ⟨⟨_, hxy⟩, ih⟩

theorem mem_iff_of_mapM_eq_ok {f : α → Except ε β} {xs : List α} {ys : List β} {y : β}
    (h : xs.mapM f = .ok ys) : y ∈ ys ↔ ∃ x ∈ xs, f x = .ok y := by
  have hpairs := forall₂_of_mapM_eq_ok h
  clear h
  induction hpairs with
  | nil => simp
  | cons hxz _ ih =>
    rw [List.mem_cons, List.exists_mem_cons_iff, hxz, Except.ok.injEq, eq_comm]
    exact or_congr_right ih

theorem forM_eq_ok_iff {f : α → Except ε Unit} {xs : List α} {u : Unit} :
    forM xs f = .ok u ↔ ∀ x ∈ xs, f x = .ok () := by
  induction xs with
  | nil => simp [pure, Except.pure]
  | cons x xs ih =>
    rw [List.forM_cons, bind_eq_ok_iff, List.forall_mem_cons, ih]
    exact ⟨fun ⟨_, hx, hxs⟩ => ⟨hx, hxs⟩, fun ⟨hx, hxs⟩ => ⟨(), hx, hxs⟩⟩

/-- A sequence fails as one of its parts does. -/
theorem bind_eq_error_iff {x : Except ε α} {f : α → Except ε β} {e : ε} :
    (x >>= f) = .error e ↔ x = .error e ∨ ∃ a, x = .ok a ∧ f a = .error e := by
  cases x <;> simp [bind, Except.bind]

/-- A fold fails at the first entry that its step fails on. -/
theorem foldlM_eq_error_iff {f : α → β → Except ε α} {xs : List β} {a : α} {e : ε} :
    xs.foldlM f a = .error e ↔ ∃ before x after b, xs = before ++ x :: after ∧
      before.foldlM f a = .ok b ∧ f b x = .error e := by
  constructor
  · intro h
    induction xs generalizing a with
    | nil => cases h
    | cons x xs ih =>
      rw [List.foldlM_cons, bind_eq_error_iff] at h
      rcases h with hx | ⟨next, hx, hrest⟩
      · exact ⟨[], x, xs, a, rfl, rfl, hx⟩
      · obtain ⟨before, y, after, b, rfl, hbefore, hy⟩ := ih hrest
        refine ⟨x :: before, y, after, b, rfl, ?_, hy⟩
        rw [List.foldlM_cons, hx]
        exact hbefore
  · rintro ⟨before, x, after, b, rfl, hbefore, hx⟩
    rw [List.foldlM_append, bind_eq_error_iff]
    refine Or.inr ⟨b, hbefore, ?_⟩
    rw [List.foldlM_cons, bind_eq_error_iff]
    exact Or.inl hx

/-- A traversal fails at the first entry that the check fails on. -/
theorem forM_eq_error_iff {f : α → Except ε Unit} {xs : List α} {e : ε} :
    forM xs f = .error e ↔ ∃ (i : Nat) (x : α), xs[i]? = some x ∧ f x = .error e ∧
      ∀ j < i, ∀ y, xs[j]? = some y → f y = .ok () := by
  induction xs with
  | nil => simp [pure, Except.pure]
  | cons x xs ih =>
    rw [List.forM_cons, bind_eq_error_iff]
    constructor
    · rintro (hx | ⟨_, hx, hrest⟩)
      · exact ⟨0, x, rfl, hx, by simp⟩
      · obtain ⟨i, y, hy, herror, hbefore⟩ := ih.mp hrest
        refine ⟨i + 1, y, hy, herror, fun j hj z hz => ?_⟩
        cases j with
        | zero => exact Option.some.inj hz ▸ hx
        | succ j => exact hbefore j (Nat.lt_of_succ_lt_succ hj) z hz
    · rintro ⟨i, y, hy, herror, hbefore⟩
      cases i with
      | zero => exact Or.inl (Option.some.inj hy ▸ herror)
      | succ i =>
        refine Or.inr ⟨(), hbefore 0 i.succ_pos x rfl, ih.mpr ⟨i, y, hy, herror, ?_⟩⟩
        exact fun j hj z hz => hbefore (j + 1) (Nat.succ_lt_succ hj) z hz

/-- Two computations both have values, which are related, or both fail, with related errors. -/
inductive Alike {ε δ α β : Type} (S : α → β → Prop) (E : ε → δ → Prop) :
    Except ε α → Except δ β → Prop
  | ok {a : α} {b : β} (h : S a b) : Alike S E (.ok a) (.ok b)
  | error {e : ε} {d : δ} (h : E e d) : Alike S E (.error e) (.error d)

namespace Alike

variable {ε δ α β α' β' : Type} {S : α → β → Prop} {T : α' → β' → Prop} {E : ε → δ → Prop}
  {x : Except ε α} {y : Except δ β}

theorem bind {f : α → Except ε α'} {f' : β → Except δ β'} (hxy : Alike S E x y)
    (hf : ∀ a b, S a b → Alike T E (f a) (f' b)) : Alike T E (x >>= f) (y >>= f') := by
  cases hxy with
  | ok h => exact hf _ _ h
  | error h => exact .error h

theorem imp {S' : α → β → Prop} (hxy : Alike S E x y) (hS : ∀ a b, S a b → S' a b) :
    Alike S' E x y := by
  cases hxy with
  | ok h => exact .ok (hS _ _ h)
  | error h => exact .error h

theorem ok_or_error (hxy : Alike S E x y) : (∃ a b, x = .ok a ∧ y = .ok b ∧ S a b) ∨
    ∃ e d, x = .error e ∧ y = .error d ∧ E e d := by
  cases hxy with
  | ok h => exact Or.inl ⟨_, _, rfl, rfl, h⟩
  | error h => exact Or.inr ⟨_, _, rfl, rfl, h⟩

/-- Folds that take related steps over related entries end alike. -/
theorem foldlM {f : α → α' → Except ε α} {f' : β → β' → Except δ β} {xs : List α'} {ys : List β'}
    {a : α} {b : β} (hab : S a b) (hxs : List.Forall₂ T xs ys)
    (hf : ∀ a b x y, S a b → T x y → Alike S E (f a x) (f' b y)) :
    Alike S E (xs.foldlM f a) (ys.foldlM f' b) := by
  induction hxs generalizing a b with
  | nil => exact .ok hab
  | cons hxy _ ih =>
    rw [List.foldlM_cons, List.foldlM_cons]
    exact (hf _ _ _ _ hab hxy).bind fun _ _ hnext => ih hnext

theorem mapM {f : α' → Except ε α} {f' : β' → Except δ β} {xs : List α'} {ys : List β'}
    (hxs : List.Forall₂ T xs ys) (hf : ∀ x y, T x y → Alike S E (f x) (f' y)) :
    Alike (List.Forall₂ S) E (xs.mapM f) (ys.mapM f') := by
  induction hxs with
  | nil => exact .ok .nil
  | cons hxy _ ih =>
    rw [List.mapM_cons, List.mapM_cons]
    exact (hf _ _ hxy).bind fun _ _ hfirst => ih.bind fun _ _ hrest => .ok (.cons hfirst hrest)

theorem of_not_ok (hx : ∀ a, x ≠ .ok a) (hy : ∀ b, y ≠ .ok b) :
    Alike S (fun _ _ => True) x y := by
  cases x with
  | ok a => exact absurd rfl (hx a)
  | error e =>
    cases y with
    | ok b => exact absurd rfl (hy b)
    | error d => exact .error trivial

theorem of_toOption_eq {x : Except ε α} {y : Except δ α} (hxy : y.toOption = x.toOption) :
    Alike (· = ·) (fun _ _ => True) x y := by
  cases x with
  | ok a =>
    cases y with
    | ok b => exact .ok (Option.some.inj hxy).symm
    | error d => cases hxy
  | error e =>
    cases y with
    | ok b => cases hxy
    | error d => exact .error trivial

end Alike

/-- Wherever the second computation has a value, the first has one too, and the one is what `f`
makes of the other. -/
def Covers (f : α → β) (x : Except ε α) (y : Except ε β) : Prop :=
  ∀ b, y = .ok b → ∃ a, x = .ok a ∧ f a = b

namespace Covers

variable {α' β' : Type} {f : α → β} {f' : α' → β'} {y : Except ε β}

theorem ok (a : α) : Covers f (.ok a : Except ε α) (.ok (f a)) :=
  fun _ hb => ⟨a, rfl, Except.ok.inj hb⟩

theorem bind {u : α → Except ε α'} {v : β → Except ε β'} (hxy : Covers f x y)
    (h : ∀ a, Covers f' (u a) (v (f a))) : Covers f' (x >>= u) (y >>= v) := by
  intro b hb
  obtain ⟨c, hc, hb⟩ := bind_eq_ok_iff.mp hb
  obtain ⟨a, ha, rfl⟩ := hxy c hc
  obtain ⟨a', ha', hab⟩ := h a b hb
  exact ⟨a', bind_eq_ok_iff.mpr ⟨a, ha, ha'⟩, hab⟩

theorem ite {p q : Prop} [Decidable p] [Decidable q] {x' : Except ε α} {y' : Except ε β}
    (hpq : p ↔ q) (hthen : Covers f x y) (helse : Covers f x' y') :
    Covers f (if p then x else x') (if q then y else y') := by
  by_cases hp : p
  · rw [if_pos hp, if_pos (hpq.mp hp)]
    exact hthen
  · rw [if_neg hp, if_neg fun hq => hp (hpq.mpr hq)]
    exact helse

theorem foldlM {u : α → α' → Except ε α} {v : β → α' → Except ε β}
    (h : ∀ a e, Covers f (u a e) (v (f a) e)) (es : List α') (a : α) :
    Covers f (es.foldlM u a) (es.foldlM v (f a)) := by
  induction es generalizing a with
  | nil => exact ok a
  | cons e es ih =>
    rw [List.foldlM_cons, List.foldlM_cons]
    exact (h a e).bind ih

theorem mapM {u : α' → Except ε α} {v : α' → Except ε β} {es : List α'}
    (h : ∀ e ∈ es, Covers f (u e) (v e)) : Covers (List.map f) (es.mapM u) (es.mapM v) := by
  induction es with
  | nil => exact ok []
  | cons e es ih =>
    have hes := ih fun e' he' => h e' (List.mem_cons_of_mem _ he')
    rw [List.mapM_cons, List.mapM_cons]
    exact (h e (List.mem_cons_self ..)).bind fun a => hes.bind fun as => ok (a :: as)

end Covers

end AndOrFlow
