import Mathlib.Data.List.Forall2

/-!
# Steps that may fail, in sequence

How a sequence of steps comes to its end: every step does, and each hands its result on. It fails
with the first step that does.

* `bind_eq_ok_iff`, `bind_eq_error_iff` — a step followed by another; `check_bind_eq_ok_iff`
  and `check_bind_eq_error_iff`, a check before a step.
* `ite_eq_ok_iff`, `exists_ite_eq_ok_iff` — a step under a condition.
* `map_eq_ok_iff`, `map_eq_error_iff`, `mapError_eq_ok_iff` — a step whose result is changed, or its
  failure reworded.
* `mapM_some_eq_ok_iff` — a step for an element that is there.
* `mapM_eq_ok_iff`, `mapM_eq_error_iff`, `mapM_bind_eq_ok_iff`, `mapM_map_of_eq` — one step, or
  two, for each element of a list; `mapM_flatten`, piece by piece.
* `forM_eq_ok_iff` — one check for each element of a list.
-/

set_option autoImplicit false

namespace CardSort

variable {ε α β : Type}

theorem bind_eq_ok_iff {x : Except ε α} {f : α → Except ε β} {b : β} :
    x >>= f = .ok b ↔ ∃ a, x = .ok a ∧ f a = .ok b := by
  cases x with
  | error e =>
    refine ⟨fun h => ?_, fun ⟨a, h, _⟩ => ?_⟩
    · cases h
    · cases h
  | ok a =>
    refine ⟨fun h => ⟨a, rfl, h⟩, fun ⟨a', h, h'⟩ => ?_⟩
    cases h
    exact h'

theorem bind_eq_error_iff {x : Except ε α} {f : α → Except ε β} {e : ε} :
    x >>= f = .error e ↔ x = .error e ∨ ∃ a, x = .ok a ∧ f a = .error e := by
  cases x with
  | error e' =>
    constructor
    · intro h
      exact .inl (congrArg Except.error (Except.error.inj h))
    · rintro (⟨⟨⟩⟩ | ⟨_, ⟨⟩, _⟩)
      rfl
  | ok a =>
    constructor
    · exact fun h => .inr ⟨a, rfl, h⟩
    · rintro (h | ⟨_, ⟨⟩, h⟩)
      · cases h
      · exact h

theorem check_bind_eq_ok_iff {x : Except ε Unit} {f : Unit → Except ε β} {b : β} :
    x >>= f = .ok b ↔ x = .ok () ∧ f () = .ok b := by
  rw [bind_eq_ok_iff]
  exact ⟨fun ⟨_, h⟩ => h, fun h => ⟨(), h⟩⟩

theorem check_bind_eq_error_iff {x : Except ε Unit} {f : Unit → Except ε β} {e : ε} :
    x >>= f = .error e ↔ x = .error e ∨ x = .ok () ∧ f () = .error e := by
  rw [bind_eq_error_iff]
  exact or_congr_right ⟨fun ⟨_, h⟩ => h, fun h => ⟨(), h⟩⟩

theorem ok_bind (a : α) (f : α → Except ε β) : (Except.ok a >>= f) = f a := rfl

theorem ite_eq_ok_iff {p : Prop} [Decidable p] {e : ε} {a b : α} :
    (if p then Except.ok a else .error e) = .ok b ↔ p ∧ b = a := by
  split
  · rename_i hp
    rw [Except.ok.injEq]
    exact ⟨fun h => ⟨hp, h.symm⟩, fun h => h.2.symm⟩
  · rename_i hp
    refine ⟨fun h => ?_, fun h => absurd h.1 hp⟩
    cases h

theorem exists_ite_eq_ok_iff {p : Prop} [Decidable p] {e : ε} {a : α} :
    (∃ b, (if p then Except.ok a else .error e) = .ok b) ↔ p := by
  constructor
  · rintro ⟨b, h⟩
    exact (ite_eq_ok_iff.1 h).1
  · intro hp
    exact ⟨a, if_pos hp⟩

theorem eq_of_ite_eq_error {p : Prop} [Decidable p] {e e' : ε} {a : α}
    (h : (if p then Except.ok a else .error e) = .error e') : e' = e := by
  split at h
  · cases h
  · exact (Except.error.inj h).symm

theorem map_eq_ok_iff {f : α → β} {x : Except ε α} {b : β} :
    x.map f = .ok b ↔ ∃ a, x = .ok a ∧ f a = b := by
  cases x with
  | error e =>
    refine ⟨fun h => ?_, fun ⟨_, h, _⟩ => ?_⟩
    · cases h
    · cases h
  | ok a =>
    refine ⟨fun h => ⟨a, rfl, Except.ok.inj h⟩, fun ⟨a', h, h'⟩ => ?_⟩
    cases h
    exact congrArg Except.ok h'

theorem map_eq_error_iff {f : α → β} {x : Except ε α} {e : ε} :
    x.map f = .error e ↔ x = .error e := by
  cases x with
  | error e' =>
    exact ⟨fun h => congrArg _ (Except.error.inj h), fun h => congrArg _ (Except.error.inj h)⟩
  | ok a => exact iff_of_false (fun h => nomatch h) fun h => nomatch h

theorem mapError_eq_ok_iff {ε' : Type} {f : ε → ε'} {x : Except ε α} {a : α} :
    x.mapError f = .ok a ↔ x = .ok a := by
  cases x with
  | error e =>
    refine ⟨fun h => ?_, fun h => ?_⟩
    · cases h
    · cases h
  | ok b => exact ⟨fun h => congrArg _ (Except.ok.inj h), fun h => congrArg _ (Except.ok.inj h)⟩

theorem mapError_eq_error_iff {ε' : Type} {f : ε → ε'} {x : Except ε α} {e' : ε'} :
    x.mapError f = .error e' ↔ ∃ e, x = .error e ∧ f e = e' := by
  cases x with
  | error e =>
    refine ⟨fun h => ⟨e, rfl, Except.error.inj h⟩, fun ⟨e₁, h, h'⟩ => ?_⟩
    cases h
    exact congrArg Except.error h'
  | ok b =>
    refine ⟨fun h => ?_, fun ⟨_, h, _⟩ => ?_⟩
    · cases h
    · cases h

theorem mapM_some_eq_ok_iff {f : α → Except ε β} {a : α} {b : Option β} :
    (some a).mapM f = .ok b ↔ ∃ x, f a = .ok x ∧ b = some x := by
  refine bind_eq_ok_iff.trans (exists_congr fun x => and_congr_right fun _ => ?_)
  exact ⟨fun h => (Except.ok.inj h).symm, fun h => congrArg Except.ok h.symm⟩

/-- Steps over a list succeed one by one. -/
theorem mapM_eq_ok_iff {f : α → Except ε β} {xs : List α} {ys : List β} :
    xs.mapM f = .ok ys ↔ List.Forall₂ (fun x y => f x = .ok y) xs ys := by
  induction xs generalizing ys with
  | nil =>
    rw [List.mapM_nil, List.forall₂_nil_left_iff]
    exact ⟨fun h => by cases h; rfl, fun h => by rw [h]; rfl⟩
  | cons x xs ih =>
    rw [List.mapM_cons, bind_eq_ok_iff, List.forall₂_cons_left_iff]
    constructor
    · rintro ⟨y, hy, h⟩
      obtain ⟨zs, hzs, h⟩ := bind_eq_ok_iff.1 h
      cases h
      exact ⟨y, zs, hy, ih.1 hzs, rfl⟩
    · rintro ⟨y, zs, hy, hzs, rfl⟩
      exact ⟨y, hy, bind_eq_ok_iff.2 ⟨zs, ih.2 hzs, rfl⟩⟩

/-- Steps over a list fail at the first element at which one of them fails. -/
theorem mapM_eq_error_iff {f : α → Except ε β} {xs : List α} {e : ε} :
    xs.mapM f = .error e ↔
      ∃ front x back ys, xs = front ++ x :: back ∧ front.mapM f = .ok ys ∧ f x = .error e := by
  constructor
  · intro h
    induction xs with
    | nil => cases h
    | cons x xs ih =>
      rw [List.mapM_cons, bind_eq_error_iff] at h
      rcases h with h | ⟨y, hy, h⟩
      · exact ⟨[], x, xs, [], rfl, rfl, h⟩
      rcases bind_eq_error_iff.1 h with h | ⟨_, _, h⟩
      · obtain ⟨front, z, back, ys, rfl, hfront, hz⟩ := ih h
        refine ⟨x :: front, z, back, y :: ys, rfl, ?_, hz⟩
        exact mapM_eq_ok_iff.2 (.cons hy (mapM_eq_ok_iff.1 hfront))
      · cases h
  · rintro ⟨front, x, back, ys, rfl, hfront, hx⟩
    rw [List.mapM_append, hfront, ok_bind, List.mapM_cons, hx]
    rfl

/-- Two steps on each element of a list are the first on all elements, then the second. -/
theorem mapM_bind_eq_ok_iff {γ : Type} {f : α → Except ε β} {g : β → Except ε γ} {xs : List α}
    {zs : List γ} :
    xs.mapM (fun x => f x >>= g) = .ok zs ↔ ∃ ys, xs.mapM f = .ok ys ∧ ys.mapM g = .ok zs := by
  simp only [mapM_eq_ok_iff]
  constructor
  · intro h
    induction h with
    | nil => exact ⟨[], .nil, .nil⟩
    | cons hx _ ih =>
      obtain ⟨y, hy, hz⟩ := bind_eq_ok_iff.1 hx
      obtain ⟨ys, hys, hzs⟩ := ih
      exact ⟨y :: ys, .cons hy hys, .cons hz hzs⟩
  · rintro ⟨ys, hys, hzs⟩
    induction hys generalizing zs with
    | nil =>
      cases hzs
      exact .nil
    | cons hy _ ih =>
      cases hzs with
      | cons hz hzs => exact .cons (bind_eq_ok_iff.2 ⟨_, hy, hz⟩) (ih hzs)

/-- If each step over a list succeeds, all of them do. -/
theorem exists_mapM_eq_ok {f : α → Except ε β} {xs : List α} (h : ∀ x ∈ xs, ∃ y, f x = .ok y) :
    ∃ ys, xs.mapM f = .ok ys := by
  induction xs with
  | nil => exact ⟨[], rfl⟩
  | cons x xs ih =>
    obtain ⟨y, hy⟩ := h x List.mem_cons_self
    obtain ⟨ys, hys⟩ := ih fun z hz => h z (List.mem_cons_of_mem _ hz)
    exact ⟨y :: ys, mapM_eq_ok_iff.2 (.cons hy (mapM_eq_ok_iff.1 hys))⟩

/-- If all steps over a list succeed, each of them does. -/
theorem exists_eq_ok_of_mapM {f : α → Except ε β} {xs : List α} {ys : List β}
    (h : xs.mapM f = .ok ys) {x : α} (hx : x ∈ xs) : ∃ y, f x = .ok y := by
  replace h := mapM_eq_ok_iff.1 h
  induction h with
  | nil => cases hx
  | cons hfirst _ ih =>
    rcases List.mem_cons.1 hx with rfl | hx
    · exact ⟨_, hfirst⟩
    · exact ih hx

theorem exists_getElem?_of_forall₂ {R : α → β → Prop} {xs : List α} {ys : List β}
    (h : List.Forall₂ R xs ys) {i : Nat} {x : α} (hx : xs[i]? = some x) :
    ∃ y, ys[i]? = some y ∧ R x y := by
  obtain ⟨hi, rfl⟩ := List.getElem?_eq_some_iff.1 hx
  have hi' : i < ys.length := h.length_eq ▸ hi
  exact ⟨ys[i], List.getElem?_eq_getElem hi', h.get hi hi'⟩

theorem exists_mem_of_forall₂ {R : α → β → Prop} {xs : List α} {ys : List β}
    (h : List.Forall₂ R xs ys) {y : β} (hy : y ∈ ys) : ∃ x ∈ xs, R x y := by
  obtain ⟨i, hi⟩ := List.mem_iff_getElem?.1 hy
  obtain ⟨x, hx, hR⟩ := exists_getElem?_of_forall₂ h.flip hi
  exact ⟨x, List.mem_of_getElem? hx, hR⟩

/-- A step over pieces, one by one, is the step over what they make up together. -/
theorem mapM_flatten (f : α → Except ε β) (pieces : List (List α)) :
    pieces.flatten.mapM f = (pieces.mapM fun piece : List α => piece.mapM f).map List.flatten := by
  induction pieces with
  | nil => rfl
  | cons piece pieces ih =>
    rw [List.flatten_cons, List.mapM_append, ih, List.mapM_cons]
    cases piece.mapM f with
    | error e => rfl
    | ok ys => cases pieces.mapM (fun piece : List α => piece.mapM f) <;> rfl

/-- A step over a list that does what another one does, and changes its result. -/
theorem mapM_map_of_eq {γ : Type} {f : α → Except ε γ} {g : α → Except ε β} {h : β → γ}
    {xs : List α} (hfg : ∀ x ∈ xs, f x = (g x).map h) :
    xs.mapM f = (xs.mapM g).map (List.map h) := by
  induction xs with
  | nil => rfl
  | cons x xs ih =>
    rw [List.forall_mem_cons] at hfg
    rw [List.mapM_cons, List.mapM_cons, hfg.1, ih hfg.2]
    cases g x with
    | error e => rfl
    | ok y => cases xs.mapM g <;> rfl

/-- Checks of a list pass one by one. -/
theorem forM_eq_ok_iff {f : α → Except ε Unit} {xs : List α} :
    xs.forM f = .ok () ↔ ∀ x ∈ xs, f x = .ok () := by
  induction xs with
  | nil => exact ⟨fun _ x hx => absurd hx List.not_mem_nil, fun _ => rfl⟩
  | cons x xs ih =>
    show (f x >>= fun _ => xs.forM f) = .ok () ↔ _
    rw [bind_eq_ok_iff, List.forall_mem_cons, ← ih]
    constructor
    · rintro ⟨u, hx, hxs⟩
      exact ⟨hx, hxs⟩
    · rintro ⟨hx, hxs⟩
      exact ⟨(), hx, hxs⟩

end CardSort
