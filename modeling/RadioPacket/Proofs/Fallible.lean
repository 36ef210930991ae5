import Mathlib.Data.List.Forall2

/-!
# Computations that may fail

Success of a chain of steps, of a fold and of a traversal, each in terms of the success of its
parts.
-/

namespace RadioPacket.Fallible

variable {ε α β γ : Type}

theorem bind_eq_ok {x : Except ε α} {f : α → Except ε β} {b : β} :
    x >>= f = .ok b ↔ ∃ a, x = .ok a ∧ f a = .ok b := by
  cases x with
  | error e =>
      constructor
      · intro h
        cases h
      · rintro ⟨a, h, _⟩
        cases h
  | ok a =>
      constructor
      · intro h
        exact ⟨a, rfl, h⟩
      · rintro ⟨a', h, hf⟩
        cases h
        exact hf

theorem bind_eq_error {x : Except ε α} {f : α → Except ε β} {e : ε} :
    x >>= f = .error e ↔ x = .error e ∨ ∃ a, x = .ok a ∧ f a = .error e := by
  cases x with
  | error cause =>
      constructor
      · intro h
        cases h
        exact .inl rfl
      · rintro (h | ⟨_, h, _⟩)
        · cases h
          rfl
        · cases h
  | ok a =>
      constructor
      · intro h
        exact .inr ⟨a, rfl, h⟩
      · rintro (h | ⟨_, h, hf⟩)
        · cases h
        · cases h
          exact hf

theorem map_eq_error {x : Except ε α} {f : α → β} {e : ε} :
    x.map f = .error e ↔ x = .error e := by
  cases x with
  | error cause => simp [Except.map]
  | ok a => simp [Except.map]

theorem map_eq_ok {x : Except ε α} {f : α → β} {b : β} :
    x.map f = .ok b ↔ ∃ a, x = .ok a ∧ f a = b := by
  cases x with
  | error e => simp [Except.map]
  | ok a => simp [Except.map]

theorem eq_ok_of_mapError {δ : Type} {x : Except ε α} {f : ε → δ} {a : α}
    (h : x.mapError f = .ok a) : x = .ok a := by
  cases x with
  | error e => cases h
  | ok b =>
      cases h
      rfl

/-- What every step of a fold keeps, the whole fold keeps. -/
theorem foldlM_invariant {f : β → α → Except ε β} {P : β → Prop} {xs : List α} {b result : β}
    (h : xs.foldlM f b = .ok result) (hb : P b)
    (hstep : ∀ x ∈ xs, ∀ b next, P b → f b x = .ok next → P next) : P result := by
  induction xs generalizing b with
  | nil =>
      cases h
      exact hb
  | cons x xs ih =>
      rw [List.foldlM_cons, bind_eq_ok] at h
      obtain ⟨next, hnext, hrest⟩ := h
      have hx : P next := hstep x List.mem_cons_self b next hb hnext
      exact ih hrest hx fun y hy => hstep y (List.mem_cons_of_mem x hy)

/-- Folds whose steps correspond through a map give results that correspond through it. -/
theorem foldlM_map {f : β → α → Except ε β} {f' : γ → α → Except ε γ} {g : β → γ} {xs : List α}
    (hstep : ∀ x ∈ xs, ∀ b, f' (g b) x = (f b x).map g) (b : β) :
    xs.foldlM f' (g b) = (xs.foldlM f b).map g := by
  induction xs generalizing b with
  | nil => rfl
  | cons x xs ih =>
      rw [List.foldlM_cons, List.foldlM_cons, hstep x List.mem_cons_self]
      cases f b x with
      | error e => rfl
      | ok next => exact ih (fun y hy => hstep y (List.mem_cons_of_mem x hy)) next

theorem foldlM_eq_ok_congr {f f' : β → α → Except ε β}
    (hstep : ∀ b x next, f b x = .ok next ↔ f' b x = .ok next) {xs : List α} {b result : β} :
    xs.foldlM f b = .ok result ↔ xs.foldlM f' b = .ok result := by
  induction xs generalizing b with
  | nil => rfl
  | cons x xs ih =>
      rw [List.foldlM_cons, List.foldlM_cons, bind_eq_ok, bind_eq_ok]
      simp only [hstep, ih]

/-- A fold gives the same in every order of its entries, if those that follow each other may be
exchanged. -/
theorem foldlM_perm {f : β → α → Except ε β} {P : α → Prop}
    (hswap : ∀ x y, P x → P y → ∀ b next last, f b x = .ok next → f next y = .ok last →
      ∃ other, f b y = .ok other ∧ f other x = .ok last)
    {xs ys : List α} (hperm : xs.Perm ys) (hall : ∀ x ∈ xs, P x) {b result : β}
    (h : xs.foldlM f b = .ok result) : ys.foldlM f b = .ok result := by
  induction hperm generalizing b with
  | nil => exact h
  | cons x _ ih =>
      obtain ⟨next, hnext, hrest⟩ := bind_eq_ok.mp h
      have htail := ih (fun y hy => hall y (List.mem_cons_of_mem x hy)) hrest
      exact bind_eq_ok.mpr ⟨next, hnext, htail⟩
  | swap x y zs =>
      obtain ⟨next, hy, hthen⟩ := bind_eq_ok.mp h
      obtain ⟨last, hx, hrest⟩ := bind_eq_ok.mp hthen
      have hyall := hall y List.mem_cons_self
      have hxall := hall x (List.mem_cons_of_mem y List.mem_cons_self)
      obtain ⟨other, hother, hlast⟩ := hswap y x hyall hxall b next last hy hx
      exact bind_eq_ok.mpr ⟨other, hother, bind_eq_ok.mpr ⟨last, hlast, hrest⟩⟩
  | trans hfirst _ ihfirst ihsecond =>
      have hmiddle := ihfirst hall h
      exact ihsecond (fun x hx => hall x (hfirst.mem_iff.mpr hx)) hmiddle

theorem mapM_eq_ok {f : α → Except ε β} {xs : List α} {ys : List β} :
    xs.mapM f = .ok ys ↔ List.Forall₂ (fun x y => f x = .ok y) xs ys := by
  induction xs generalizing ys with
  | nil =>
      rw [List.mapM_nil, List.forall₂_nil_left_iff]
      constructor
      · intro h
        cases h
        rfl
      · rintro rfl
        rfl
  | cons x xs ih =>
      rw [List.mapM_cons, bind_eq_ok]
      constructor
      · rintro ⟨y, hy, htail⟩
        obtain ⟨rest, hrest, hresult⟩ := bind_eq_ok.mp htail
        cases hresult
        exact List.Forall₂.cons hy (ih.mp hrest)
      · intro h
        cases h with
        | cons hy hrest => exact ⟨_, hy, bind_eq_ok.mpr ⟨_, ih.mpr hrest, rfl⟩⟩

theorem mapM_congr {f f' : α → Except ε β} {xs : List α} (h : ∀ x ∈ xs, f x = f' x) :
    xs.mapM f = xs.mapM f' := by
  induction xs with
  | nil => rfl
  | cons x xs ih =>
      rw [List.mapM_cons, List.mapM_cons, h x List.mem_cons_self,
        ih fun y hy => h y (List.mem_cons_of_mem x hy)]

/-- A traversal whose steps all succeed succeeds.  What each step establishes about its result and
the entry of a list beside it holds at every index. -/
theorem exists_mapM {f : α → Except ε β} {R : α → γ → β → Prop} {xs : List α} {zs : List γ}
    (h : List.Forall₂ (fun x z => ∃ y, f x = .ok y ∧ R x z y) xs zs) :
    ∃ ys, xs.mapM f = .ok ys ∧ ∀ (index : Nat) (x : α) (z : γ), xs[index]? = some x →
      zs[index]? = some z → ∃ y, ys[index]? = some y ∧ R x z y := by
  induction h with
  | nil => exact ⟨[], rfl, fun index x z hx => by cases hx⟩
  | @cons x z xs zs hfirst _ ih =>
      obtain ⟨y, hy, hrelated⟩ := hfirst
      obtain ⟨ys, hys, hrest⟩ := ih
      refine ⟨y :: ys, mapM_eq_ok.mpr (.cons hy (mapM_eq_ok.mp hys)), ?_⟩
      intro index x' z' hx' hz'
      cases index with
      | zero =>
          cases hx'
          cases hz'
          exact ⟨y, rfl, hrelated⟩
      | succ index => exact hrest index x' z' hx' hz'

/-- The error of a computation that fails. -/
def error? : Except ε α → Option ε
  | .ok _ => none
  | .error e => some e

theorem error?_eq_none {x : Except ε α} : error? x = none ↔ ∃ a, x = .ok a := by
  cases x with
  | error e => simp [error?]
  | ok a => simp [error?]

theorem error?_eq_some {x : Except ε α} {e : ε} : error? x = some e ↔ x = .error e := by
  cases x with
  | error e => simp [error?]
  | ok a => simp [error?]

theorem error?_map (x : Except ε α) (f : α → β) : error? (x.map f) = error? x := by
  cases x with
  | error e => rfl
  | ok a => rfl

theorem error?_mapError {δ : Type} (x : Except ε α) (f : ε → δ) :
    error? (x.mapError f) = (error? x).map f := by
  cases x with
  | error e => rfl
  | ok a => rfl

/-- If each step of a traversal fails with the first fault of its own list, the traversal fails
with the first fault of the lists one behind the other. -/
theorem error?_mapM {f : α → Except ε β} {g : α → List γ} {fault? : γ → Option ε} {xs : List α}
    (h : ∀ x ∈ xs, error? (f x) = (g x).findSome? fault?) :
    error? (xs.mapM f) = (xs.flatMap g).findSome? fault? := by
  induction xs with
  | nil => rfl
  | cons x xs ih =>
      have htail := ih fun y hy => h y (List.mem_cons_of_mem x hy)
      rw [List.mapM_cons, List.flatMap_cons, List.findSome?_append, ← h x List.mem_cons_self,
        ← htail]
      cases f x with
      | error e => rfl
      | ok y =>
          change error? (xs.mapM f >>= fun rest => .ok (y :: rest)) = error? (xs.mapM f)
          cases xs.mapM f with
          | error e => rfl
          | ok ys => rfl

end RadioPacket.Fallible
