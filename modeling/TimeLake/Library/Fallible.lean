import Mathlib.Data.List.Forall2
import Mathlib.Logic.Basic

/-!
Fallible computations in `Except`: what a success of a sequence or of a
traversal says about its steps.
-/

namespace TimeLake.Library

universe u v w

variable {ε : Type u} {α : Type v} {β : Type w}

theorem bind_eq_ok {α : Type w} {x : Except ε α} {f : α → Except ε β} {b : β} :
    (x >>= f) = .ok b ↔ ∃ a, x = .ok a ∧ f a = .ok b := by
  cases x with
  | error e =>
      constructor
      · intro h
        cases h
      · rintro ⟨_, h, _⟩
        cases h
  | ok a =>
      constructor
      · exact fun h => ⟨a, rfl, h⟩
      · rintro ⟨_, h, hf⟩
        obtain rfl := Except.ok.inj h
        exact hf

theorem bind_eq_error {α : Type w} {x : Except ε α} {f : α → Except ε β} {e : ε} :
    (x >>= f) = .error e ↔ x = .error e ∨ ∃ a, x = .ok a ∧ f a = .error e := by
  cases x with
  | error e' =>
      constructor
      · exact fun h => .inl (congrArg Except.error (Except.error.inj h))
      · rintro (h | ⟨_, h, _⟩)
        · exact congrArg Except.error (Except.error.inj h)
        · cases h
  | ok a =>
      constructor
      · exact fun h => .inr ⟨a, rfl, h⟩
      · rintro (h | ⟨_, h, hf⟩)
        · cases h
        · obtain rfl := Except.ok.inj h
          exact hf

theorem map_eq_ok {x : Except ε α} {f : α → β} {b : β} :
    x.map f = .ok b ↔ ∃ a, x = .ok a ∧ f a = b := by
  cases x with
  | error e =>
      constructor
      · intro h
        cases h
      · rintro ⟨_, h, _⟩
        cases h
  | ok a =>
      constructor
      · exact fun h => ⟨a, rfl, Except.ok.inj h⟩
      · rintro ⟨_, h, rfl⟩
        obtain rfl := Except.ok.inj h
        rfl

/-- A traversal succeeds with the results of its steps. -/
theorem mapM_eq_ok {f : α → Except ε β} {xs : List α} {ys : List β} :
    xs.mapM f = .ok ys ↔ List.Forall₂ (fun x y => f x = .ok y) xs ys := by
  induction xs generalizing ys with
  | nil =>
      rw [List.mapM_nil, List.forall₂_nil_left_iff]
      constructor
      · exact fun h => (Except.ok.inj h).symm
      · rintro rfl
        rfl
  | cons x rest ih =>
      rw [List.mapM_cons, List.forall₂_cons_left_iff]
      constructor
      · intro h
        obtain ⟨y, hy, h⟩ := bind_eq_ok.mp h
        obtain ⟨zs, hzs, h⟩ := bind_eq_ok.mp h
        exact ⟨y, zs, hy, ih.mp hzs, (Except.ok.inj h).symm⟩
      · rintro ⟨y, zs, hy, hzs, rfl⟩
        rw [hy, ih.mpr hzs]
        rfl

/-- A traversal whose steps all succeed, with what they give. -/
theorem exists_mapM {f : α → Except ε β} {P : α → β → Prop} {xs : List α}
    (h : ∀ x ∈ xs, ∃ y, f x = .ok y ∧ P x y) :
    ∃ ys, xs.mapM f = .ok ys ∧ List.Forall₂ P xs ys := by
  induction xs with
  | nil => exact ⟨[], rfl, .nil⟩
  | cons x rest ih =>
      obtain ⟨y, hy, hP⟩ := h x List.mem_cons_self
      obtain ⟨ys, hys, hall⟩ := ih fun z hz => h z (List.mem_cons_of_mem _ hz)
      exact ⟨y :: ys, mapM_eq_ok.mpr (.cons hy (mapM_eq_ok.mp hys)), .cons hP hall⟩

theorem mem_of_mapM_eq_ok {f : α → Except ε β} {xs : List α} {ys : List β}
    (h : xs.mapM f = .ok ys) {y : β} (hy : y ∈ ys) : ∃ x ∈ xs, f x = .ok y := by
  have hall := mapM_eq_ok.mp h
  clear h
  induction hall with
  | nil => cases hy
  | cons hxy _ ih =>
      rcases List.mem_cons.mp hy with rfl | hy
      · exact ⟨_, List.mem_cons_self, hxy⟩
      · obtain ⟨x, hx, hfx⟩ := ih hy
        exact ⟨x, List.mem_cons_of_mem _ hx, hfx⟩

theorem exists_of_mapM_eq_ok {f : α → Except ε β} {xs : List α} {ys : List β}
    (h : xs.mapM f = .ok ys) {x : α} (hx : x ∈ xs) : ∃ y, f x = .ok y := by
  have hall := mapM_eq_ok.mp h
  clear h
  induction hall with
  | nil => cases hx
  | cons hxy _ ih =>
      rcases List.mem_cons.mp hx with rfl | hx
      · exact ⟨_, hxy⟩
      · exact ih hx

theorem exists_of_mapM_eq_error {f : α → Except ε β} {xs : List α} {e : ε}
    (h : xs.mapM f = .error e) : ∃ x ∈ xs, f x = .error e := by
  induction xs with
  | nil => cases h
  | cons x rest ih =>
      rw [List.mapM_cons] at h
      rcases bind_eq_error.mp h with hx | ⟨_, _, h⟩
      · exact ⟨x, by simp, hx⟩
      · rcases bind_eq_error.mp h with hrest | ⟨_, _, h⟩
        · obtain ⟨y, hy, hfy⟩ := ih hrest
          exact ⟨y, List.mem_cons_of_mem _ hy, hfy⟩
        · cases h

/-- A traversal of `Option` succeeds with what its steps give. -/
theorem mem_of_mapM_eq_some {f : α → Option β} {xs : List α} {ys : List β}
    (h : xs.mapM f = some ys) {y : β} (hy : y ∈ ys) : ∃ x ∈ xs, f x = some y := by
  induction xs generalizing ys with
  | nil =>
      rw [List.mapM_nil] at h
      obtain rfl := Option.some.inj h
      cases hy
  | cons x rest ih =>
      rw [List.mapM_cons] at h
      obtain ⟨z, hz, h⟩ := Option.bind_eq_some_iff.mp h
      obtain ⟨zs, hzs, h⟩ := Option.bind_eq_some_iff.mp h
      obtain rfl := Option.some.inj h
      rcases List.mem_cons.mp hy with rfl | hy
      · exact ⟨x, by simp, hz⟩
      · obtain ⟨w, hw, hfw⟩ := ih hzs hy
        exact ⟨w, List.mem_cons_of_mem _ hw, hfw⟩

section Alike

variable {α β γ δ : Type w}

/-- Two computations that fail with one error, or succeed with results in a
relation. -/
def Alike (R : α → β → Prop) : Except ε α → Except ε β → Prop
  | .ok a, .ok b => R a b
  | .error e, .error e' => e = e'
  | _, _ => False

theorem Alike.eq_error {R : α → β → Prop} {e : ε} {y : Except ε β} (h : Alike R (.error e) y) :
    y = .error e := by
  cases y with
  | error e' => rw [show e = e' from h]
  | ok b => exact h.elim

theorem Alike.eq_ok {R : α → β → Prop} {a : α} {y : Except ε β} (h : Alike R (.ok a) y) :
    ∃ b, y = .ok b ∧ R a b := by
  cases y with
  | error e' => exact h.elim
  | ok b => exact ⟨b, rfl, h⟩

theorem Alike.bind {R : α → β → Prop} {S : γ → δ → Prop} {x : Except ε α} {y : Except ε β}
    {f : α → Except ε γ} {g : β → Except ε δ} (h : Alike R x y)
    (hfg : ∀ a b, R a b → Alike S (f a) (g b)) : Alike S (x >>= f) (y >>= g) := by
  cases x with
  | error e =>
      cases y with
      | error e' => exact h
      | ok b => exact h.elim
  | ok a =>
      cases y with
      | error e' => exact h.elim
      | ok b => exact hfg a b h

theorem Alike.mapM {R : α → β → Prop} {S : γ → δ → Prop} {f : α → Except ε γ}
    {g : β → Except ε δ} (hfg : ∀ a b, R a b → Alike S (f a) (g b)) {xs : List α} {ys : List β}
    (h : List.Forall₂ R xs ys) : Alike (List.Forall₂ S) (xs.mapM f) (ys.mapM g) := by
  induction h with
  | nil => exact List.Forall₂.nil
  | cons hxy _ ih =>
      rw [List.mapM_cons, List.mapM_cons]
      refine (hfg _ _ hxy).bind fun a b hab => ih.bind fun as bs habs => ?_
      exact List.Forall₂.cons hab habs

end Alike

end TimeLake.Library
