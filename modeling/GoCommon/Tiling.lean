import Mathlib.Tactic

/-!
# Tilings of an interval

A list of pieces tiles an interval when each piece starts where the one
before it stops.
-/

set_option autoImplicit false

namespace GoCommon.Tiling

variable {α : Type} (start stop : α → ℕ)

def Tiles : ℕ → List α → ℕ → Prop
  | lo, [], hi => lo = hi
  | lo, x::xs, hi => start x = lo ∧ Tiles (stop x) xs hi

variable {start stop}

theorem tiles_append {lo hi : ℕ} {xs ys : List α} : Tiles start stop lo (xs++ys) hi ↔
    ∃ mid, Tiles start stop lo xs mid ∧ Tiles start stop mid ys hi := by
  induction xs generalizing lo with
  | nil => simp [Tiles]
  | cons x xs ih =>
    simp only [List.cons_append, Tiles, ih]
    constructor
    · rintro ⟨h,mid,h1,h2⟩
      exact ⟨mid,⟨h,h1⟩,h2⟩
    · rintro ⟨mid,⟨h,h1⟩,h2⟩
      exact ⟨h,mid,h1,h2⟩

@[simp] theorem tiles_single {lo hi : ℕ} {x : α} :
    Tiles start stop lo [x] hi ↔ start x = lo ∧ stop x = hi := by simp [Tiles]

theorem tiles_last {lo hi : ℕ} {xs : List α} {x : α} : Tiles start stop lo (xs++[x]) hi ↔
    Tiles start stop lo xs (start x) ∧ stop x = hi := by
  rw [tiles_append]
  constructor
  · rintro ⟨mid,h1,h2⟩
    obtain ⟨rfl,h3⟩ := (tiles_single).mp h2
    exact ⟨h1,h3⟩
  · rintro ⟨h1,h2⟩
    exact ⟨_,h1,by simpa using h2⟩

theorem tiles_trivial (lo hi : ℕ) (xs : List α) (h : Tiles start stop lo xs hi)
    (hx : ∀ x ∈ xs, stop x = start x) : lo = hi := by
  induction xs generalizing lo with
  | nil => exact h
  | cons x xs ih =>
    rw [← ih _ h.2 (fun y hy => hx y (by simp [hy])), hx x (by simp)]
    exact h.1.symm

theorem tiles_bounds (lo hi : ℕ) (xs : List α) (h : Tiles start stop lo xs hi)
    (hx : ∀ x ∈ xs, start x ≤ stop x) : lo ≤ hi ∧ ∀ x ∈ xs, lo ≤ start x ∧ stop x ≤ hi := by
  induction xs generalizing lo with
  | nil => exact ⟨le_of_eq h,by simp⟩
  | cons x xs ih =>
    obtain ⟨h1,h2⟩ := ih _ h.2 (fun y hy => hx y (by simp [hy]))
    have h3 := hx x (by simp)
    have h4 := h.1
    refine ⟨by omega,?_⟩
    intro y hy
    rcases List.mem_cons.mp hy with rfl | hy
    · omega
    · have := h2 y hy
      omega

end GoCommon.Tiling
