import Mathlib.Tactic

/-!
# Sweeping a weighted list

A pass over a list drops what is marked, and drops anything as long as the
weight that has not been dropped exceeds a limit. After the pass the rest is
light enough or nothing is left. The pass drops an initial part of the list
exactly if no mark stands behind an unmarked item whose tail is light enough.
-/

set_option autoImplicit false

namespace GoCommon.Sweep
open List

variable {α : Type}

def weigh (weight : α → ℤ) (xs : List α) : ℤ := (xs.map weight).sum

def sweep (marked : α → Bool) (weight : α → ℤ) (limit : ℤ) : ℤ → List α → List α
  | _, [] => []
  | total, x::xs => if marked x ∨ limit < total then sweep marked weight limit (total-weight x) xs
      else x::sweep marked weight limit total xs

section Passes
variable (marked : α → Bool) (weight : α → ℤ) (limit : ℤ)

@[simp] theorem weigh_cons {x : α} {xs : List α} :
    weigh weight (x::xs) = weight x+weigh weight xs := by simp [weigh]

theorem sweep_sublist (total : ℤ) (xs : List α) :
    (sweep marked weight limit total xs).Sublist xs := by
  induction xs generalizing total with
  | nil => exact List.Sublist.slnil
  | cons x xs ih =>
    rw [sweep]
    split
    · exact (ih _).cons x
    · exact (ih _).cons_cons x

variable (hw : ∀ x, 0 ≤ weight x)
include hw

theorem sweep_light (total : ℤ) (xs : List α) (h : total ≤ limit) :
    sweep marked weight limit total xs = xs.filter (fun x => !marked x) := by
  induction xs generalizing total with
  | nil => rfl
  | cons x xs ih =>
    by_cases hx : marked x = true
    · have hle : total-weight x ≤ limit := by
        have := hw x
        omega
      rw [sweep, if_pos (.inl hx), ih _ hle, filter_cons_of_neg (by simp [hx])]
    · rw [sweep, if_neg (by simp [hx, h]), ih _ h, filter_cons_of_pos (by simp [hx])]

theorem weigh_filter (p : α → Bool) (xs : List α) :
    weigh weight (xs.filter p) ≤ weigh weight xs := by
  induction xs with
  | nil => exact le_refl _
  | cons x xs ih =>
    have hx := hw x
    by_cases hp : p x = true
    · rw [filter_cons_of_pos hp, weigh_cons, weigh_cons]
      omega
    · rw [filter_cons_of_neg hp, weigh_cons]
      omega

theorem sweep_weight (rest : ℤ) (xs : List α) :
    rest+weigh weight (sweep marked weight limit (rest+weigh weight xs) xs) ≤ limit ∨
      sweep marked weight limit (rest+weigh weight xs) xs = [] := by
  induction xs with
  | nil => exact .inr rfl
  | cons x xs ih =>
    by_cases hx : marked x = true ∨ limit < rest+weigh weight (x::xs)
    · have ht : rest+weigh weight (x::xs)-weight x = rest+weigh weight xs := by
        rw [weigh_cons]
        omega
      rw [sweep, if_pos hx, ht]
      exact ih
    have hle : rest+weigh weight (x::xs) ≤ limit := by
      omega
    have hf := weigh_filter weight hw (fun y => !marked y) (x::xs)
    rw [sweep_light marked weight limit hw _ _ hle]
    omega

def Aligned (rest : ℤ) (xs : List α) : Prop := ∀ pre x post, xs = pre++x::post →
  marked x = false → rest+weigh weight (x::post) ≤ limit → ∀ y ∈ post, marked y = false

omit hw in
theorem aligned_cons {rest : ℤ} {x : α} {xs : List α} :
    Aligned marked weight limit rest (x::xs) ↔
      (marked x = false → rest+weigh weight (x::xs) ≤ limit → ∀ y ∈ xs, marked y = false) ∧
        Aligned marked weight limit rest xs := by
  constructor
  · intro h
    refine ⟨h [] x xs rfl,?_⟩
    intro pre z post hp
    exact h (x::pre) z post (by rw [hp, cons_append])
  rintro ⟨h1,h2⟩ pre z post hp
  cases pre with
  | nil =>
    obtain ⟨rfl,rfl⟩ := List.cons.inj hp
    exact h1
  | cons w pre =>
    obtain ⟨rfl,rfl⟩ := List.cons.inj hp
    exact h2 pre z post rfl

omit hw in
theorem filtered_suffix_iff (x : α) (xs : List α) (hx : marked x = false) :
    x::xs.filter (fun y => !marked y) <:+ x::xs ↔ ∀ y ∈ xs, marked y = false := by
  rw [suffix_cons_iff]
  constructor
  · rintro (he | hs)
    · have hf := (List.cons.inj he).2
      intro y hy
      have := filter_eq_self.mp hf y hy
      simpa using this
    -- the filtered list has one unmarked item more than the list it would lie in
    have hc := hs.sublist.countP_le (p := fun y => !marked y)
    rw [countP_cons_of_pos (by simp [hx]), countP_filter] at hc
    simp at hc
  · intro h
    left
    rw [filter_eq_self.mpr (fun y hy => by simp [h y hy])]

theorem sweep_suffix_iff (rest : ℤ) (xs : List α) :
    sweep marked weight limit (rest+weigh weight xs) xs <:+ xs ↔
      Aligned marked weight limit rest xs := by
  induction xs with
  | nil =>
    refine ⟨fun _ pre x post hp => ?_,fun _ => suffix_rfl⟩
    simp at hp
  | cons x xs ih =>
    rw [aligned_cons, ← ih]
    by_cases hx : marked x = true ∨ limit < rest+weigh weight (x::xs)
    · have ht : rest+weigh weight (x::xs)-weight x = rest+weigh weight xs := by
        rw [weigh_cons]
        omega
      have hlen := (sweep_sublist marked weight limit (rest+weigh weight xs) xs).length_le
      rw [sweep, if_pos hx, ht, suffix_cons_iff]
      constructor
      · rintro (he | hs)
        · rw [he, length_cons] at hlen
          omega
        refine ⟨fun hm hle => ?_,hs⟩
        rcases hx with hx | hx
        · rw [hm] at hx
          cases hx
        · omega
      · exact fun h => .inr h.2
    obtain ⟨hm,hle⟩ := not_or.mp hx
    have hm : marked x = false := by simpa using hm
    have hle : rest+weigh weight (x::xs) ≤ limit := by omega
    have hle' : rest+weigh weight xs ≤ limit := by
      have := hw x
      rw [weigh_cons] at hle
      omega
    rw [sweep_light marked weight limit hw _ _ hle, filter_cons_of_pos (by simp [hm]),
      filtered_suffix_iff marked x xs hm]
    constructor
    · intro h
      refine ⟨fun _ _ => h,?_⟩
      rw [sweep_light marked weight limit hw _ _ hle',
        filter_eq_self.mpr (fun y hy => by simp [h y hy])]
    · exact fun h => h.1 hm hle

end Passes

end GoCommon.Sweep
