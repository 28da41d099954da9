import Mathlib.Tactic

/-!
# Slices over shared arrays

A slice is a view of the first elements of an array; appending writes behind
them in place while the array has room and moves to a new array when it has
not. Views of one array see each other's writes. A slice whose array has no
other owner behaves like a list.
-/

set_option autoImplicit false

namespace GoCommon.SliceHeap
open List Function

variable {α ι : Type}

structure Heap (α : Type) where
  arrays : ℕ → List α
  fresh : ℕ

structure Slice where
  arr : Option ℕ
  len : ℕ
  deriving DecidableEq, Repr

namespace Heap

def contents (h : Heap α) (s : Slice) : List α := match s.arr with
  | none => []
  | some a => (h.arrays a).take s.len

def allocate (elems spare : List α) (h : Heap α) : Heap α × Slice :=
  (⟨update h.arrays h.fresh (elems++spare),h.fresh+1⟩,⟨some h.fresh,elems.length⟩)

def push (x : α) (spare : List α) (h : Heap α) (s : Slice) : Heap α × Slice :=
  match s.arr with
  | none => h.allocate [x] spare
  | some a =>
    if s.len < (h.arrays a).length then
      ({ h with arrays := update h.arrays a ((h.arrays a).set s.len x) },⟨some a,s.len+1⟩)
    else h.allocate (h.contents s++[x]) spare

def fill (x : α) (h : Heap α) (s : Slice) : Heap α := match s.arr with
  | none => h
  | some a => { h with
      arrays := update h.arrays a (List.replicate s.len x++(h.arrays a).drop s.len) }

end Heap

structure Valid (h : Heap α) (s : Slice) : Prop where
  bound : ∀ a ∈ s.arr, a < h.fresh ∧ s.len ≤ (h.arrays a).length
  empty : s.arr = none → s.len = 0

variable {h : Heap α} {s : Slice}

theorem contents_length (hv : Valid h s) : (h.contents s).length = s.len := by
  unfold Heap.contents
  rcases ha : s.arr with _ | a
  · simp [hv.empty ha]
  · simp [(hv.bound a (by simp [ha])).2]

theorem contents_zero {arr : Option ℕ} : h.contents ⟨arr,0⟩ = [] := by
  cases arr <;> simp [Heap.contents]

theorem allocate_spec (elems spare : List α) (h : Heap α) :
    Valid (h.allocate elems spare).1 (h.allocate elems spare).2 ∧
    (h.allocate elems spare).1.contents (h.allocate elems spare).2 = elems := by
  refine ⟨⟨?_,by simp [Heap.allocate]⟩,by simp [Heap.allocate, Heap.contents]⟩
  intro a ha
  cases ha
  simp [Heap.allocate]

theorem push_spec (x : α) (spare : List α) (hv : Valid h s) :
    Valid (h.push x spare s).1 (h.push x spare s).2 ∧
    (h.push x spare s).1.contents (h.push x spare s).2 = h.contents s++[x] := by
  unfold Heap.push
  rcases ha : s.arr with _ | a
  · have hc : h.contents s = [] := by simp [Heap.contents, ha]
    rw [hc]
    exact allocate_spec [x] spare h
  obtain ⟨hlt,hle⟩ := hv.bound a (by simp [ha])
  dsimp only
  split
  · rename_i hroom
    refine ⟨⟨?_,by simp⟩,?_⟩
    · intro b hb
      cases hb
      simp only [update_self, length_set]
      exact ⟨hlt,hroom⟩
    · simp only [Heap.contents, ha, update_self]
      rw [take_add_one, List.getElem?_set_self hroom, take_set_of_le (le_refl _)]
      rfl
  · exact allocate_spec _ spare h

theorem push_fresh (x : α) (spare : List α) (h : Heap α) (s : Slice) :
    h.fresh ≤ (h.push x spare s).1.fresh := by
  unfold Heap.push Heap.allocate
  split
  · exact Nat.le_succ _
  · split
    · exact le_refl _
    · exact Nat.le_succ _

theorem push_arr (x : α) (spare : List α) (h : Heap α) (s : Slice) :
    ((h.push x spare s).2.arr = s.arr ∧ s.arr ≠ none) ∨
    (h.push x spare s).2.arr = some h.fresh ∧ (h.push x spare s).1.fresh = h.fresh+1 := by
  unfold Heap.push
  rcases ha : s.arr with _ | a
  · exact .inr ⟨rfl,rfl⟩
  dsimp only
  split
  · exact .inl ⟨rfl,by simp⟩
  · exact .inr ⟨rfl,rfl⟩

theorem push_other {x : α} {spare : List α} {b : ℕ} (hb : b < h.fresh)
    (hs : s.arr ≠ some b) : (h.push x spare s).1.arrays b = h.arrays b := by
  unfold Heap.push Heap.allocate
  rcases ha : s.arr with _ | a
  · exact update_of_ne (Nat.ne_of_lt hb) _ _
  dsimp only
  split
  · refine update_of_ne (fun he => hs ?_) _ _
    rw [ha, he]
  · exact update_of_ne (Nat.ne_of_lt hb) _ _

theorem fill_other {x : α} (b : ℕ) (hs : s.arr ≠ some b) : (h.fill x s).arrays b = h.arrays b := by
  unfold Heap.fill
  rcases ha : s.arr with _ | a
  · rfl
  · refine update_of_ne (fun he => hs ?_) _ _
    rw [ha, he]

theorem fill_fresh (x : α) (h : Heap α) (s : Slice) : (h.fill x s).fresh = h.fresh := by
  unfold Heap.fill
  split <;> rfl

theorem view_congr {h h' : Heap α} (hv : Valid h s) (hf : h.fresh ≤ h'.fresh)
    (ha : ∀ a ∈ s.arr, h'.arrays a = h.arrays a) :
    Valid h' s ∧ h'.contents s = h.contents s := by
  refine ⟨⟨fun a hm => ?_,hv.empty⟩,?_⟩
  · rw [ha a hm]
    exact ⟨lt_of_lt_of_le (hv.bound a hm).1 hf,(hv.bound a hm).2⟩
  unfold Heap.contents
  rcases hs : s.arr with _ | a
  · rfl
  · dsimp only
    rw [ha a (by simp [hs])]

/-! ## Ownership -/

def Owns (h : Heap α) (o : ι → Option ℕ) : Prop :=
  ∀ i a, o i = some a → a < h.fresh ∧ ∀ j, o j = some a → j = i

theorem Owns.grow {h h' : Heap α} {o : ι → Option ℕ} (ho : Owns h o) (hf : h.fresh ≤ h'.fresh) :
    Owns h' o := fun i a ha => ⟨lt_of_lt_of_le (ho i a ha).1 hf,(ho i a ha).2⟩

theorem Owns.moves {o o' : ι → Option ℕ} (ho : Owns h o) (f : ι → Option ι)
    (hf : ∀ i j k, f i = some k → f j = some k → i = j) (ho' : ∀ i, o' i = (f i).bind o) :
    Owns h o' := by
  intro i a ha
  rw [ho', Option.bind_eq_some_iff] at ha
  obtain ⟨k,hk,hka⟩ := ha
  refine ⟨(ho k a hka).1,fun j hj => ?_⟩
  rw [ho', Option.bind_eq_some_iff] at hj
  obtain ⟨l,hl,hla⟩ := hj
  rw [(ho k a hka).2 l hla] at hl
  exact hf j i k hl hk

theorem Owns.renew [DecidableEq ι] {h h' : Heap α} {o : ι → Option ℕ} (ho : Owns h o) (i : ι)
    (hf : h'.fresh = h.fresh+1) : Owns h' (update o i (some h.fresh)) := by
  have hold : ∀ j, j ≠ i → update o i (some h.fresh) j = o j :=
    fun j hj => update_of_ne hj _ _
  intro j a ha
  by_cases hj : j = i
  · rw [hj, update_self, Option.some.injEq] at ha
    refine ⟨by omega,fun k hk => ?_⟩
    by_cases hki : k = i
    · rw [hki, hj]
    · rw [hold k hki] at hk
      have := (ho k a hk).1
      omega
  rw [hold j hj] at ha
  obtain ⟨hlt,huniq⟩ := ho j a ha
  refine ⟨by omega,fun k hk => ?_⟩
  by_cases hki : k = i
  · rw [hki, update_self, Option.some.injEq] at hk
    omega
  · rw [hold k hki] at hk
    exact huniq k hk

end GoCommon.SliceHeap
