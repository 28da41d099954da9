import Mathlib.Data.List.Sort
import Mathlib.Tactic

/-!
# The last element of every key

Elements of a list may carry a key. A later element replaces the earlier ones
with its key, and elements without a key stay. What is left determines the
same map from keys to values as the whole list.
-/

set_option autoImplicit false

namespace GoCommon.LastWins
open List

variable {α κ β : Type} [DecidableEq κ] (key : α → Option κ)

def keepLast : List α → List α
  | [] => []
  | x::xs => if key x ≠ none ∧ ∃ y ∈ xs, key y = key x then keepLast xs else x::keepLast xs

theorem keepLast_sublist (xs : List α) : (keepLast key xs).Sublist xs := by
  induction xs with
  | nil => exact List.Sublist.slnil
  | cons x xs ih =>
    rw [keepLast]
    split
    · exact ih.cons x
    · exact ih.cons_cons x

theorem keepLast_concat (xs : List α) (x : α) : keepLast key (xs++[x]) =
    (keepLast key xs).filter (fun y => key x = none ∨ key y ≠ key x)++[x] := by
  induction xs with
  | nil => simp [keepLast]
  | cons z xs ih =>
    rw [cons_append, keepLast, keepLast, ih]
    by_cases hz : key z ≠ none ∧ ∃ y ∈ xs, key y = key z
    · have hz' : key z ≠ none ∧ ∃ y ∈ xs++[x], key y = key z := by
        obtain ⟨h1,y,hy,hk⟩ := hz
        exact ⟨h1,y,by simp [hy],hk⟩
      rw [if_pos hz, if_pos hz']
    rw [if_neg hz]
    by_cases hx : key z ≠ none ∧ key x = key z
    · have hdrop : ¬ (key x = none ∨ key z ≠ key x) := by
        rintro (h | h)
        · exact hx.1 (hx.2 ▸ h)
        · exact h hx.2.symm
      rw [if_pos ⟨hx.1,x,by simp,hx.2⟩, filter_cons_of_neg (by simpa using hdrop)]
    have hkeep : key x = none ∨ key z ≠ key x := by
      by_contra hcon
      push Not at hcon
      exact hx ⟨by rw [hcon.2]; exact hcon.1,hcon.2.symm⟩
    rw [if_neg, filter_cons_of_pos (by simpa using hkeep), cons_append]
    rintro ⟨h1,y,hy,hk⟩
    rcases mem_append.mp hy with hy | hy
    · exact hz ⟨h1,y,hy,hk⟩
    · rw [mem_singleton.mp hy] at hk
      exact hx ⟨h1,hk⟩

theorem keepLast_keyless (xs : List α) :
    (keepLast key xs).filter (fun x => key x = none) = xs.filter (fun x => key x = none) := by
  induction xs with
  | nil => rfl
  | cons x xs ih =>
    rw [keepLast]
    by_cases hx : key x = none
    · rw [if_neg (by simp [hx]), filter_cons_of_pos (by simpa using hx),
        filter_cons_of_pos (by simpa using hx), ih]
    rw [filter_cons_of_neg (by simpa using hx)]
    split
    · exact ih
    · rw [filter_cons_of_neg (by simpa using hx), ih]

theorem keepLast_once (xs : List α) :
    (keepLast key xs).Pairwise (fun x y => key x ≠ none → key y ≠ key x) := by
  induction xs with
  | nil => exact List.Pairwise.nil
  | cons x xs ih =>
    rw [keepLast]
    split
    · exact ih
    · rename_i hx
      refine pairwise_cons.mpr ⟨fun y hy hne heq => hx ⟨hne,y,?_,heq⟩,ih⟩
      exact (keepLast_sublist key xs).subset hy

/-! ## The map of the latest values -/

section State
variable (val : α → β)

def enter (m : κ → Option β) (x : α) : κ → Option β := match key x with
  | none => m
  | some k => Function.update m k (some (val x))

def state (xs : List α) : κ → Option β := xs.foldl (enter key val) (fun _ => none)

theorem state_concat {xs : List α} {x : α} :
    state key val (xs++[x]) = enter key val (state key val xs) x := by
  simp [state]

theorem state_append {xs xs' ys : List α} (h : state key val xs = state key val xs') :
    state key val (xs++ys) = state key val (xs'++ys) := by
  rw [state, foldl_append, state, foldl_append]
  exact congrArg (fun m => ys.foldl (enter key val) m) h

theorem state_filter {p : α → Bool} {xs : List α} (k : κ) (h : ∀ x, key x = some k → p x = true) :
    state key val (xs.filter p) k = state key val xs k := by
  induction xs using List.reverseRecOn with
  | nil => rfl
  | append_singleton xs x ih =>
    rw [filter_append, state_concat]
    by_cases hp : p x = true
    · rw [filter_cons_of_pos hp, filter_nil, state_concat]
      rcases hk : key x with _ | j
      · simpa [enter, hk] using ih
      · simp only [enter, hk, Function.update_apply, ih]
    rw [filter_cons_of_neg hp, filter_nil, append_nil, ih]
    rcases hk : key x with _ | j
    · simp [enter, hk]
    have hne : k ≠ j := by
      rintro rfl
      exact hp (h x hk)
    simp [enter, hk, hne]

theorem state_keepLast (xs : List α) : state key val (keepLast key xs) = state key val xs := by
  induction xs using List.reverseRecOn with
  | nil => rfl
  | append_singleton xs x ih =>
    rw [keepLast_concat, state_concat, state_concat, ← ih]
    funext k
    rcases hx : key x with _ | j
    · simp [enter, hx]
    simp only [enter, hx, Function.update_apply]
    by_cases hk : k = j
    · rw [if_pos hk, if_pos hk]
    · rw [if_neg hk, if_neg hk]
      refine state_filter key val k (fun y hy => ?_)
      simp [hy, hk]

theorem state_map {γ : Type} {f : γ → α} {xs : List γ} :
    state key val (xs.map f) = state (fun x => key (f x)) (fun x => val (f x)) xs := by
  rw [state, foldl_map]
  rfl

end State

theorem eq_of_increasing (rank : α → ℕ) {xs ys : List α} (hp : xs.Perm ys)
    (hx : xs.Pairwise (fun a b => rank a ≤ rank b)) (hy : ys.Pairwise (fun a b => rank a < rank b)) :
    xs = ys := by
  have hnd : (xs.map rank).Nodup := by
    rw [(hp.map rank).nodup_iff, List.Nodup, pairwise_map]
    exact hy.imp (fun h => Nat.ne_of_lt h)
  rw [List.Nodup, pairwise_map] at hnd
  have hlt : xs.Pairwise (fun a b => rank a < rank b) :=
    (hx.and hnd).imp (fun h => lt_of_le_of_ne h.1 h.2)
  exact hp.eq_of_pairwise (fun a b _ _ h1 h2 => absurd h1 (by omega)) hlt hy

end GoCommon.LastWins
