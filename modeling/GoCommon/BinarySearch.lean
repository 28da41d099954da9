import Mathlib.Tactic
import Mathlib.Data.List.GetD

/-!
# Binary search for the first index that satisfies a predicate

The loop halves the interval until it is empty. Nothing is assumed about the
predicate in the definition; monotonicity enters with the characterization.
-/

set_option autoImplicit false

namespace GoCommon.BinarySearch
open List

def searchLoop (f : ℕ → Bool) : ℕ → ℕ → ℕ → ℕ
  | 0, i, _ => i
  | n+1, i, j => if i < j then
      if f ((i+j)/2) then searchLoop f n i ((i+j)/2) else searchLoop f n ((i+j)/2+1) j
    else i

def search (n : ℕ) (f : ℕ → Bool) : ℕ := searchLoop f n 0 n

theorem searchLoop_eq (f : ℕ → Bool) (fuel i j m : ℕ) (hf : j-i ≤ fuel) (hi : i ≤ m) (hj : m ≤ j)
    (hlo : ∀ k, i ≤ k → k < m → f k = false) (hhi : ∀ k, m ≤ k → k < j → f k = true) :
    searchLoop f fuel i j = m := by
  induction fuel generalizing i j with
  | zero =>
    unfold searchLoop
    omega
  | succ fuel ih =>
    unfold searchLoop
    split
    · by_cases hm : m ≤ (i+j)/2
      · rw [hhi _ hm (by omega)]
        exact ih _ _ (by omega) hi (by omega) hlo (fun k h1 h2 => hhi k h1 (by omega))
      · rw [hlo _ (by omega) (by omega)]
        exact ih _ _ (by omega) (by omega) hj (fun k h1 h2 => hlo k (by omega) h2)
          (fun k h1 h2 => hhi k h1 h2)
    · omega

theorem search_eq {n : ℕ} {f : ℕ → Bool} {m : ℕ} (hm : m ≤ n)
    (hlo : ∀ k < m, f k = false) (hhi : ∀ k, m ≤ k → k < n → f k = true) : search n f = m :=
  searchLoop_eq f n 0 n m (by omega) (by omega) hm (fun k _ h => hlo k h) hhi

theorem searchLoop_bounds (f : ℕ → Bool) (fuel i j : ℕ) (h : i ≤ j) :
    i ≤ searchLoop f fuel i j ∧ searchLoop f fuel i j ≤ j := by
  induction fuel generalizing i j with
  | zero => exact ⟨le_refl _,h⟩
  | succ fuel ih =>
    unfold searchLoop
    split
    · split
      · have := ih i ((i+j)/2) (by omega)
        omega
      · have := ih ((i+j)/2+1) j (by omega)
        omega
    · omega

theorem search_le (n : ℕ) (f : ℕ → Bool) : search n f ≤ n :=
  (searchLoop_bounds f n 0 n (by omega)).2

theorem searchLoop_before (f : ℕ → Bool) (fuel i j m : ℕ) (hi : ∀ k, i = k+1 → f k = false)
    (h : searchLoop f fuel i j = m+1) : f m = false := by
  induction fuel generalizing i j with
  | zero => exact hi m h
  | succ fuel ih =>
    unfold searchLoop at h
    split at h
    · split at h
      · exact ih _ _ hi h
      rename_i hf
      refine ih _ _ (fun k hk => ?_) h
      have hk : k = (i+j)/2 := by omega
      simpa [hk] using hf
    · exact hi m h

theorem search_before {n : ℕ} {f : ℕ → Bool} {m : ℕ} (h : search n f = m+1) : f m = false :=
  searchLoop_before f n 0 n m (by omega) h

theorem sorted_split {α : Type} (key : α → ℕ) (x : ℕ) {l : List α}
    (h : l.Pairwise (fun a b => key a ≤ key b)) :
    ∃ lo hi, l = lo++hi ∧ (∀ a ∈ lo, key a ≤ x) ∧ ∀ a ∈ hi, x < key a := by
  induction l with
  | nil => exact ⟨[],[],rfl,by simp,by simp⟩
  | cons a l ih =>
    rw [pairwise_cons] at h
    by_cases ha : key a ≤ x
    · obtain ⟨lo,hi,rfl,h1,h2⟩ := ih h.2
      exact ⟨a::lo,hi,rfl,by simpa using ⟨ha,h1⟩,h2⟩
    · refine ⟨[],a::l,rfl,by simp,forall_mem_cons.mpr ⟨by omega,fun b hb => ?_⟩⟩
      have := h.1 b hb
      omega

theorem search_above {α : Type} (key : α → ℕ) (x : ℕ) (d : α) (lo hi : List α)
    (h1 : ∀ a ∈ lo, key a ≤ x) (h2 : ∀ a ∈ hi, x < key a) :
    search (lo++hi).length (fun j => x < key ((lo++hi).getD j d)) = lo.length := by
  refine search_eq (by simp) ?_ ?_
  · intro k hk
    have := h1 _ (getElem_mem hk)
    rw [getD_append _ _ _ _ hk, getD_eq_getElem _ _ hk]
    simpa using this
  intro k hk hlt
  rw [length_append] at hlt
  rw [getD_append_right _ _ _ _ hk, getD_eq_getElem _ _ (by omega)]
  simpa using h2 _ (getElem_mem _)

end GoCommon.BinarySearch
