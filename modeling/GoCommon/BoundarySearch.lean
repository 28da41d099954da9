import GoCommon.ByteWords

/-!
# Search for a boundary in an interval of machine integers

The source halves an interval of signed 64-bit integers until it is empty. The distance of
its ends wraps if it does not fit, and the place below the smallest integer is the largest.
The model keeps the places at which the predicate was called.
-/

set_option autoImplicit false

namespace GoCommon.BoundarySearch
open List ByteWords

def midpoint (l r : ℤ) : ℤ := int64 (l+int64 (r-l)>>>(1 : ℕ))

def searchLoop (f : ℤ → Bool) : ℕ → ℤ → ℤ → List ℤ → Option (ℤ × List ℤ)
  | 0, _, _, _ => none
  | fuel+1, l, r, calls =>
    if l ≤ r then
      if f (midpoint l r) then searchLoop f fuel l (int64 (midpoint l r-1)) (midpoint l r::calls)
      else searchLoop f fuel (int64 (midpoint l r+1)) r (midpoint l r::calls)
    else some (l,calls)

def Finds (f : ℤ → Bool) (l r : ℤ) : Prop := ∃ fuel i calls, searchLoop f fuel l r [] = some (i,calls) ∧
  (∀ m ∈ calls, l ≤ m ∧ m ≤ r) ∧ (l ≤ i ∧ i ≤ r+1) ∧ (∀ k, l ≤ k → k < i → f k = false) ∧
    (i ≤ r → f i = true)

variable {f : ℤ → Bool} {l r : ℤ}

theorem midpoint_eq (hl : -2^63 ≤ l) (hlr : l ≤ r) (hr : r < 2^63) (hd : r-l < 2^63) :
    midpoint l r = l+(r-l)/2 := by
  rw [midpoint, int64_of_range (x := r-l) (by omega) hd, Int.shiftRight_eq_div_pow]
  exact int64_of_range (by omega) (by omega)

theorem midpoint_outside (hl : -2^63 ≤ l) (hr : r+1 < 2^63) (hd : 2^63 ≤ r-l) :
    ¬(l ≤ midpoint l r ∧ midpoint l r ≤ r) := by
  rw [midpoint, Int.shiftRight_eq_div_pow]
  simp only [int64, Int.bmod_def]
  omega

theorem mem_calls {fuel : ℕ} {calls calls' : List ℤ} {i m : ℤ}
    (h : searchLoop f fuel l r calls = some (i,calls')) (hm : m ∈ calls) : m ∈ calls' := by
  induction fuel generalizing l r calls with
  | zero => cases h
  | succ fuel ih =>
    rw [searchLoop] at h
    split at h
    · split at h
      · exact ih h (mem_cons_of_mem _ hm)
      · exact ih h (mem_cons_of_mem _ hm)
    · cases h
      exact hm

theorem midpoint_called {fuel : ℕ} {calls calls' : List ℤ} {i : ℤ} (hlr : l ≤ r)
    (h : searchLoop f fuel l r calls = some (i,calls')) : midpoint l r ∈ calls' := by
  cases fuel with
  | zero => cases h
  | succ fuel =>
    rw [searchLoop, if_pos hlr] at h
    split at h
    · exact mem_calls h (mem_cons_self ..)
    · exact mem_calls h (mem_cons_self ..)

section Monotone
variable (hl : -2^63 ≤ l) (hmono : ∀ i j, l ≤ i → i ≤ j → j ≤ r → f i = true → f j = true)
include hl hmono

theorem searchLoop_finds (hr : r+1 < 2^63) (hd : r-l < 2^63) (hfirst : l = -2^63 → f l = false)
    (n : ℕ) (lo hi : ℤ) (calls : List ℤ) (hn : (hi+1-lo).toNat ≤ n) (hlo : l ≤ lo) (hhi : hi ≤ r) (hle : lo ≤ hi+1)
    (hbelow : ∀ k, l ≤ k → k < lo → f k = false) (habove : ∀ k, hi < k → k ≤ r → f k = true)
    (hcalls : ∀ m ∈ calls, l ≤ m ∧ m ≤ r) :
    ∃ i calls', searchLoop f (n+1) lo hi calls = some (i,calls') ∧ (∀ m ∈ calls', l ≤ m ∧ m ≤ r) ∧
      (l ≤ i ∧ i ≤ r+1) ∧ (∀ k, l ≤ k → k < i → f k = false) ∧ (i ≤ r → f i = true) := by
  induction n generalizing lo hi calls with
  | zero =>
    rw [searchLoop, if_neg (by omega)]
    exact ⟨lo,calls,rfl,hcalls,by omega,hbelow,fun h => habove lo (by omega) h⟩
  | succ n ih =>
    rw [searchLoop]
    split
    · rename_i hlh
      rw [midpoint_eq (by omega) hlh (by omega) (by omega)]
      have hmid : l ≤ lo+(hi-lo)/2 ∧ lo+(hi-lo)/2 ≤ r := by omega
      have hcalls' : ∀ m ∈ (lo+(hi-lo)/2)::calls, l ≤ m ∧ m ≤ r := forall_mem_cons.mpr ⟨hmid,hcalls⟩
      split
      · rename_i hf
        have hlow : -2^63 ≤ lo+(hi-lo)/2-1 := by
          by_contra hlow
          have heq : lo+(hi-lo)/2 = l := by omega
          rw [heq, hfirst (by omega)] at hf
          cases hf
        rw [int64_of_range hlow (by omega)]
        refine ih lo _ _ (by omega) hlo (by omega) (by omega) hbelow (fun k hk hkr => ?_) hcalls'
        exact hmono _ k hmid.1 (by omega) hkr hf
      rename_i hf
      rw [int64_of_range (by omega) (by omega)]
      refine ih _ hi _ (by omega) (by omega) hhi (by omega) (fun k hk hlt => ?_) habove hcalls'
      rw [Bool.eq_false_iff]
      exact fun htrue => hf (hmono k _ hk (by omega) hmid.2 htrue)
    · exact ⟨lo,calls,rfl,hcalls,by omega,hbelow,fun h => habove lo (by omega) h⟩

theorem largest_called (hmin : l = -2^63) (hf : f l = true) (fuel : ℕ) (hi i : ℤ)
    (calls calls' : List ℤ) (hlo : l ≤ hi) (hhi : hi ≤ r) (hd : hi-l < 2^63)
    (h : searchLoop f fuel l hi calls = some (i,calls')) : 2^63-1 ∈ calls' := by
  induction fuel generalizing hi calls with
  | zero => cases h
  | succ fuel ih =>
    have hmid := midpoint_eq hl hlo (by omega) hd
    have htrue : f (midpoint l hi) = true := by
      exact hmono l _ le_rfl (by omega) (by omega) hf
    rw [searchLoop, if_pos hlo, if_pos htrue, hmid] at h
    by_cases hlast : l+(hi-l)/2 = l
    · have hwrap : int64 (l+(hi-l)/2-1) = 2^63-1 := by
        rw [hlast, hmin]
        rfl
      rw [hwrap] at h
      have hcall := midpoint_called (by omega) h
      rw [hmin] at hcall
      exact hcall
    · rw [int64_of_range (by omega) (by omega)] at h
      exact ih _ _ (by omega) (by omega) (by omega) h

/-- The search is right if and only if the distance of the ends fits into a word and the
smallest integer does not satisfy the predicate at the lower end. -/
theorem finds_iff (hlr : l ≤ r) (hr : r+1 < 2^63) : Finds f l r ↔ r-l < 2^63 ∧ ¬(l = -2^63 ∧ f l = true) := by
  constructor
  · rintro ⟨fuel,i,calls,h,hcalls,_⟩
    have hd : r-l < 2^63 := by
      by_contra hd
      exact midpoint_outside hl hr (by omega) (hcalls _ (midpoint_called hlr h))
    refine ⟨hd,?_⟩
    rintro ⟨hmin,hf⟩
    have := hcalls _ (largest_called hl hmono hmin hf fuel r i [] calls hlr le_rfl hd h)
    omega
  · rintro ⟨hd,hfirst⟩
    exact ⟨_,searchLoop_finds hl hmono hr hd (fun hmin => Bool.eq_false_iff.mpr fun hf =>
      hfirst ⟨hmin,hf⟩) _ l r [] le_rfl le_rfl le_rfl (by omega) (by omega) (by omega) (by simp)⟩

end Monotone

/-- The first number whose square is fifty or more. -/
theorem squares_found : Finds (fun i => decide (50 ≤ i*i)) 0 100 :=
  (finds_iff (by decide) (fun i j hi hij _ h => by
    have := mul_le_mul hij hij hi (hi.trans hij)
    simp only [decide_eq_true_eq] at h ⊢
    omega) (by decide) (by decide)).mpr (by decide)

/-- In the widest interval the first call is at the largest integer, behind its end. -/
theorem widest_called_outside : midpoint (-2^63) (2^63-2) = 2^63-1 ∧
    ¬Finds (fun i => decide (0 ≤ i)) (-2^63) (2^63-2) := by
  refine ⟨by decide +kernel,?_⟩
  rintro ⟨fuel,i,calls,h,hcalls,_⟩
  exact midpoint_outside (by decide) (by decide) (by decide) (hcalls _ (midpoint_called (by decide) h))

end GoCommon.BoundarySearch
