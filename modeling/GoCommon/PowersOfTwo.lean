import Mathlib.Data.Nat.Size
import Mathlib.Tactic

/-!
# Rounding to powers of two

The least power of two that is not smaller than a number, and at least two; the largest that
is not larger, from the bits below the highest one; and the closest.
-/

set_option autoImplicit false

namespace GoCommon.PowersOfTwo

def maxIntHeadBit : ℤ := 2^62

def ceilToPowerOfTwo (n : ℤ) : ℕ := if n ≤ 2 then 2 else 2^(n.toNat-1).size

theorem le_ceilToPowerOfTwo (n : ℕ) : n ≤ ceilToPowerOfTwo n := by
  rw [ceilToPowerOfTwo]
  split
  · omega
  · have := Nat.lt_size_self (n-1)
    rw [Int.toNat_natCast]
    omega

theorem ceilToPowerOfTwo_eq_pow (n : ℤ) (h : n ≤ maxIntHeadBit) :
    ∃ k, 0 < k ∧ k < 63 ∧ ceilToPowerOfTwo n = 2^k := by
  rw [ceilToPowerOfTwo]
  split
  · exact ⟨1,by decide,by decide,rfl⟩
  have hle : n.toNat-1 < 2^62 := by
    rw [maxIntHeadBit] at h
    omega
  have hsize := Nat.size_le.mpr hle
  have hpos : 0 < (n.toNat-1).size := Nat.size_pos.mpr (by omega)
  exact ⟨_,hpos,by omega,rfl⟩

def smear (n : ℕ) : ℕ :=
  let n := n ||| n>>>1
  let n := n ||| n>>>2
  let n := n ||| n>>>4
  let n := n ||| n>>>8
  n ||| n>>>16

def floorToPowerOfTwo (n : ℤ) : ℤ :=
  if n ≤ 2 then n else smear n.toNat-(smear n.toNat>>>1 : ℕ)

def closestPowerOfTwo (n : ℤ) : ℤ :=
  let next : ℤ := ceilToPowerOfTwo n
  let prev := next.tdiv 2
  if n-prev < next-n then prev else next

/-! ## Floor -/

def Spreads (n w m : ℕ) : Prop := ∀ j, m.testBit j = true ↔ ∃ i < w, n.testBit (j+i) = true

theorem Spreads.double {n w m : ℕ} (h : Spreads n w m) : Spreads n (w+w) (m ||| m>>>w) := by
  intro j
  rw [Nat.testBit_or, Nat.testBit_shiftRight, Bool.or_eq_true, h, h]
  constructor
  · rintro (⟨i,hi,hbit⟩ | ⟨i,hi,hbit⟩)
    · exact ⟨i,by omega,hbit⟩
    · exact ⟨w+i,by omega,by rwa [show j+(w+i) = w+j+i by omega]⟩
  rintro ⟨i,hi,hbit⟩
  by_cases hlow : i < w
  · exact Or.inl ⟨i,hlow,hbit⟩
  · exact Or.inr ⟨i-w,by omega,by rwa [show w+j+(i-w) = j+i by omega]⟩

theorem smear_spreads (n : ℕ) : Spreads n 32 (smear n) := by
  have h1 : Spreads n 1 n := fun j => ⟨fun h => ⟨0,one_pos,h⟩,fun ⟨i,hi,h⟩ => by
    rwa [Nat.lt_one_iff.mp hi] at h⟩
  exact h1.double.double.double.double.double

def ShortGaps (n : ℕ) : Prop := ∀ j, 2^j ≤ n → ∃ i < 32, n.testBit (j+i) = true

theorem shortGaps_of_lt {n : ℕ} (h : n < 2^32) : ShortGaps n := by
  intro j hj
  have hpos : n ≠ 0 := (lt_of_lt_of_le (Nat.two_pow_pos j) hj).ne'
  have hlog : Nat.log 2 n < 32 := Nat.log_lt_of_lt_pow hpos h
  have hle : j ≤ Nat.log 2 n := Nat.le_log_of_pow_le one_lt_two hj
  refine ⟨Nat.log 2 n-j,by omega,?_⟩
  rw [Nat.add_sub_cancel' hle]
  exact Nat.testBit_of_two_pow_le_and_two_pow_add_one_gt (Nat.pow_log_le_self 2 hpos)
    (Nat.lt_pow_succ_log_self one_lt_two n)

theorem smear_range {n t : ℕ} (hlo : 2^t ≤ n) (hhi : n < 2^(t+1)) :
    2^t ≤ smear n ∧ smear n < 2^(t+1) := by
  have hspreads := smear_spreads n
  constructor
  · have hbit : n.testBit t = true := Nat.testBit_of_two_pow_le_and_two_pow_add_one_gt hlo hhi
    exact Nat.ge_two_pow_of_testBit ((hspreads t).mpr ⟨0,by decide,hbit⟩)
  refine Nat.lt_pow_two_of_testBit _ (fun j hj => ?_)
  rw [Bool.eq_false_iff]
  intro hbit
  obtain ⟨i,_,hone⟩ := (hspreads j).mp hbit
  have hhigh : 2^(t+1) ≤ 2^(j+i) := Nat.pow_le_pow_right two_pos (by omega)
  rw [Nat.testBit_lt_two_pow (hhi.trans_le hhigh)] at hone
  cases hone

theorem smear_full_iff {n t : ℕ} (hlo : 2^t ≤ n) (hhi : n < 2^(t+1)) :
    smear n = 2^(t+1)-1 ↔ ShortGaps n := by
  have hbound : ∀ j, 2^j ≤ n ↔ j < t+1 := fun j =>
    ⟨fun h => (Nat.pow_lt_pow_iff_right one_lt_two).mp (h.trans_lt hhi),fun h =>
      (Nat.pow_le_pow_right two_pos (by omega)).trans hlo⟩
  constructor
  · intro hfull j hj
    refine (smear_spreads n j).mp ?_
    rw [hfull, Nat.testBit_two_pow_sub_one]
    exact decide_eq_true ((hbound j).mp hj)
  intro hgaps
  refine Nat.eq_of_testBit_eq (fun j => ?_)
  rw [Nat.testBit_two_pow_sub_one]
  by_cases hj : j < t+1
  · rw [decide_eq_true hj]
    exact (smear_spreads n j).mpr (hgaps j ((hbound j).mpr hj))
  · rw [decide_eq_false hj]
    refine Nat.testBit_lt_two_pow ((smear_range hlo hhi).2.trans_le ?_)
    exact Nat.pow_le_pow_right two_pos (by omega)

def PowerOfTwo (p : ℤ) : Prop := ∃ k : ℕ, p = 2^k

theorem log_range {n : ℤ} (hpos : 1 ≤ n) : ∃ t : ℕ, 2^t ≤ n ∧ n < 2^(t+1) := by
  obtain ⟨m,rfl⟩ := Int.eq_ofNat_of_zero_le (by omega : 0 ≤ n)
  refine ⟨Nat.log 2 m,?_,?_⟩
  · exact_mod_cast Nat.pow_log_le_self 2 (by omega : m ≠ 0)
  · exact_mod_cast Nat.lt_pow_succ_log_self one_lt_two m

theorem greatest_iff {n f : ℤ} {t : ℕ} (hlo : 2^t ≤ n) (hhi : n < 2^(t+1)) :
    IsGreatest {p | PowerOfTwo p ∧ p ≤ n} f ↔ f = 2^t := by
  have hgreatest : IsGreatest {p | PowerOfTwo p ∧ p ≤ n} (2^t) := by
    refine ⟨⟨⟨t,rfl⟩,hlo⟩,?_⟩
    rintro _ ⟨⟨k,rfl⟩,hk⟩
    have hlt : k < t+1 := (pow_lt_pow_iff_right₀ (one_lt_two : (1 : ℤ) < 2)).mp (hk.trans_lt hhi)
    exact pow_le_pow_right₀ one_le_two (Nat.lt_succ_iff.mp hlt)
  exact ⟨fun h => h.unique hgreatest,fun h => h ▸ hgreatest⟩

theorem floor_exact_iff {n : ℤ} (hpos : 1 ≤ n) :
    IsGreatest {p | PowerOfTwo p ∧ p ≤ n} (floorToPowerOfTwo n) ↔ ShortGaps n.toNat := by
  obtain ⟨t,hlo,hhi⟩ := log_range hpos
  obtain ⟨m,rfl⟩ := Int.eq_ofNat_of_zero_le (by omega : 0 ≤ n)
  have hlo' : 2^t ≤ m := by exact_mod_cast hlo
  have hhi' : m < 2^(t+1) := by exact_mod_cast hhi
  rw [greatest_iff hlo hhi, Int.toNat_natCast, ← smear_full_iff hlo' hhi', floorToPowerOfTwo]
  split
  · have hsmall : m = 1 ∨ m = 2 := by omega
    have ht : t < 2 := (Nat.pow_lt_pow_iff_right one_lt_two).mp (hlo'.trans_lt (by omega : m < 2^2))
    rcases hsmall with rfl | rfl <;> interval_cases t <;> decide
  obtain ⟨hle,hlt⟩ := smear_range hlo' hhi'
  rw [Int.toNat_natCast, Nat.shiftRight_one]
  have hcast : ((2^t : ℕ) : ℤ) = 2^t := by rfl
  omega

/-! ## Ceiling and closest -/

theorem ceil_least {n : ℤ} (h : 2 ≤ n) :
    IsLeast {p | PowerOfTwo p ∧ n ≤ p} (ceilToPowerOfTwo n : ℤ) := by
  obtain ⟨m,rfl⟩ := Int.eq_ofNat_of_zero_le (by omega : 0 ≤ n)
  constructor
  · refine ⟨?_,by exact_mod_cast le_ceilToPowerOfTwo m⟩
    rw [ceilToPowerOfTwo]
    split
    · exact ⟨1,rfl⟩
    · exact ⟨_,Nat.cast_pow ..⟩
  rintro _ ⟨⟨k,rfl⟩,hk⟩
  have hk' : m ≤ 2^k := by exact_mod_cast hk
  rw [ceilToPowerOfTwo]
  split
  · exact h.trans hk
  · have hsize : (m-1).size ≤ k := Nat.size_le.mpr (by omega)
    exact_mod_cast Nat.pow_le_pow_right two_pos hsize

theorem ceil_between {n : ℤ} (h : 1 ≤ n) :
    ∃ i : ℕ, (ceilToPowerOfTwo n : ℤ) = 2^(i+1) ∧ 2^i ≤ n ∧ n ≤ 2^(i+1) := by
  by_cases hone : n = 1
  · exact ⟨0,by rw [hone]; decide,by omega,by omega⟩
  obtain ⟨⟨⟨k,hk⟩,hle⟩,hleast⟩ := ceil_least (by omega : 2 ≤ n)
  rw [hk] at hle hleast ⊢
  obtain ⟨i,rfl⟩ : ∃ i, k = i+1 := Nat.exists_eq_succ_of_ne_zero (by rintro rfl; omega)
  refine ⟨i,rfl,not_lt.mp fun hlt => ?_,hle⟩
  have := hleast ⟨⟨i,rfl⟩,hlt.le⟩
  omega

theorem closest_exact {n : ℤ} (h : 1 ≤ n) : PowerOfTwo (closestPowerOfTwo n) ∧
    ∀ p, PowerOfTwo p → |n-closestPowerOfTwo n| ≤ |n-p| := by
  obtain ⟨i,hnext,hlo,hhi⟩ := ceil_between h
  have hprev : ((2 : ℤ)^(i+1)).tdiv 2 = 2^i := by
    rw [pow_succ, Int.mul_tdiv_cancel _ two_ne_zero]
  have hdist : ∀ p, PowerOfTwo p → n-2^i ≤ |n-p| ∨ 2^(i+1)-n ≤ |n-p| := by
    rintro _ ⟨k,rfl⟩
    by_cases hk : k ≤ i
    · have : (2 : ℤ)^k ≤ 2^i := pow_le_pow_right₀ one_le_two hk
      exact Or.inl ((by omega : n-2^i ≤ n-2^k).trans (le_abs_self _))
    · have : (2 : ℤ)^(i+1) ≤ 2^k := pow_le_pow_right₀ one_le_two (by omega)
      exact Or.inr ((by omega : 2^(i+1)-n ≤ -(n-2^k)).trans (neg_le_abs _))
  rw [closestPowerOfTwo, hnext, hprev]
  split
  · refine ⟨⟨i,rfl⟩,fun p hp => ?_⟩
    rw [abs_of_nonneg (by omega)]
    rcases hdist p hp with hd | hd <;> omega
  · refine ⟨⟨i+1,rfl⟩,fun p hp => ?_⟩
    rw [abs_of_nonpos (by omega)]
    rcases hdist p hp with hd | hd <;> omega

structure Rounds (n : ℤ) : Prop where
  ceil : IsLeast {p | PowerOfTwo p ∧ n ≤ p} (ceilToPowerOfTwo n : ℤ)
  floor : IsGreatest {p | PowerOfTwo p ∧ p ≤ n} (floorToPowerOfTwo n)
  power : PowerOfTwo (closestPowerOfTwo n)
  closest : ∀ p, PowerOfTwo p → |n-closestPowerOfTwo n| ≤ |n-p|

/-- All three are exact if and only if the number is not one, whose ceiling is two, and its
gaps are short. -/
theorem rounds_iff (n : ℤ) (hpos : 1 ≤ n) (_ : n ≤ maxIntHeadBit) :
    Rounds n ↔ n ≠ 1 ∧ ShortGaps n.toNat := by
  constructor
  · intro h
    refine ⟨?_,(floor_exact_iff hpos).mp h.floor⟩
    rintro rfl
    have := h.ceil.2 ⟨⟨0,rfl⟩,le_rfl⟩
    revert this
    decide
  · rintro ⟨hne,hgaps⟩
    obtain ⟨hpower,hclosest⟩ := closest_exact hpos
    exact ⟨ceil_least (by omega),(floor_exact_iff hpos).mpr hgaps,hpower,hclosest⟩

/-- Twelve lies between two powers. -/
theorem twelve_rounds : Rounds 12 :=
  (rounds_iff 12 (by decide) (by decide)).mpr ⟨by decide,shortGaps_of_lt (by decide)⟩

/-- The shifts stop before the thirty-second bit, and one is rounded to two. -/
theorem one_and_word_not_rounded : ceilToPowerOfTwo 1 = 2 ∧ ¬Rounds 1 ∧
    floorToPowerOfTwo (2^32) = 2^32-1 ∧ ¬Rounds (2^32) := by
  have hfloor : floorToPowerOfTwo (2^32) = 2^32-1 := by decide +kernel
  refine ⟨rfl,fun h => ?_,hfloor,fun h => ?_⟩
  · have := h.ceil.2 ⟨⟨0,rfl⟩,le_rfl⟩
    revert this
    decide
  · have := h.floor.2 ⟨⟨32,rfl⟩,le_rfl⟩
    rw [hfloor] at this
    omega

end GoCommon.PowersOfTwo
