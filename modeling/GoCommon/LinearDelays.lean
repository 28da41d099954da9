import GoCommon.ByteWords
import GoCommon.HttpRetry

/-!
# Linear backoff

The delay grows by its initial value with every attempt up to a maximum. The product of the
initial delay and the number of the attempt is one of signed 64-bit words, so that a late
attempt can get a delay that is negative or too short.
-/

set_option autoImplicit false

namespace GoCommon.LinearDelays
open ByteWords HttpRetry

structure LinearBackoff where
  initial : ℤ
  max : ℤ

def newLinearBackoff (initial max : ℤ) : LinearBackoff where
  initial := if initial ≤ 0 then defaultInitialDelay else initial
  max := if max ≤ 0 then defaultMaxDelay else max

def LinearBackoff.delay (b : LinearBackoff) (attempt : ℤ) : ℤ :=
  let d := int64 (b.initial*int64 (attempt+1))
  if b.max < d then b.max else d

def LinearBackoff.jitterDelay (b : LinearBackoff) (attempt : ℤ) (draw : ℕ) : Option ℤ :=
  let half := (b.delay attempt).tdiv 2
  (int63n (half+1) draw).map (half+·)

variable {initial max : ℤ}

theorem newLinearBackoff_eq (hinitial : 0 < initial) (hmax : 0 < max) :
    newLinearBackoff initial max = ⟨initial,max⟩ := by
  rw [newLinearBackoff, if_neg (by omega), if_neg (by omega)]

def Capped (initial max attempt : ℤ) : Prop :=
  initial*(attempt+1) < 2^63 ∨ max ≤ int64 (initial*(attempt+1))

theorem delay_exact_iff (hinitial : 0 < initial) (hmax : max < 2^63) {attempt : ℤ}
    (hattempt : 0 ≤ attempt) :
    (⟨initial,max⟩ : LinearBackoff).delay attempt = min (initial*(attempt+1)) max ↔
      Capped initial max attempt := by
  have hpos : 0 < initial*(attempt+1) := mul_pos hinitial (by omega)
  have hprod : int64 (initial*int64 (attempt+1)) = int64 (initial*(attempt+1)) :=
    Int.mul_bmod_bmod ..
  simp only [LinearBackoff.delay, hprod, Capped]
  generalize initial*(attempt+1) = product at hpos ⊢
  by_cases hfits : product < 2^63
  · rw [int64_of_range (by omega) hfits]
    split <;> omega
  · split <;> omega

structure Graded (b : LinearBackoff) (attempt later : ℤ) : Prop where
  exact : b.delay attempt = min (b.initial*(attempt+1)) b.max
  ordered : 0 < b.delay attempt ∧ b.delay attempt ≤ b.delay later ∧ b.delay later ≤ b.max
  jitter : ∀ draw, ∃ wait, b.jitterDelay attempt draw = some wait ∧
    b.delay attempt/2 ≤ wait ∧ wait ≤ b.delay attempt

/-- The delays up to an attempt are right if and only if every product up to it is capped. -/
theorem graded_iff (initial max last : ℤ) (hinitial : 0 < initial) (hmax : 0 < max ∧ max < 2^63) :
    (∀ a b, 0 ≤ a → a ≤ b → b ≤ last → Graded (newLinearBackoff initial max) a b) ↔
      ∀ a, 0 ≤ a → a ≤ last → Capped initial max a := by
  rw [newLinearBackoff_eq hinitial hmax.1]
  constructor
  · intro h a ha hle
    exact (delay_exact_iff hinitial hmax.2 ha).mp (h a a ha le_rfl hle).exact
  intro h a b ha hab hle
  have hexact := (delay_exact_iff hinitial hmax.2 ha).mpr (h a ha (hab.trans hle))
  have hlater := (delay_exact_iff hinitial hmax.2 (ha.trans hab)).mpr (h b (ha.trans hab) hle)
  have hpos : 0 < min (initial*(a+1)) max := lt_min (mul_pos hinitial (by omega)) hmax.1
  refine ⟨hexact,?_,jitter_range (by rw [hexact]; exact hpos.le)⟩
  rw [hexact, hlater]
  refine ⟨hpos,min_le_min_right _ ?_,min_le_right ..⟩
  exact Int.mul_le_mul_of_nonneg_left (by omega) hinitial.le

/-- The third and the seventh attempt. -/
theorem second_attempts_graded : Graded (newLinearBackoff second (30*second)) 3 7 :=
  (graded_iff second (30*second) 7 (by decide) (by decide)).mpr (fun a _ ha => Or.inl (by
    rw [show second = 1000000000 from rfl]
    omega)) 3 7 (by decide) (by decide) le_rfl

/-- The product of a second and the attempt is above the largest word. -/
theorem late_attempt_negative :
    (newLinearBackoff second (30*second)).delay 9223372036 = -9223372036709551616 ∧
    (newLinearBackoff second (30*second)).jitterDelay 9223372036 0 = none ∧
    ¬Graded (newLinearBackoff second (30*second)) 9223372036 9223372036 := by
  have hdelay : (newLinearBackoff second (30*second)).delay 9223372036 = -9223372036709551616 := by
    decide +kernel
  refine ⟨hdelay,by decide +kernel,fun h => ?_⟩
  have := h.ordered.1
  omega

end GoCommon.LinearDelays
