import Mathlib.Data.UInt
import Mathlib.Data.Nat.Bitwise
import Mathlib.Data.List.GetD

/-!
# Bits in words

A list of words of 64 bits as a set of positions. A position is read and set by a mask
in the word it lies in; a position outside of the words has neither.
-/

set_option autoImplicit false

namespace GoCommon.BitWords
open List

def mask (n : UInt64) : UInt64 := 1 <<< (n%64)

def bit (ws : List UInt64) (n : ℕ) : Bool := (ws.getD (n/64) 0).toNat.testBit (n%64)

def test (n : UInt64) (ws : List UInt64) : Option Bool :=
  ws[(n/64).toNat]?.map (fun w => w &&& mask n != 0)

def put (n : UInt64) (ws : List UInt64) : Option (List UInt64) :=
  ws[(n/64).toNat]?.map (fun w => ws.set (n/64).toNat (w ||| mask n))

theorem mask_toNat {n : UInt64} : (mask n).toNat = 2^(n.toNat%64) := by
  have hlt : n.toNat%64 < 64 := Nat.mod_lt _ (by omega)
  have hpow : 2^(n.toNat%64) < 2^64 := Nat.pow_lt_pow_right (by omega) hlt
  change 1 <<< (n.toNat%64%64)%2^64 = _
  rw [Nat.mod_mod, Nat.one_shiftLeft, Nat.mod_eq_of_lt hpow]

theorem and_mask_eq_zero {w n : UInt64} : w &&& mask n = 0 ↔ w.toNat.testBit (n.toNat%64) = false := by
  rw [← UInt64.toNat_inj, UInt64.toNat_and, mask_toNat, Nat.and_two_pow]
  cases w.toNat.testBit (n.toNat%64) <;> simp

theorem or_mask_testBit {w n : UInt64} {j : ℕ} : (w ||| mask n).toNat.testBit j =
    (w.toNat.testBit j || decide (n.toNat%64 = j)) := by
  rw [UInt64.toNat_or, mask_toNat, Nat.testBit_or, Nat.testBit_two_pow]

theorem or_mask_of_set {w n : UInt64} (h : w.toNat.testBit (n.toNat%64) = true) : w ||| mask n = w := by
  refine UInt64.toNat_inj.mp (Nat.eq_of_testBit_eq fun j => ?_)
  rw [or_mask_testBit]
  by_cases hj : n.toNat%64 = j
  · rw [← hj, h, Bool.true_or]
  · rw [decide_eq_false hj, Bool.or_false]

section Positions
variable {n : UInt64} {ws : List UInt64} (h : n.toNat < 64*ws.length)
include h

theorem word_lt : (n/64).toNat < ws.length := by
  exact Nat.div_lt_of_lt_mul h

theorem word_eq : ws[(n/64).toNat]? = some (ws.getD (n.toNat/64) 0) := by
  have hlt := word_lt h
  rw [List.getElem?_eq_getElem hlt, ← getD_eq_getElem ws 0 hlt]
  rfl

theorem test_eq : test n ws = some (bit ws n.toNat) := by
  rw [test, word_eq h, bit]
  refine congrArg some (Bool.eq_iff_iff.mpr ?_)
  rw [bne_iff_ne, ne_eq, and_mask_eq_zero, Bool.not_eq_false]

theorem put_spec : ∃ ws', put n ws = some ws' ∧ ws'.length = ws.length ∧
    ∀ k, bit ws' k = true ↔ bit ws k = true ∨ k = n.toNat := by
  have hlt : n.toNat/64 < ws.length := Nat.div_lt_of_lt_mul h
  refine ⟨ws.set (n.toNat/64) (ws.getD (n.toNat/64) 0 ||| mask n),?_,length_set,fun k => ?_⟩
  · rw [put, word_eq h]
    rfl
  rw [bit, getD_eq_getElem?_getD, List.getElem?_set]
  by_cases hword : n.toNat/64 = k/64
  · rw [if_pos hword, if_pos hlt, Option.getD_some, or_mask_testBit, hword, Bool.or_eq_true,
      decide_eq_true_eq]
    refine or_congr_right ⟨fun hbit => ?_,fun heq => by rw [heq]⟩
    omega
  · rw [if_neg hword]
    exact (or_iff_left fun heq => hword (by rw [heq])).symm

theorem put_of_set (hset : bit ws n.toNat = true) : put n ws = some ws := by
  rw [put, word_eq h, Option.map_some, or_mask_of_set hset]
  have hlt := word_lt h
  rw [show n.toNat/64 = (n/64).toNat from (UInt64.toNat_div n 64).symm, getD_eq_getElem ws 0 hlt,
    set_getElem_self]

end Positions

end GoCommon.BitWords
