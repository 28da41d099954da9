import GoCommon.ByteWords

/-!
# Variable-length integers

Seven payload bits a byte, least significant group first, with the high bit
set on every byte but the last. Signed integers are zigzag coded. The decoder
reports the number of bytes it read, zero when the buffer ends early and a
negative count when the value does not fit in 64 bits.
-/

set_option autoImplicit false

namespace GoCommon.ByteVarint
open List ByteWords

def maxVarintLen64 : ℕ := 10

def putUvarintLoop : ℕ → ℕ → Bytes
  | 0, _ => []
  | n+1, x => if x < 0x80 then [UInt8.ofNat x]
      else UInt8.ofNat (x%0x80+0x80)::putUvarintLoop n (x/0x80)

def putUvarint (x : ℕ) : Bytes := putUvarintLoop maxVarintLen64 x

/-- The payload groups occupy disjoint bits, so the bitwise union of the
accumulated value and the next group is their sum. -/
def uvarintLoop : Bytes → ℕ → ℕ → ℕ × ℤ
  | [], _, _ => (0,0)
  | b::bs, i, x =>
    if i = maxVarintLen64 then (0,-(i+1))
    else if b.toNat < 0x80 then
      if i = maxVarintLen64-1 ∧ 1 < b.toNat then (0,-(i+1))
      else (x+b.toNat*2^(7*i),i+1)
    else uvarintLoop bs (i+1) (x+(b.toNat-0x80)*2^(7*i))

def uvarint (bs : Bytes) : ℕ × ℤ := uvarintLoop bs 0 0

def zigzag (x : ℤ) : ℕ := if x < 0 then (-2*x-1).toNat else (2*x).toNat

def unzigzag (u : ℕ) : ℤ := if u%2 = 1 then -(u/2:ℕ)-1 else (u/2:ℕ)

def putVarint (x : ℤ) : Bytes := putUvarint (zigzag x)

def varint (bs : Bytes) : ℤ × ℤ := (unzigzag (uvarint bs).1,(uvarint bs).2)

def uvarintSizeLoop : ℕ → ℕ → ℕ → ℕ
  | 0, _, size => size
  | n+1, x, size => if x < 0x80 then size else uvarintSizeLoop n (x/0x80) (size+1)

theorem putUvarintLoop_pos (n : ℕ) {x : ℕ} : 0 < (putUvarintLoop (n+1) x).length := by
  unfold putUvarintLoop
  split <;> simp

theorem putUvarintLoop_length (n x : ℕ) : (putUvarintLoop n x).length ≤ n := by
  induction n generalizing x with
  | zero => simp [putUvarintLoop]
  | succ n ih =>
    unfold putUvarintLoop
    split
    · simp
    · simpa using ih (x/0x80)

theorem uvarintSizeLoop_eq (n x size : ℕ) (h : x < 2^(7*(n+1))) :
    uvarintSizeLoop n x size+1 = size+(putUvarintLoop (n+1) x).length := by
  induction n generalizing x size with
  | zero => simp [uvarintSizeLoop, putUvarintLoop, show x < 128 by simpa using h]
  | succ n ih =>
    unfold uvarintSizeLoop putUvarintLoop
    by_cases hx : x < 0x80
    · simp [hx]
    have hd : x/0x80 < 2^(7*(n+1)) := by
      rw [Nat.div_lt_iff_lt_mul (by norm_num), show 0x80 = 2^7 from rfl, ← pow_add]
      exact h
    simp only [hx, if_false, length_cons, ih _ _ hd]
    omega

theorem uvarintLoop_put (n i x acc : ℕ) (rest : Bytes) (hn : n+i = maxVarintLen64)
    (hi : 0 < n) (hx : x < 2^(64-7*i)) :
    uvarintLoop (putUvarintLoop n x++rest) i acc =
      (acc+x*2^(7*i),((i+(putUvarintLoop n x).length:ℕ):ℤ)) := by
  have hm : maxVarintLen64 = 10 := rfl
  induction n generalizing i x acc with
  | zero => omega
  | succ n ih =>
    unfold putUvarintLoop
    have hne : i ≠ maxVarintLen64 := by omega
    by_cases hs : x < 0x80
    · have hb : (UInt8.ofNat x).toNat = x := by
        rw [UInt8.toNat_ofNat']
        omega
      have hl : ¬(i = maxVarintLen64-1 ∧ 1 < x) := by
        rintro ⟨h9,h1⟩
        rw [h9, hm] at hx
        omega
      simp [hs, uvarintLoop, hne, hb, hl]
    have hb : (UInt8.ofNat (x%0x80+0x80)).toNat = x%0x80+0x80 := by
      rw [UInt8.toNat_ofNat']
      omega
    have h9 : i < 9 := by
      by_contra hc
      have he : i = 9 := by omega
      rw [he] at hx
      omega
    have hd : x/0x80 < 2^(64-7*(i+1)) := by
      rw [Nat.div_lt_iff_lt_mul (by norm_num), show 0x80 = 2^7 from rfl, ← pow_add,
        show 64-7*(i+1)+7 = 64-7*i by omega]
      exact hx
    have hsum : acc+(x%0x80+0x80-0x80)*2^(7*i)+x/0x80*2^(7*(i+1)) = acc+x*2^(7*i) := by
      rw [Nat.add_sub_cancel]
      have hx' := Nat.mod_add_div x 0x80
      calc
        _ = acc+(x%0x80+0x80*(x/0x80))*2^(7*i) := by ring
        _ = _ := by rw [hx']
    simp only [hs, if_false, cons_append, uvarintLoop, hne, hb,
      show ¬(x%0x80+0x80 < 0x80) by omega, length_cons]
    rw [ih (i+1) (x/0x80) _ (by omega) (by omega) hd]
    congr 2
    omega

theorem uvarint_put {x : ℕ} (rest : Bytes) (hx : x < 2^64) :
    uvarint (putUvarint x++rest) = (x,((putUvarint x).length:ℤ)) := by
  have h := uvarintLoop_put maxVarintLen64 0 x 0 rest rfl (by decide) hx
  simpa [uvarint, putUvarint] using h

theorem unzigzag_zigzag {x : ℤ} : unzigzag (zigzag x) = x := by
  unfold zigzag unzigzag
  split <;> split <;> omega

theorem zigzag_lt {x : ℤ} (hl : -2^63 ≤ x) (hu : x < 2^63) : zigzag x < 2^64 := by
  unfold zigzag
  split <;> omega

theorem varint_put (x : ℤ) (rest : Bytes) (hl : -2^63 ≤ x) (hu : x < 2^63) :
    varint (putVarint x++rest) = (x,((putVarint x).length:ℤ)) := by
  simp [varint, putVarint, uvarint_put rest (zigzag_lt hl hu), unzigzag_zigzag]

theorem putVarint_pos (x : ℤ) : 0 < (putVarint x).length := putUvarintLoop_pos 9

theorem putVarint_length (x : ℤ) : (putVarint x).length ≤ 10 := putUvarintLoop_length 10 _

theorem uvarintLoop_bounds (bs : Bytes) (i x : ℕ) : (uvarintLoop bs i x).2 ≤ i+bs.length := by
  induction bs generalizing i x with
  | nil => simp [uvarintLoop]
  | cons b bs ih =>
    unfold uvarintLoop
    have h := ih (i+1) (x+(b.toNat-0x80)*2^(7*i))
    push_cast [length_cons] at h ⊢
    split_ifs <;> omega

theorem varint_le_length (bs : Bytes) : (varint bs).2 ≤ bs.length := by
  simpa [varint, uvarint] using uvarintLoop_bounds bs 0 0

theorem uvarintLoop_lt (bs : Bytes) (i x : ℕ) (hi : i ≤ maxVarintLen64) (hx : x < 2^(7*i)) :
    (uvarintLoop bs i x).1 < 2^64 := by
  have hm : maxVarintLen64 = 10 := rfl
  induction bs generalizing i x with
  | nil => simp [uvarintLoop]
  | cons b bs ih =>
    have hpow : 2^(7*(i+1)) = 128*2^(7*i) := by ring
    rw [uvarintLoop]
    split_ifs with h10 hlow hover
    · simp
    · simp
    · rcases Nat.lt_or_ge i 9 with h9 | h9
      · have hle : 2^(7*(i+1)) ≤ 2^63 := Nat.pow_le_pow_right (by decide) (by omega)
        have := Nat.mul_le_mul_right (2^(7*i)) (show b.toNat ≤ 127 by omega)
        omega
      -- the last byte holds one bit
      obtain rfl : i = 9 := by omega
      omega
    refine ih (i+1) _ (by omega) ?_
    have := Nat.mul_le_mul_right (2^(7*i)) (show b.toNat-0x80 ≤ 127 by have := b.toNat_lt; omega)
    omega

theorem varint_range (bs : Bytes) : -2^63 ≤ (varint bs).1 ∧ (varint bs).1 < 2^63 := by
  have hlt := uvarintLoop_lt bs 0 0 (Nat.zero_le _) (by decide)
  rw [varint, unzigzag, uvarint]
  split <;> dsimp only <;> omega

end GoCommon.ByteVarint
