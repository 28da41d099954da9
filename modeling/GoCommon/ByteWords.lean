import Mathlib.Tactic
import Mathlib.Data.Nat.Bitwise

/-!
# Byte strings, fixed-width words and the Castagnoli checksum

Words are written most significant byte first. A word wider than its field
keeps only its low bytes, which is what a fixed-width store does. The signed
machine integer is an integer reduced to the interval of 64-bit values; times and
durations are such integers and count nanoseconds.
-/

set_option autoImplicit false

namespace GoCommon.ByteWords

abbrev Bytes := List UInt8

def int64 (x : ℤ) : ℤ := Int.bmod x (2^64)

def IsInt64 (x : ℤ) : Prop := -2^63 ≤ x ∧ x < 2^63

instance (x : ℤ) : Decidable (IsInt64 x) := inferInstanceAs (Decidable (_ ∧ _))

def second : ℤ := 1000000000

def Advancing (ts : List ℤ) : Prop := ts.Pairwise (· ≤ ·) ∧ ∀ t ∈ ts, IsInt64 t

instance (ts : List ℤ) : Decidable (Advancing ts) := inferInstanceAs (Decidable (_ ∧ _))

theorem Advancing.tail {s t : ℤ} {ts : List ℤ} (h : Advancing (s::t::ts)) :
    s ≤ t ∧ Advancing (t::ts) :=
  ⟨(List.pairwise_cons.mp h.1).1 t List.mem_cons_self,(List.pairwise_cons.mp h.1).2,
    fun u hu => h.2 u (List.mem_cons_of_mem _ hu)⟩

theorem Advancing.head {s : ℤ} {ts : List ℤ} (h : Advancing (s::ts)) : IsInt64 s :=
  h.2 s List.mem_cons_self

theorem int64_of_range {x : ℤ} (hl : -2^63 ≤ x) (hu : x < 2^63) : int64 x = x := by
  simp only [int64, Int.bmod_def]
  omega

theorem int64_lt {x : ℤ} : int64 x < 2^63 := by
  simp only [int64, Int.bmod_def]
  omega

theorem int64_wrapped {x : ℤ} (hl : 2^63 ≤ x) (hu : x < 2^64) : int64 x < 0 := by
  simp only [int64, Int.bmod_def]
  omega

def putUint : ℕ → ℕ → Bytes
  | 0, _ => []
  | n+1, v => UInt8.ofNat (v/256^n)::putUint n v

def uintFrom (acc : ℕ) (bs : Bytes) : ℕ := bs.foldl (fun a b => a*256+b.toNat) acc

def uint (bs : Bytes) : ℕ := uintFrom 0 bs

@[simp] theorem putUint_length (n : ℕ) {v : ℕ} : (putUint n v).length = n := by
  induction n with
  | zero => rfl
  | succ n ih => simp [putUint, ih]

theorem uintFrom_putUint {n v acc : ℕ} : uintFrom acc (putUint n v) = acc*256^n+v%256^n := by
  induction n generalizing acc with
  | zero => simp [uintFrom, putUint, Nat.mod_one]
  | succ n ih =>
    have hs : uintFrom acc (putUint (n+1) v) =
        uintFrom (acc*256+(UInt8.ofNat (v/256^n)).toNat) (putUint n v) := rfl
    rw [hs, ih, Nat.mod_pow_succ, UInt8.toNat_ofNat']
    ring

theorem uint_putUint {n v : ℕ} : uint (putUint n v) = v%256^n := by
  simp [uint, uintFrom_putUint]

theorem uint_putUint_of_lt (n : ℕ) {v : ℕ} (h : v < 256^n) : uint (putUint n v) = v := by
  rw [uint_putUint, Nat.mod_eq_of_lt h]

theorem uintFrom_lt (bs : Bytes) (acc k : ℕ) (h : acc < 256^k) :
    uintFrom acc bs < 256^(k+bs.length) := by
  induction bs generalizing acc k with
  | nil => simpa [uintFrom] using h
  | cons b bs ih =>
    have hb : b.toNat < 256 := b.toNat_lt
    have hs : acc*256+b.toNat < 256^(k+1) := by
      omega
    have ht := ih _ _ hs
    rw [List.length_cons, show k+(bs.length+1) = k+1+bs.length by omega]
    exact ht

theorem uint_lt {bs : Bytes} : uint bs < 256^bs.length := by
  simpa [uint] using uintFrom_lt bs 0 0 (by simp)

def crcBit (c : ℕ) : ℕ := if c%2 = 1 then (c/2) ^^^ 0x82F63B78 else c/2

def crcBits : ℕ → ℕ → ℕ
  | 0, c => c
  | n+1, c => crcBits n (crcBit c)

def crcByte (c : ℕ) (b : UInt8) : ℕ := crcBits 8 (c ^^^ b.toNat)

def crc32c (bs : Bytes) : ℕ := bs.foldl crcByte 0xFFFFFFFF ^^^ 0xFFFFFFFF

example : crc32c [49,50,51,52,53,54,55,56,57] = 0xE3069283 := by decide +kernel

theorem crcBit_lt (c : ℕ) (h : c < 2^32) : crcBit c < 2^32 := by
  unfold crcBit
  split
  · exact Nat.xor_lt_two_pow (by omega) (by norm_num)
  · omega

theorem crcBits_lt (n c : ℕ) (h : c < 2^32) : crcBits n c < 2^32 := by
  induction n generalizing c with
  | zero => exact h
  | succ n ih => exact ih _ (crcBit_lt c h)

theorem crcFold_lt (bs : Bytes) (c : ℕ) (h : c < 2^32) : bs.foldl crcByte c < 2^32 := by
  induction bs generalizing c with
  | nil => exact h
  | cons b bs ih =>
    have hb : b.toNat < 2^32 := lt_of_lt_of_le b.toNat_lt (by norm_num)
    exact ih _ (crcBits_lt 8 _ (Nat.xor_lt_two_pow h hb))

theorem crc32c_lt (bs : Bytes) : crc32c bs < 2^32 :=
  Nat.xor_lt_two_pow (crcFold_lt bs _ (by norm_num)) (by norm_num)

end GoCommon.ByteWords
