import Mathlib.Data.Nat.Digits.Lemmas
import Mathlib.Data.List.TakeWhile
import Mathlib.Tactic

/-!
# Numerals in two bases

A numeral is a list of digits, the highest first. Leading zeros are counted apart and
the rest is the shortest numeral of its value, so that a numeral of one base is carried
to another base and back without a loss.
-/

set_option autoImplicit false

namespace GoCommon.PositionalNumerals
open List

def value (b : ℕ) (ds : List ℕ) : ℕ := ds.foldl (fun n d => n*b+d) 0

def numerals (b n : ℕ) : List ℕ := (Nat.digits b n).reverse

def zeros (ds : List ℕ) : ℕ := (ds.takeWhile (· = 0)).length

def recode (b c : ℕ) (ds : List ℕ) : List ℕ :=
  List.replicate (zeros ds) 0++numerals c (value b (ds.dropWhile (· = 0)))

variable {b : ℕ} {ds : List ℕ}

theorem value_eq_ofDigits : value b ds = Nat.ofDigits b ds.reverse := by
  rw [value, Nat.ofDigits_eq_foldr, foldr_reverse]
  congr 1
  funext n d
  rw [Nat.cast_id]
  ring

theorem value_numerals {n : ℕ} : value b (numerals b n) = n := by
  rw [value_eq_ofDigits, numerals, reverse_reverse, Nat.ofDigits_digits]

theorem numerals_value (hb : 1 < b) (hlt : ∀ d ∈ ds, d < b)
    (hhead : ∀ d ∈ ds.head?, d ≠ 0) : numerals b (value b ds) = ds := by
  have hlast : ∀ h : ds.reverse ≠ [], ds.reverse.getLast h ≠ 0 := by
    intro h
    rw [getLast_reverse]
    exact hhead _ (List.head?_eq_some_head _)
  rw [value_eq_ofDigits, numerals,
    Nat.digits_ofDigits b hb ds.reverse (fun d hd => hlt d (mem_reverse.mp hd)) hlast,
    reverse_reverse]

theorem numerals_lt (hb : 1 < b) {n : ℕ} : ∀ d ∈ numerals b n, d < b :=
  fun _ hd => Nat.digits_lt_base hb (mem_reverse.mp hd)

theorem numerals_head (b : ℕ) {n : ℕ} : ∀ d ∈ (numerals b n).head?, d ≠ 0 := by
  intro d hd
  rw [numerals, List.head?_reverse] at hd
  by_cases hn : n = 0
  · rw [hn, Nat.digits_zero] at hd
    cases hd
  · rw [List.getLast?_eq_some_getLast (Nat.digits_ne_nil_iff_ne_zero.mpr hn)] at hd
    obtain rfl := Option.some.inj hd
    exact Nat.getLast_digit_ne_zero b hn

theorem takeWhile_replicate : ds.takeWhile (· = 0) = List.replicate (zeros ds) 0 :=
  eq_replicate_iff.mpr ⟨rfl,fun _ hd => by simpa using mem_takeWhile_imp hd⟩

theorem split_zeros (z : ℕ) (ds : List ℕ) (hhead : ∀ d ∈ ds.head?, d ≠ 0) :
    zeros (List.replicate z 0++ds) = z ∧ (List.replicate z 0++ds).dropWhile (· = 0) = ds := by
  induction z with
  | zero => cases ds with
    | nil => exact ⟨rfl,rfl⟩
    | cons d ds =>
      have hd : d ≠ 0 := hhead d rfl
      simp [zeros, hd]
  | succ z ih =>
    rw [replicate_succ, cons_append]
    constructor
    · rw [zeros, takeWhile_cons_of_pos (by simp), length_cons, ← zeros, ih.1]
    · rw [dropWhile_cons_of_pos (by simp), ih.2]

theorem dropWhile_head (ds : List ℕ) : ∀ d ∈ (ds.dropWhile (· = 0)).head?, d ≠ 0 := by
  intro d hd
  have := List.head?_dropWhile_not (fun d => decide (d = 0)) ds
  rw [hd] at this
  simpa using this

theorem recode_recode {c : ℕ} (hb : 1 < b) (hlt : ∀ d ∈ ds, d < b) :
    recode c b (recode b c ds) = ds := by
  have hsplit := split_zeros (zeros ds) (numerals c (value b (ds.dropWhile (· = 0))))
    (numerals_head c)
  have hrest : numerals b (value b (ds.dropWhile (· = 0))) = ds.dropWhile (· = 0) :=
    numerals_value hb (fun d hd => hlt d ((dropWhile_sublist _).mem hd)) (dropWhile_head ds)
  rw [recode, recode, hsplit.1, hsplit.2, value_numerals, hrest, ← takeWhile_replicate,
    takeWhile_append_dropWhile]

theorem recode_lt {c : ℕ} (hc : 1 < c) : ∀ d ∈ recode b c ds, d < c := by
  intro d hd
  rcases mem_append.mp hd with hd | hd
  · rw [(mem_replicate.mp hd).2]
    omega
  · exact numerals_lt hc d hd

/-! ## Order -/

theorem value_cons {d : ℕ} : value b (d::ds) = d*b^ds.length+value b ds := by
  rw [value_eq_ofDigits, value_eq_ofDigits, reverse_cons, Nat.ofDigits_append,
    Nat.ofDigits_singleton, length_reverse]
  ring

theorem value_lt (hb : 1 < b) (hlt : ∀ d ∈ ds, d < b) : value b ds < b^ds.length := by
  rw [value_eq_ofDigits, ← length_reverse]
  exact Nat.ofDigits_lt_base_pow_length hb (fun d hd => hlt d (mem_reverse.mp hd))

theorem value_replicate_zero (b z : ℕ) (ds : List ℕ) :
    value b (List.replicate z 0++ds) = value b ds := by
  induction z with
  | zero => rfl
  | succ z ih =>
    rw [replicate_succ, cons_append, value_cons, Nat.zero_mul, Nat.zero_add, ih]

theorem value_recode (b c : ℕ) (ds : List ℕ) : value c (recode b c ds) = value b ds := by
  have hsplit : value b ds = value b (ds.takeWhile (· = 0)++ds.dropWhile (· = 0)) := by
    rw [takeWhile_append_dropWhile]
  rw [recode, value_replicate_zero, value_numerals, hsplit, takeWhile_replicate,
    value_replicate_zero]

theorem lt_iff_value_lt (hb : 1 < b) (ds es : List ℕ) (hlen : ds.length = es.length)
    (hds : ∀ d ∈ ds, d < b) (hes : ∀ e ∈ es, e < b) : ds < es ↔ value b ds < value b es := by
  induction ds generalizing es with
  | nil =>
    rw [length_eq_zero_iff.mp hlen.symm]
    exact iff_of_false (not_lt_nil []) (lt_irrefl _)
  | cons d ds ih =>
    cases es with
    | nil => cases hlen
    | cons e es =>
      have hlen' : ds.length = es.length := Nat.succ.inj hlen
      have hds' : ∀ d ∈ ds, d < b := fun x hx => hds x (mem_cons_of_mem _ hx)
      have hes' : ∀ e ∈ es, e < b := fun x hx => hes x (mem_cons_of_mem _ hx)
      have hd := value_lt hb hds'
      have he := value_lt hb hes'
      rw [cons_lt_cons_iff, value_cons, value_cons, hlen', ih es hlen' hds' hes']
      rw [hlen'] at hd
      rcases Nat.lt_trichotomy d e with hlt | rfl | hgt
      · have hstep := Nat.mul_le_mul_right (b^es.length) (Nat.succ_le_of_lt hlt)
        rw [Nat.succ_mul] at hstep
        exact iff_of_true (Or.inl hlt) (by omega)
      · constructor
        · rintro (hlt | ⟨_,hlt⟩)
          · exact absurd hlt (lt_irrefl d)
          · omega
        · intro hlt
          exact Or.inr ⟨rfl,by omega⟩
      · have hstep := Nat.mul_le_mul_right (b^es.length) (Nat.succ_le_of_lt hgt)
        rw [Nat.succ_mul] at hstep
        exact iff_of_false (by omega) (by omega)

theorem lists_lt_map_iff {α β : Type} [LT α] [LT β] {f : α → β} (as bs : List α)
    (hlt : ∀ x ∈ as, ∀ y ∈ bs, f x < f y ↔ x < y) (heq : ∀ x ∈ as, ∀ y ∈ bs, f x = f y ↔ x = y) :
    as.map f < bs.map f ↔ as < bs := by
  induction as generalizing bs with
  | nil =>
    cases bs with
    | nil => exact iff_of_false (not_lt_nil []) (not_lt_nil [])
    | cons b bs => exact iff_of_true (nil_lt_cons _ _) (nil_lt_cons _ _)
  | cons a as ih =>
    cases bs with
    | nil => exact iff_of_false (not_lt_nil _) (not_lt_nil _)
    | cons b bs =>
      have ha : a ∈ a::as := mem_cons_self
      have hb : b ∈ b::bs := mem_cons_self
      have htail := ih bs
        (fun x hx y hy => hlt x (mem_cons_of_mem _ hx) y (mem_cons_of_mem _ hy))
        (fun x hx y hy => heq x (mem_cons_of_mem _ hx) y (mem_cons_of_mem _ hy))
      rw [map_cons, map_cons, cons_lt_cons_iff, cons_lt_cons_iff,
        hlt a ha b hb, heq a ha b hb, htail]

end GoCommon.PositionalNumerals
