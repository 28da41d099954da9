import Mathlib.Data.List.Basic
import Mathlib.Tactic

/-!
# Longest common subsequence

The source fills a table with the lengths for all pairs of prefixes and walks back through
it, writing the result from its end. The reference takes a common element from the front of
two lists, or drops one of two different elements; the walk is the reference on the reversed
prefixes. A result of none stands for an index that is out of range.
-/

set_option autoImplicit false

namespace GoCommon.CommonSubsequence
open List Function

section Reference
variable {α : Type}

def best [DecidableEq α] : List α → List α → List α
  | a::xs, b::ys =>
    if a = b then a::best xs ys
    else if (best (a::xs) ys).length < (best xs (b::ys)).length then best xs (b::ys)
    else best (a::xs) ys
  | _, _ => []
termination_by xs ys => xs.length+ys.length

theorem sublist_of_ne {a b : α} {xs ys zs : List α} (hne : a ≠ b) (hx : zs <+ a::xs)
    (hy : zs <+ b::ys) : zs <+ xs ∨ zs <+ ys := by
  cases zs with
  | nil => exact Or.inl (nil_sublist _)
  | cons z zs =>
    rcases cons_sublist_cons'.mp hx with hx | ⟨rfl,_⟩
    · exact Or.inl hx
    · exact Or.inr ((cons_sublist_cons'.mp hy).resolve_right fun h => hne h.1)

variable [DecidableEq α]

theorem best_nil_left (ys : List α) : best [] ys = [] := by
  rw [best]
  intro _ _ _ _ h
  cases h

theorem best_nil_right (xs : List α) : best xs [] = [] := by
  rw [best]
  intro _ _ _ _ _ h
  cases h

theorem best_sublist (xs ys : List α) : best xs ys <+ xs ∧ best xs ys <+ ys := by
  induction xs, ys using best.induct with
  | case1 xs b ys ih =>
    rw [best, if_pos rfl]
    exact ⟨ih.1.cons_cons b,ih.2.cons_cons b⟩
  | case2 a xs b ys hne hlt _ ih =>
    rw [best, if_neg hne, if_pos hlt]
    exact ⟨ih.1.cons a,ih.2⟩
  | case3 a xs b ys hne hlt ih _ =>
    rw [best, if_neg hne, if_neg hlt]
    exact ⟨ih.1,ih.2.cons b⟩
  | case4 xs ys hno =>
    rw [best]
    · exact ⟨nil_sublist _,nil_sublist _⟩
    · exact hno

theorem best_longest (xs ys : List α) {zs : List α} (hx : zs <+ xs) (hy : zs <+ ys) :
    zs.length ≤ (best xs ys).length := by
  induction xs, ys using best.induct generalizing zs with
  | case1 xs b ys ih =>
    have := ih hx.tail hy.tail
    rw [best, if_pos rfl, length_cons]
    rw [length_tail] at this
    omega
  | case2 a xs b ys hne hlt ihleft ihup =>
    rw [best, if_neg hne, if_pos hlt]
    rcases sublist_of_ne hne hx hy with h | h
    · exact ihup h hy
    · exact (ihleft hx h).trans hlt.le
  | case3 a xs b ys hne hlt ihleft ihup =>
    rw [best, if_neg hne, if_neg hlt]
    rcases sublist_of_ne hne hx hy with h | h
    · exact (ihup h hy).trans (not_lt.mp hlt)
    · exact ihleft hx h
  | case4 xs ys hno =>
    cases xs with
    | nil => rw [sublist_nil.mp hx, best_nil_left]
    | cons a xs =>
      cases ys with
      | nil => rw [sublist_nil.mp hy, best_nil_right]
      | cons b ys => exact (hno a xs b ys rfl rfl).elim

end Reference

/-! ## The table -/

abbrev Table := ℕ → ℕ → ℕ

variable (s1 s2 : List UInt8)

def fillCell (i j : ℕ) (dp : Table) : Table :=
  let v := if s1[i-1]? = s2[j-1]? then dp (i-1) (j-1)+1
    else if dp (i-1) j < dp i (j-1) then dp i (j-1) else dp (i-1) j
  update dp i (update (dp i) j v)

def fillRow (i : ℕ) : ℕ → Table → Table
  | 0, dp => dp
  | n+1, dp => fillCell s1 s2 i (n+1) (fillRow i n dp)

def fill : ℕ → Table → Table
  | 0, dp => dp
  | m+1, dp => fillRow s1 s2 (m+1) s2.length (fill m dp)

def backtrack (dp : Table) : ℕ → ℕ → ℕ → ℤ → List UInt8 → Option (List UInt8)
  | _, 0, _, _, res => some res
  | _, _, 0, _, res => some res
  | 0, _, _, _, _ => none
  | fuel+1, i+1, j+1, k, res => do
    let a ← s1[i]?
    let b ← s2[j]?
    if a = b then
      if 0 ≤ k ∧ k < res.length then backtrack dp fuel i j (k-1) (res.set k.toNat a) else none
    else if dp (i+1) j < dp i (j+1) then backtrack dp fuel i (j+1) k res
    else backtrack dp fuel (i+1) j k res

def lcs : Option (List UInt8) :=
  if s1.length = 0 ∨ s2.length = 0 then some []
  else
    let dp := fill s1 s2 s1.length (fun _ _ => 0)
    let size := dp s1.length s2.length
    backtrack s1 s2 dp (s1.length+s2.length) s1.length s2.length (size-1) (List.replicate size 0)

def prefixBest (i j : ℕ) : List UInt8 := best (s1.take i).reverse (s2.take j).reverse

variable {s1 s2} {i j : ℕ}

theorem reverse_take_succ {s : List UInt8} {i : ℕ} (h : i < s.length) :
    (s.take (i+1)).reverse = s[i]::(s.take i).reverse := by
  rw [take_succ_eq_append_getElem h, reverse_append]
  rfl

theorem prefixBest_zero_left : prefixBest s1 s2 0 j = [] := best_nil_left _

theorem prefixBest_zero_right : prefixBest s1 s2 i 0 = [] := best_nil_right _

theorem prefixBest_succ (hi : i < s1.length) (hj : j < s2.length) : prefixBest s1 s2 (i+1) (j+1) =
    if s1[i] = s2[j] then s1[i]::prefixBest s1 s2 i j
    else if (prefixBest s1 s2 (i+1) j).length < (prefixBest s1 s2 i (j+1)).length then
      prefixBest s1 s2 i (j+1)
    else prefixBest s1 s2 (i+1) j := by
  simp only [prefixBest, reverse_take_succ hi, reverse_take_succ hj]
  rw [best]

def Filled (s1 s2 : List UInt8) (m n : ℕ) (dp : Table) : Prop := ∀ i j, j ≤ s2.length →
  dp i j = if i ≤ m ∨ i = m+1 ∧ j ≤ n then (prefixBest s1 s2 i j).length else 0

theorem fillCell_filled {m n : ℕ} {dp : Table} (hm : m < s1.length) (hn : n < s2.length)
    (h : Filled s1 s2 m n dp) : Filled s1 s2 m (n+1) (fillCell s1 s2 (m+1) (n+1) dp) := by
  intro i j hj
  rw [fillCell]
  by_cases hi : i = m+1
  · subst hi
    rw [update_self]
    by_cases hjn : j = n+1
    · subst hjn
      have hdiag := h m n (by omega)
      have hup := h m (n+1) hj
      have hleft := h (m+1) n (by omega)
      rw [if_pos (by omega)] at hdiag hup hleft
      rw [update_self, if_pos (Or.inr ⟨rfl,le_rfl⟩), prefixBest_succ hm hn]
      simp only [Nat.add_sub_cancel, getElem?_eq_getElem hm, getElem?_eq_getElem hn, Option.some.injEq,
        hdiag, hup, hleft]
      split_ifs
      · rfl
      all_goals omega
    · rw [update_of_ne hjn, h (m+1) j hj]
      exact if_congr (by omega) rfl rfl
  · rw [update_of_ne hi, h i j hj]
    exact if_congr (by omega) rfl rfl

theorem fillRow_filled {m : ℕ} {dp : Table} (hm : m < s1.length) (h : Filled s1 s2 m 0 dp) (n : ℕ)
    (hn : n ≤ s2.length) : Filled s1 s2 m n (fillRow s1 s2 (m+1) n dp) := by
  induction n with
  | zero => exact h
  | succ n ih => exact fillCell_filled hm hn (ih (by omega))

theorem fill_filled (m : ℕ) (hm : m ≤ s1.length) :
    Filled s1 s2 m 0 (fill s1 s2 m (fun _ _ => 0)) := by
  induction m with
  | zero =>
    intro i j _
    split_ifs with hc
    · rcases hc with hi | ⟨_,hj⟩
      · rw [Nat.le_zero.mp hi, prefixBest_zero_left]
        rfl
      · rw [Nat.le_zero.mp hj, prefixBest_zero_right]
        rfl
    · rfl
  | succ m ih =>
    intro i j hj
    rw [fill, fillRow_filled hm (ih (by omega)) _ le_rfl i j hj]
    split_ifs with h1 h2 h2
    · rfl
    · omega
    · rw [show j = 0 by omega, prefixBest_zero_right]
      rfl
    · rfl

theorem table_eq : ∀ i ≤ s1.length, ∀ j ≤ s2.length,
    fill s1 s2 s1.length (fun _ _ => 0) i j = (prefixBest s1 s2 i j).length := by
  intro i hi j hj
  rw [fill_filled _ le_rfl i j hj, if_pos (Or.inl hi)]

/-! ## The walk -/

theorem drop_set_self {res : List UInt8} {n : ℕ} (a : UInt8) (h : n < res.length) :
    (res.set n a).drop n = a::res.drop (n+1) := by
  rw [drop_eq_getElem_cons (by rwa [length_set]), getElem_set_self, drop_set_of_lt (Nat.lt_succ_self n)]

theorem backtrack_eq {dp : Table}
    (hdp : ∀ i ≤ s1.length, ∀ j ≤ s2.length, dp i j = (prefixBest s1 s2 i j).length)
    (fuel i j : ℕ) (res : List UInt8) (hfuel : i+j ≤ fuel) (hi : i ≤ s1.length) (hj : j ≤ s2.length)
    (hres : (prefixBest s1 s2 i j).length ≤ res.length) :
    backtrack s1 s2 dp fuel i j ((prefixBest s1 s2 i j).length-1) res =
      some ((prefixBest s1 s2 i j).reverse++res.drop (prefixBest s1 s2 i j).length) := by
  -- the entries for smaller prefixes are those of the steps that follow
  induction fuel generalizing i j res with
  | zero =>
    rw [show i = 0 by omega, prefixBest_zero_left]
    rfl
  | succ fuel ih =>
    cases i with
    | zero =>
      rw [prefixBest_zero_left]
      rfl
    | succ i =>
      cases j with
      | zero =>
        rw [prefixBest_zero_right]
        rfl
      | succ j =>
        have hbest := @prefixBest_succ s1 s2 i j hi hj
        rw [backtrack, getElem?_eq_getElem hi, getElem?_eq_getElem hj]
        simp only [Option.bind_eq_bind, Option.bind_some]
        by_cases heq : s1[i] = s2[j]
        · rw [if_pos heq] at hbest
          rw [hbest, length_cons] at hres ⊢
          rw [if_pos heq, Nat.cast_succ, add_sub_cancel_right, if_pos (by omega), Int.toNat_natCast,
            ih i j _ (by omega) (by omega) (by omega) (by rw [length_set]; omega), drop_set_self _ hres,
            reverse_cons, append_assoc]
          rfl
        rw [if_neg heq] at hbest
        rw [if_neg heq, hdp (i+1) hi j (by omega), hdp i (by omega) (j+1) hj]
        by_cases hlt : (prefixBest s1 s2 (i+1) j).length < (prefixBest s1 s2 i (j+1)).length
        · rw [if_pos hlt] at hbest ⊢
          rw [hbest] at hres ⊢
          exact ih i (j+1) res (by omega) (by omega) hj hres
        · rw [if_neg hlt] at hbest ⊢
          rw [hbest] at hres ⊢
          exact ih (i+1) j res (by omega) hi (by omega) hres

/-- The result is a subsequence of both strings, no common one is longer, and every write is
inside of it. -/
theorem lcs_longest (s1 s2 : List UInt8) : ∃ res, lcs s1 s2 = some res ∧ res <+ s1 ∧ res <+ s2 ∧
    ∀ zs, zs <+ s1 → zs <+ s2 → zs.length ≤ res.length := by
  have hlcs : lcs s1 s2 = some (best s1.reverse s2.reverse).reverse := by
    have hall : prefixBest s1 s2 s1.length s2.length = best s1.reverse s2.reverse := by
      rw [prefixBest, take_length, take_length]
    rw [lcs]
    split_ifs with hempty
    · rcases hempty with h | h
      · rw [length_eq_zero_iff.mp h, reverse_nil, best_nil_left]
        rfl
      · rw [length_eq_zero_iff.mp h, reverse_nil, best_nil_right]
        rfl
    · simp only [table_eq _ le_rfl _ le_rfl]
      rw [backtrack_eq table_eq _ _ _ _ le_rfl le_rfl le_rfl (by rw [length_replicate]),
        drop_of_length_le (by rw [length_replicate]), append_nil, hall]
  obtain ⟨h1,h2⟩ := best_sublist s1.reverse s2.reverse
  refine ⟨_,hlcs,?_,?_,fun zs hx hy => ?_⟩
  · rwa [← reverse_sublist, reverse_reverse]
  · rwa [← reverse_sublist, reverse_reverse]
  · rw [length_reverse, ← @length_reverse _ zs]
    exact best_longest _ _ hx.reverse hy.reverse

end GoCommon.CommonSubsequence
