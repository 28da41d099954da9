import Mathlib.Algebra.Order.Group.Nat
import Mathlib.Tactic.ByContra

/-!
# Binary heaps

The positions of a heap form a tree in which every position but the first has a parent.
A state has a key at every position, and its entries are swapped by position. Sifting up
or down restores the order of a heap that is wrong at one position, and keeps whatever
every swap keeps.
-/

set_option autoImplicit false

namespace GoCommon.BinaryHeap

def parent (j : ℕ) : ℕ := (j-1)/2

/-! ## Sifting -/

section Loops
variable {σ : Type} (less : ℕ → ℕ → σ → Bool) (swap : ℕ → ℕ → σ → σ)

def upLoop : ℕ → ℕ → σ → σ
  | 0, _, s => s
  | fuel+1, j, s =>
    if parent j = j ∨ less j (parent j) s = false then s
    else upLoop fuel (parent j) (swap (parent j) j s)

def up (j : ℕ) (s : σ) : σ := upLoop less swap (j+1) j s

def child (n i : ℕ) (s : σ) : ℕ := if 2*i+2 < n ∧ less (2*i+2) (2*i+1) s then 2*i+2 else 2*i+1

def downLoop (n : ℕ) : ℕ → ℕ → σ → σ × ℕ
  | 0, i, s => (s,i)
  | fuel+1, i, s =>
    if n ≤ 2*i+1 ∨ less (child less n i s) i s = false then (s,i)
    else downLoop n fuel (child less n i s) (swap i (child less n i s) s)

def down (i n : ℕ) (s : σ) : σ × Bool :=
  let r := downLoop less swap n n i s
  (r.1,decide (i < r.2))

def fix (i n : ℕ) (s : σ) : σ :=
  let r := down less swap i n s
  if r.2 then r.1 else up less swap i r.1

end Loops

/-! ## Order -/

def swapped {K : Type} (a : ℕ → K) (i j k : ℕ) : K := if k = i then a j else if k = j then a i else a k

section Swapped
variable {K : Type} (a : ℕ → K) {i j k : ℕ}

theorem swapped_left : swapped a i j i = a j := if_pos rfl

theorem swapped_right : swapped a i j j = a i := by
  rw [swapped]
  split
  · rename_i h
    rw [h]
  · exact if_pos rfl

theorem swapped_other (hi : k ≠ i) (hj : k ≠ j) : swapped a i j k = a k := by
  rw [swapped, if_neg hi, if_neg hj]

end Swapped

variable {K : Type} [LinearOrder K]

def Heaped (a : ℕ → K) (n : ℕ) : Prop := ∀ c, 0 < c → c < n → a (parent c) ≤ a c

variable {a : ℕ → K}

theorem Heaped.root {n : ℕ} (h : Heaped a n) {c : ℕ} (hc : c < n) : a 0 ≤ a c := by
  induction c using Nat.strongRecOn with
  | ind c ih =>
    by_cases hpos : 0 < c
    · have hlt : parent c < c := by rw [parent]; omega
      exact (ih (parent c) hlt (by omega)).trans (h c hpos hc)
    · rw [show c = 0 by omega]

structure UpOrder (a : ℕ → K) (n j : ℕ) : Prop where
  others : ∀ c, 0 < c → c < n → c ≠ j → a (parent c) ≤ a c
  grand : 0 < j → ∀ c, 0 < c → c < n → parent c = j → a (parent j) ≤ a c

structure DownOrder (a : ℕ → K) (n i : ℕ) : Prop where
  others : ∀ c, 0 < c → c < n → parent c ≠ i → a (parent c) ≤ a c
  grand : 0 < i → ∀ c, 0 < c → c < n → parent c = i → a (parent i) ≤ a c

theorem UpOrder.stop {n j : ℕ} (h : UpOrder a n j) (hj : 0 < j → a (parent j) ≤ a j) :
    Heaped a n := by
  intro c hpos hc
  by_cases heq : c = j
  · rw [heq]
    exact hj (by omega)
  · exact h.others c hpos hc heq

theorem UpOrder.move {n j : ℕ} (h : UpOrder a n j) (hpos : 0 < j) (hj : j < n)
    (hlt : a j < a (parent j)) : UpOrder (swapped a (parent j) j) n (parent j) := by
  have hp : parent j < j := by rw [parent]; omega
  have hgrand : 0 < parent j → a (parent (parent j)) ≤ a (parent j) :=
    fun h0 => h.others (parent j) h0 (by omega) hp.ne
  constructor
  · intro c h0 hc hne
    by_cases hcj : c = j
    · rw [hcj, swapped_left, swapped_right]
      exact hlt.le
    rw [swapped_other a hne hcj]
    by_cases hpj : parent c = j
    · rw [hpj, swapped_right]
      exact h.grand hpos c h0 hc hpj
    by_cases hpp : parent c = parent j
    · rw [hpp, swapped_left]
      exact hlt.le.trans (hpp ▸ h.others c h0 hc hcj)
    · rw [swapped_other a hpp hpj]
      exact h.others c h0 hc hcj
  intro hp0 c h0 hc hpc
  have hgp : parent (parent j) < parent j := by
    have : ∀ k, 0 < k → parent k < k := fun k hk => by rw [parent]; omega
    exact this _ hp0
  rw [swapped_other a hgp.ne (by omega)]
  by_cases hcj : c = j
  · rw [hcj, swapped_right]
    exact hgrand hp0
  have hcp : c ≠ parent j := by
    intro heq
    rw [heq] at hpc
    omega
  rw [swapped_other a hcp hcj]
  exact (hgrand hp0).trans (hpc ▸ h.others c h0 hc hcj)

theorem DownOrder.stop {n i : ℕ} (h : DownOrder a n i)
    (hi : ∀ c, 0 < c → c < n → parent c = i → a i ≤ a c) : Heaped a n := by
  intro c hpos hc
  by_cases heq : parent c = i
  · rw [heq]
    exact hi c hpos hc heq
  · exact h.others c hpos hc heq

theorem DownOrder.move {n i j : ℕ} (h : DownOrder a n i) (hpos : 0 < j) (hj : j < n)
    (hpj : parent j = i) (hleast : ∀ c, 0 < c → c < n → parent c = i → a j ≤ a c) (hlt : a j < a i) :
    DownOrder (swapped a i j) n j := by
  have hij : i < j := by rw [← hpj, parent]; omega
  constructor
  · intro c h0 hc hne
    by_cases hpc : parent c = i
    · rw [hpc, swapped_left]
      by_cases hcj : c = j
      · rw [hcj, swapped_right]
        exact hlt.le
      have hci : c ≠ i := by
        rw [parent] at hpc
        omega
      rw [swapped_other a hci hcj]
      exact hleast c h0 hc hpc
    rw [swapped_other a hpc hne]
    by_cases hci : c = i
    · rw [hci, swapped_left]
      exact hci ▸ h.grand (by omega) j hpos hj hpj
    · have hcj : c ≠ j := fun heq => hpc (heq ▸ hpj)
      rw [swapped_other a hci hcj]
      exact h.others c h0 hc hpc
  intro _ c h0 hc hpc
  have hci : c ≠ i ∧ c ≠ j := by
    have : parent c < c := by rw [parent]; omega
    omega
  rw [hpj, swapped_left, swapped_other a hci.1 hci.2, ← hpc]
  exact h.others c h0 hc (by omega)

theorem children {c i : ℕ} (hpos : 0 < c) (h : parent c = i) : c = 2*i+1 ∨ c = 2*i+2 := by
  rw [parent] at h
  omega

/-! ## What sifting restores -/

section Restore
variable {σ : Type} {less : ℕ → ℕ → σ → Bool} {swap : ℕ → ℕ → σ → σ} {key : σ → ℕ → K} {n : ℕ}
  {Good : σ → Prop} (hless : ∀ i j s, less i j s = decide (key s i < key s j))
  (hgood : ∀ i j s, i < n → j < n → Good s → Good (swap i j s))
  (hkey : ∀ i j s, i < n → j < n → Good s → key (swap i j s) = swapped (key s) i j)
include hless

theorem child_spec {i : ℕ} {s : σ} (h : 2*i+1 < n) : 0 < child less n i s ∧ child less n i s < n ∧
    parent (child less n i s) = i ∧
      ∀ c, 0 < c → c < n → parent c = i → key s (child less n i s) ≤ key s c := by
  rw [child]
  split
  · rename_i hright
    rw [hless, decide_eq_true_eq] at hright
    refine ⟨by omega,hright.1,by rw [parent]; omega,fun c hpos hc hp => ?_⟩
    rcases children hpos hp with rfl | rfl
    · exact hright.2.le
    · exact le_rfl
  rename_i hleft
  rw [hless, decide_eq_true_eq, not_and, not_lt] at hleft
  refine ⟨by omega,h,by rw [parent]; omega,fun c hpos hc hp => ?_⟩
  rcases children hpos hp with rfl | rfl
  · exact le_rfl
  · exact hleft hc

include hgood hkey

theorem upLoop_restores (fuel j : ℕ) (s : σ) (hfuel : j < fuel) (hj : j < n) (hs : Good s)
    (horder : UpOrder (key s) n j) :
    Good (upLoop less swap fuel j s) ∧ Heaped (key (upLoop less swap fuel j s)) n := by
  induction fuel generalizing j s with
  | zero => omega
  | succ fuel ih =>
    rw [upLoop]
    split
    · rename_i hstop
      refine ⟨hs,horder.stop fun hpos => ?_⟩
      rcases hstop with hroot | hstop
      · rw [parent] at hroot
        omega
      · rwa [hless, decide_eq_false_iff_not, not_lt] at hstop
    rename_i hgo
    rw [not_or, hless, decide_eq_false_iff_not, not_not] at hgo
    have hpos : 0 < j := by
      by_contra hzero
      exact hgo.1 (by rw [parent]; omega)
    have hp : parent j < j := by rw [parent]; omega
    have hp' : parent j < n := by omega
    refine ih (parent j) _ (by omega) hp' (hgood _ _ s hp' hj hs) ?_
    rw [hkey _ _ s hp' hj hs]
    exact horder.move hpos hj hgo.2

theorem up_restores {j : ℕ} (s : σ) (hj : j < n) (hs : Good s) (horder : UpOrder (key s) n j) :
    Good (up less swap j s) ∧ Heaped (key (up less swap j s)) n :=
  upLoop_restores hless hgood hkey (j+1) j s (Nat.lt_succ_self j) hj hs horder

theorem downLoop_restores (fuel i : ℕ) (s : σ) (hfuel : n ≤ i+fuel) (hs : Good s)
    (horder : DownOrder (key s) n i) :
    Good (downLoop less swap n fuel i s).1 ∧ Heaped (key (downLoop less swap n fuel i s).1) n := by
  induction fuel generalizing i s with
  | zero =>
    refine ⟨hs,horder.stop fun c hpos hc hp => ?_⟩
    have := children hpos hp
    omega
  | succ fuel ih =>
    rw [downLoop]
    split
    · rename_i hstop
      refine ⟨hs,horder.stop fun c hpos hc hp => ?_⟩
      have hchildren := children hpos hp
      have hin : 2*i+1 < n := by omega
      rcases hstop with hleaf | hstop
      · omega
      · rw [hless, decide_eq_false_iff_not, not_lt] at hstop
        exact hstop.trans ((child_spec hless hin).2.2.2 c hpos hc hp)
    rename_i hgo
    rw [not_or, not_le, hless, decide_eq_false_iff_not, not_not] at hgo
    obtain ⟨hpos,hj,hp,hleast⟩ := @child_spec _ _ _ less key n hless i s hgo.1
    have hi : i < child less n i s := by
      have := children hpos hp
      omega
    have hin : i < n := by omega
    refine ih _ _ (by omega) (hgood _ _ s hin hj hs) ?_
    rw [hkey _ _ s hin hj hs]
    exact horder.move hpos hj hp hleast hgo.2

theorem down_restores {i : ℕ} (s : σ) (hs : Good s) (horder : DownOrder (key s) n i) :
    Good (down less swap i n s).1 ∧ Heaped (key (down less swap i n s).1) n :=
  downLoop_restores hless hgood hkey n i s (by omega) hs horder

theorem fix_restores {i : ℕ} (s : σ) (hi : i < n) (hs : Good s) (horder : DownOrder (key s) n i) :
    Good (fix less swap i n s) ∧ Heaped (key (fix less swap i n s)) n := by
  obtain ⟨hdown,hordered⟩ := down_restores hless hgood hkey s hs horder
  rw [fix]
  split
  · exact ⟨hdown,hordered⟩
  · exact up_restores hless hgood hkey _ hi hdown
      ⟨fun c hpos hc _ => hordered c hpos hc,fun hpos c hpos' hc hp =>
        (hordered i hpos hi).trans (hp ▸ hordered c hpos' hc)⟩

end Restore

end GoCommon.BinaryHeap
