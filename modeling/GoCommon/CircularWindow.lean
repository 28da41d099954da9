import Mathlib.Tactic

/-!
# Windows of circular arrays

A window is a number of consecutive cells of an array whose end is followed by
its beginning. It consists of at most two segments. A list that is stored behind
a window extends it, in one piece or, at the end of the array, in two.
-/

set_option autoImplicit false

namespace GoCommon.CircularWindow
open List

variable {α : Type}

def segment (buf : ℕ → α) (lo n : ℕ) : List α := (List.range n).map (fun i => buf (lo+i))

def window (buf : ℕ → α) (c r n : ℕ) : List α := (List.range n).map (fun i => buf ((r+i)%c))

def store (buf : ℕ → α) (w : ℕ) (p : List α) : ℕ → α := fun i =>
  if w ≤ i then (p[i-w]?).getD (buf i) else buf i

variable (buf : ℕ → α)

theorem length_segment (lo n : ℕ) : (segment buf lo n).length = n := by simp [segment]

theorem length_window (c r n : ℕ) : (window buf c r n).length = n := by simp [window]

theorem mod_cases (c r i : ℕ) (hr : r < c) (hi : i ≤ c) :
    (r+i)%c = if r+i < c then r+i else r+i-c := by
  split
  · exact Nat.mod_eq_of_lt ‹_›
  · rw [Nat.mod_eq_sub_mod (by omega), Nat.mod_eq_of_lt (by omega)]

theorem window_append {c r m n : ℕ} :
    window buf c r (m+n) = window buf c r m++window buf c (r+m) n := by
  rw [window, range_add, map_append, map_map]
  refine congrArg _ (map_congr_left (fun i _ => ?_))
  change buf ((r+(m+i))%c) = buf ((r+m+i)%c)
  rw [Nat.add_assoc]

theorem window_mod (c r n : ℕ) : window buf c (r%c) n = window buf c r n := by
  refine map_congr_left (fun i _ => ?_)
  rw [Nat.mod_add_mod]

theorem window_eq_segment (c r n : ℕ) (h : r+n ≤ c) : window buf c r n = segment buf r n := by
  refine map_congr_left (fun i hi => ?_)
  rw [mem_range] at hi
  rw [Nat.mod_eq_of_lt (by omega)]

theorem window_wrap {c r n : ℕ} (hr : r ≤ c) (hn : n ≤ c) (h : c ≤ r+n) :
    window buf c r n = segment buf r (c-r)++segment buf 0 (r+n-c) := by
  have hsplit : n = c-r+(r+n-c) := by omega
  rw [hsplit, window_append, window_eq_segment buf c r (c-r) (by omega),
    ← window_mod buf c (r+(c-r)), show r+(c-r) = c by omega, Nat.mod_self,
    window_eq_segment buf c 0 _ (by omega), show r+(c-r+(r+n-c))-c = r+n-c by omega]

theorem take_window {c r m n : ℕ} : (window buf c r n).take m = window buf c r (min m n) := by
  rw [window, ← map_take, take_range]
  rfl

theorem drop_window {c r m n : ℕ} (h : m ≤ n) :
    (window buf c r n).drop m = window buf c (r+m) (n-m) := by
  have hsplit : n = m+(n-m) := by omega
  conv_lhs => rw [hsplit, window_append]
  rw [drop_left' (length_window buf c r m)]

theorem segment_store (w : ℕ) (p : List α) : segment (store buf w p) w p.length = p := by
  refine ext_getElem (length_segment ..) (fun i h1 h2 => ?_)
  simp [segment, store, h2]

theorem store_of_apart {w i : ℕ} {p : List α} (h : i < w ∨ w+p.length ≤ i) :
    store buf w p i = buf i := by
  rw [store]
  split
  · rw [List.getElem?_eq_none (by omega), Option.getD_none]
  · rfl

theorem store_congr {buf buf' : ℕ → α} {w i : ℕ} {p : List α} (h : buf i = buf' i) :
    store buf w p i = store buf' w p i := by
  rw [store, store, h]

theorem window_congr {buf buf' : ℕ → α} (c r n : ℕ) (h : ∀ i < n, buf ((r+i)%c) = buf' ((r+i)%c)) :
    window buf c r n = window buf' c r n :=
  map_congr_left (fun i hi => h i (mem_range.mp hi))

theorem window_store_of_apart (c r n : ℕ) {w : ℕ} (p : List α)
    (h : ∀ i < n, (r+i)%c < w ∨ w+p.length ≤ (r+i)%c) :
    window (store buf w p) c r n = window buf c r n :=
  window_congr c r n (fun i hi => store_of_apart buf (h i hi))

theorem window_store {c r : ℕ} (n : ℕ) (p : List α) (hr : r < c) (hn : n+p.length ≤ c)
    (hw : (r+n)%c+p.length ≤ c) :
    window (store buf ((r+n)%c) p) c r (n+p.length) = window buf c r n++p := by
  have hsecond : window (store buf ((r+n)%c) p) c (r+n) p.length = p := by
    rw [← window_mod, window_eq_segment _ _ _ _ hw, segment_store]
  rw [window_append, hsecond, window_store_of_apart buf c r n p (fun i hi => ?_)]
  rw [mod_cases c r i hr (by omega)]
  rw [mod_cases c r n hr (by omega)] at hw ⊢
  split_ifs at * <;> omega

theorem window_store_wrap {c r n : ℕ} {p : List α} (hr : r < c) (hn : n+p.length ≤ c)
    (hw : c ≤ (r+n)%c+p.length) :
    window (store (store buf ((r+n)%c) (p.take (c-(r+n)%c))) 0 (p.drop (c-(r+n)%c))) c r (n+p.length) =
      window buf c r n++p := by
  have hlt : (r+n)%c < c := Nat.mod_lt _ (by omega)
  have hlen : (p.take (c-(r+n)%c)).length = c-(r+n)%c := by rw [length_take]; omega
  have h1 := window_store buf n (p.take (c-(r+n)%c)) hr (by omega) (by omega)
  rw [hlen] at h1
  have hzero : (r+(n+(c-(r+n)%c)))%c = 0 := by
    rw [mod_cases c r n hr (by omega)] at *
    rw [mod_cases c r _ hr (by split_ifs at * <;> omega)]
    split_ifs at * <;> omega
  have hdrop : (p.drop (c-(r+n)%c)).length = p.length-(c-(r+n)%c) := length_drop ..
  have h2 := window_store (store buf ((r+n)%c) (p.take (c-(r+n)%c))) (n+(c-(r+n)%c))
    (p.drop (c-(r+n)%c)) hr (by omega) (by omega)
  rw [hzero, h1, hdrop, show n+(c-(r+n)%c)+(p.length-(c-(r+n)%c)) = n+p.length by omega,
    append_assoc, take_append_drop] at h2
  exact h2

end GoCommon.CircularWindow
