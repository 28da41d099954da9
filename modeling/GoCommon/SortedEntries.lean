import Mathlib.Tactic

/-!
# Entries in increasing order of their keys

A finite map kept as a list of entries with increasing keys. An entry is put at
the first position whose key is not smaller, where an entry with the same key
is replaced. Lists that follow each other can be searched one at a time.
-/

set_option autoImplicit false

namespace GoCommon.SortedEntries
open List

variable {α β : Type} [LinearOrder α]

def Increasing (es : List (α × β)) : Prop := es.Pairwise (fun a b => a.1 < b.1)

def find (k : α) : List (α × β) → Option β
  | [] => none
  | e::es => if e.1 = k then some e.2 else find k es

def rank (k : α) : List (α × β) → ℕ
  | [] => 0
  | e::es => if e.1 < k then rank k es+1 else 0

def put (k : α) (v : β) : List (α × β) → List (α × β)
  | [] => [(k,v)]
  | e::es => if e.1 < k then e::put k v es else if e.1 = k then (k,v)::es else (k,v)::e::es

/-! ## Position of a key -/

variable (k : α) (v : β) (es : List (α × β))

theorem rank_le : rank k es ≤ es.length := by
  induction es with
  | nil => exact le_rfl
  | cons e es ih =>
    rw [rank]
    split
    · simpa using ih
    · simp

theorem lt_rank (i : ℕ) (e : α × β) (h : es[i]? = some e) (hi : i < rank k es) : e.1 < k := by
  induction es generalizing i with
  | nil => simp at h
  | cons d es ih =>
    rw [rank] at hi
    split at hi
    · cases i with
      | zero =>
        cases h
        assumption
      | succ i => exact ih i (by simpa using h) (by omega)
    · omega

theorem rank_le_key (hs : Increasing es) (i : ℕ) (e : α × β)
    (h : es[i]? = some e) (hi : rank k es ≤ i) : k ≤ e.1 := by
  induction es generalizing i with
  | nil => simp at h
  | cons d es ih =>
    rw [Increasing, pairwise_cons] at hs
    rw [rank] at hi
    split at hi
    · cases i with
      | zero => omega
      | succ i => exact ih hs.2 i (by simpa using h) (by omega)
    rename_i hd
    cases i with
    | zero =>
      cases h
      exact le_of_not_gt hd
    | succ i =>
      have hm : e ∈ es := mem_of_getElem? (by simpa using h)
      exact le_trans (le_of_not_gt hd) (le_of_lt (hs.1 e hm))

theorem rank_append {xs ys : List (α × β)} (hx : ∀ e ∈ xs, e.1 < k)
    (hy : ∀ e ∈ ys.head?, k ≤ e.1) : rank k (xs++ys) = xs.length := by
  induction xs with
  | nil =>
    cases ys with
    | nil => rfl
    | cons e ys => exact if_neg (not_lt.mpr (hy e (by simp)))
  | cons d xs ih =>
    rw [cons_append, rank, if_pos (hx d (by simp)), ih (fun e he => hx e (by simp [he]))]
    rfl

/-! ## Finding -/

theorem find_none (h : ∀ e ∈ es, e.1 ≠ k) : find k es = none := by
  induction es with
  | nil => rfl
  | cons e es ih => rw [find, if_neg (h e (by simp)), ih (fun d hd => h d (by simp [hd]))]

theorem find_mem (h : find k es = some v) : (k,v) ∈ es := by
  induction es with
  | nil => cases h
  | cons e es ih =>
    rw [find] at h
    split at h
    · rename_i he
      cases h
      simp [← he]
    · exact mem_cons_of_mem _ (ih h)

theorem find_of_mem (hs : Increasing es) (h : (k,v) ∈ es) : find k es = some v := by
  induction es with
  | nil => cases h
  | cons e es ih =>
    rw [Increasing, pairwise_cons] at hs
    rcases mem_cons.mp h with rfl | h
    · exact if_pos rfl
    · rw [find, if_neg (ne_of_lt (hs.1 _ h)), ih hs.2 h]

theorem find_append {xs ys : List (α × β)} :
    find k (xs++ys) = (find k xs).orElse (fun _ => find k ys) := by
  induction xs with
  | nil => rfl
  | cons e xs ih =>
    rw [cons_append, find, find]
    split
    · rfl
    · exact ih

theorem find_rank (hs : Increasing es) :
    find k es = es[rank k es]?.bind (fun e => if e.1 = k then some e.2 else none) := by
  induction es with
  | nil => rfl
  | cons e es ih =>
    rw [Increasing, pairwise_cons] at hs
    rw [find, rank]
    by_cases hlt : e.1 < k
    · rw [if_neg (ne_of_lt hlt), if_pos hlt, ih hs.2]
      rfl
    rw [if_neg hlt]
    by_cases he : e.1 = k
    · simp [he]
    rw [find_none]
    · simp [he]
    intro d hd hdk
    have := hs.1 d hd
    rw [hdk] at this
    exact hlt this

/-! ## Putting -/

theorem mem_put {e : α × β} (h : e ∈ put k v es) : e = (k,v) ∨ e ∈ es := by
  induction es with
  | nil => exact .inl (by simpa [put] using h)
  | cons d es ih =>
    rw [put] at h
    split at h
    · rcases mem_cons.mp h with rfl | h
      · simp
      · exact (ih h).imp id (mem_cons_of_mem _)
    split at h
    · rcases mem_cons.mp h with rfl | h
      · simp
      · exact .inr (mem_cons_of_mem _ h)
    · exact mem_cons.mp h

theorem put_increasing (hs : Increasing es) : Increasing (put k v es) := by
  induction es with
  | nil => exact pairwise_singleton _ _
  | cons d es ih =>
    rw [Increasing, pairwise_cons] at hs
    rw [put]
    split
    · rename_i hd
      refine pairwise_cons.mpr ⟨fun e he => ?_,ih hs.2⟩
      rcases mem_put k v es he with rfl | he
      · exact hd
      · exact hs.1 e he
    rename_i hd
    split
    · rename_i he
      exact pairwise_cons.mpr ⟨fun e hm => by simpa [← he] using hs.1 e hm,hs.2⟩
    rename_i he
    have hlt : k < d.1 := lt_of_le_of_ne (le_of_not_gt hd) (Ne.symm he)
    refine pairwise_cons.mpr ⟨fun e hm => ?_,pairwise_cons.mpr hs⟩
    rcases mem_cons.mp hm with rfl | hm
    · exact hlt
    · exact lt_trans hlt (hs.1 e hm)

theorem find_put {k j : α} {v : β} {es : List (α × β)} :
    find j (put k v es) = if k = j then some v else find j es := by
  induction es with
  | nil => rfl
  | cons e es ih =>
    rw [put]
    split
    · rename_i hlt
      rw [find, find, ih]
      by_cases he : e.1 = j
      · have hk : k ≠ j := fun hk => (ne_of_lt hlt) (he.trans hk.symm)
        simp [he, hk]
      · simp [he]
    split
    · rename_i he
      by_cases hk : k = j
      · simp [find, hk]
      · have : e.1 ≠ j := fun h => hk (he.symm.trans h)
        simp [find, hk, this]
    · rfl

theorem length_put (hs : Increasing es) :
    (put k v es).length = es.length+if find k es = none then 1 else 0 := by
  induction es with
  | nil => rfl
  | cons e es ih =>
    rw [Increasing, pairwise_cons] at hs
    rw [put, find]
    split
    · rename_i hlt
      rw [if_neg (ne_of_lt hlt), length_cons, ih hs.2, length_cons]
      omega
    rename_i hle
    split
    · simp
    have hn : find k es = none := by
      refine find_none k es (fun d hd hdk => hle ?_)
      rw [← hdk]
      exact hs.1 d hd
    simp [hn]

theorem put_eq (hs : Increasing es) : put k v es =
    es.take (rank k es)++(k,v)::es.drop (rank k es+if find k es = none then 0 else 1) := by
  induction es with
  | nil => rfl
  | cons e es ih =>
    rw [Increasing, pairwise_cons] at hs
    rw [put, rank, find]
    by_cases hlt : e.1 < k
    · rw [if_pos hlt, if_pos hlt, if_neg (ne_of_lt hlt), ih hs.2, Nat.add_right_comm]
      rfl
    rw [if_neg hlt, if_neg hlt]
    by_cases he : e.1 = k
    · simp [he]
    have hn : find k es = none := by
      refine find_none k es (fun d hd hdk => hlt ?_)
      rw [← hdk]
      exact hs.1 d hd
    simp [he, hn]

theorem put_append_left {xs ys : List (α × β)} (h : ∃ e ∈ xs, k ≤ e.1) :
    put k v (xs++ys) = put k v xs++ys := by
  induction xs with
  | nil =>
    obtain ⟨e,he,_⟩ := h
    cases he
  | cons d xs ih =>
    rw [cons_append, put, put]
    split
    · rename_i hlt
      rw [ih, cons_append]
      obtain ⟨e,he,hk⟩ := h
      rcases mem_cons.mp he with rfl | he
      · exact absurd hlt (not_lt.mpr hk)
      · exact ⟨e,he,hk⟩
    · split <;> rfl

theorem put_append_right {xs ys : List (α × β)} (h : ∀ e ∈ xs, e.1 < k) :
    put k v (xs++ys) = xs++put k v ys := by
  induction xs with
  | nil => rfl
  | cons d xs ih =>
    rw [cons_append, put, if_pos (h d (by simp)), ih (fun e he => h e (by simp [he]))]
    rfl

theorem last_put (h : ∃ e ∈ es, k ≤ e.1) :
    (put k v es).getLast?.map Prod.fst = es.getLast?.map Prod.fst := by
  induction es with
  | nil =>
    obtain ⟨e,he,_⟩ := h
    cases he
  | cons d es ih =>
    rw [put]
    split
    · rename_i hd
      obtain ⟨e,he,hk⟩ := h
      rcases mem_cons.mp he with rfl | he
      · exact absurd hd (not_lt.mpr hk)
      have hi := ih ⟨e,he,hk⟩
      rw [List.getLast?_cons, List.getLast?_cons]
      rcases hx : es.getLast? with _ | x
      · rw [List.getLast?_eq_none_iff] at hx
        rw [hx] at he
        cases he
      rw [hx] at hi
      rcases hy : (put k v es).getLast? with _ | y
      · rw [hy] at hi
        cases hi
      · rw [hy] at hi
        exact hi
    split
    · rename_i hd
      rw [List.getLast?_cons, List.getLast?_cons, ← hd]
      cases es.getLast? <;> rfl
    · rw [List.getLast?_cons_cons]

end GoCommon.SortedEntries
