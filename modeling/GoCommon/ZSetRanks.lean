import Mathlib.Data.String.Basic
import GoCommon.ZSets

/-!
# Ranks of elements

The search of a rank compares the node it stands on with the element on every level,
from the head on, which has the zero values for its key and score. An element with the
zero values is taken for the head, and has no rank, unless the first node of the
highest level leads on from the head.
-/

set_option autoImplicit false

namespace GoCommon.ZSetRanks
open SkipLists SkipListShape SkipListQueries SkipListRuns StepRuns ZSets

variable {S K : Type} [LinearOrder S] [LinearOrder K]

theorem Clear.iff {sl : SkipList S K} {e zero : S ×ₗ K} {es : List (S ×ₗ K)} (hhead : elem sl 0 = zero) :
    Clear sl e es ↔ (e ∈ es → e = zero → Ahead sl e) := by
  rw [Clear, hhead]
  exact imp_congr_right fun _ => imp_congr_left eq_comm

theorem ranks_eq {z : ZSet S K} {key : K} {n : ℕ} {r : ℤ} (hn : z.dict key = some n)
    (hr : z.sl.getRank (z.sl.nodes n).score key = some r) :
    ZSets.rank key z = some (if r = 0 then none else some (r-1)) ∧
      revRank key z = some (if r = 0 then none else some (z.length-r)) := by
  rw [ZSets.rank, revRank, hn]
  simp only [hr, Option.bind_eq_bind, Option.bind_some]
  constructor <;> split <;> rfl

def RanksAgree (key : K) (z : ZSet S K) : Prop :=
  ∃ r q, ZSets.rank key z = some (some r) ∧ revRank key z = some (some q) ∧ r+q = card z-1

theorem ranksAgree_iff {z : ZSet S K} {xs : List ℕ} {m : Scores S K} (h : Linked z xs m) {key : K}
    {score : S} (hm : m key = some score) :
    RanksAgree key z ↔ (elem z.sl 0 = toLex (score,key) → Ahead z.sl (toLex (score,key))) := by
  rw [← h.scores key] at hm
  obtain ⟨n,hn,rfl⟩ := Option.map_eq_some_iff.mp hm
  obtain ⟨hmem,helem⟩ := h.elem_eq hn
  have hin : toLex ((z.sl.nodes n).score,key) ∈ xs.map (elem z.sl) := helem ▸ List.mem_map_of_mem hmem
  rcases getRank_spec h.rep (z.sl.nodes n).score key with ⟨hclear,hr⟩ | ⟨hno,hr⟩
  · obtain ⟨hrank,hrev⟩ := ranks_eq hn hr
    have hpos := placeIn_pos hin
    rw [if_neg hpos.ne'] at hrank hrev
    refine iff_of_true ⟨_,_,hrank,hrev,?_⟩ (hclear hin)
    rw [card]
    ring
  obtain ⟨hrank,_⟩ := ranks_eq hn hr
  refine iff_of_false ?_ fun hall => hno fun _ => hall
  rintro ⟨r,q,hsome,_⟩
  cases hrank.symm.trans hsome

/-- The search of a rank returns the position of every element, and the ranks of every member
agree, exactly where the head is not taken for the element. -/
theorem ranks_are_positions_iff (zeroKey : K) (zero : S) :
    (∀ ops : List (SkipListRuns.Op S K), Distinct ops ∅ →
      ∃ sl, runAll SkipListRuns.step ops (SkipLists.new zeroKey zero) = some sl ∧ ∀ score key,
        ∃ r, sl.getRank score key = some r ∧
          (r = placeIn (toLex (score,key)) (ops.foldl (fun s op => elements op s) ∅).sort ↔
            (toLex (score,key) ∈ ops.foldl (fun s op => elements op s) ∅ →
              toLex (score,key) = toLex (zero,zeroKey) → Ahead sl (toLex (score,key))))) ∧
    ∀ (plus : Plus S) (ops : List (ZSets.Op S K)) (m : Scores S K) (replies : List (Reply S)),
      runReplies (given plus) ops (fun _ => none) = some (m,replies) →
        ∃ z, runReplies (ZSets.step plus) ops (ZSets.new zeroKey zero) = some (z,replies) ∧
          ∀ key score, m key = some score → (RanksAgree key z ↔
            (toLex (score,key) = toLex (zero,zeroKey) → Ahead z.sl (toLex (score,key)))) := by
  refine ⟨fun ops hd => ?_,fun plus ops m replies hgiven => ?_⟩
  · obtain ⟨sl,xs,hrun,hholds,hhead⟩ := run_carries ops _ [] ∅ (new_carries zeroKey zero) hd
    have hhead : elem sl 0 = toLex (zero,zeroKey) := hhead
    refine ⟨sl,hrun,fun score key => ?_⟩
    rw [← Finset.mem_sort (· ≤ ·), ← Clear.iff hhead, ← hholds.sort_eq]
    rcases getRank_spec hholds.1 score key with ⟨hclear,hr⟩ | ⟨hno,hr⟩
    · exact ⟨_,hr,iff_of_true rfl hclear⟩
    have hmem : toLex (score,key) ∈ xs.map (elem sl) := by
      by_contra hout
      exact hno fun hin => absurd hin hout
    exact ⟨0,hr,iff_of_false (placeIn_pos hmem).ne hno⟩
  · obtain ⟨z,hrun,⟨xs,hlinked⟩,hhead⟩ := run_linked zeroKey zero hgiven
    refine ⟨z,hrun,fun key score hm => ?_⟩
    rw [ranksAgree_iff hlinked hm, hhead, eq_comm]

def maskedOps : List (SkipListRuns.Op ℤ String) :=
  [.insert (fun _ => false) 0 "", .insert (fun i => i < 1) 1 "a"]

def maskedCalls : List (ZSets.Op ℤ String) := [.add (fun _ => false) "" 0, .add (fun i => i < 1) "a" 1]

theorem maskedOps_distinct : Distinct maskedOps ∅ := ⟨by decide,by decide,trivial⟩

/-- The rank of a key that is not empty. -/
theorem larger_key_ranked :
    (∃ sl r, runAll SkipListRuns.step maskedOps (SkipLists.new "" 0) = some sl ∧
      sl.getRank 1 "a" = some r ∧
        r = placeIn (toLex (1,"a")) (maskedOps.foldl (fun s op => elements op s) ∅).sort) ∧
      ∃ z, runReplies (ZSets.step (fun a b => some (a+b))) maskedCalls (ZSets.new "" 0) =
        some (z,[.added true, .added true]) ∧ RanksAgree "a" z := by
  have hother : toLex ((1 : ℤ),"a") ≠ toLex (0,"") := by decide
  obtain ⟨hlist,hset⟩ := ranks_are_positions_iff "" (0 : ℤ)
  obtain ⟨sl,hrun,hranks⟩ := hlist maskedOps maskedOps_distinct
  obtain ⟨r,hr,hiff⟩ := hranks 1 "a"
  obtain ⟨z,hcalls,hagree⟩ := hset (fun a b => some (a+b)) maskedCalls _ _ rfl
  exact ⟨⟨sl,r,hrun,hr,hiff.mpr fun _ heq => absurd heq hother⟩,z,hcalls,
    (hagree "a" 1 (by decide)).mpr fun heq => absurd heq hother⟩

/-- The empty key is in the set, and its rank is that of a missing one. -/
theorem empty_key_without_rank : Distinct maskedOps ∅ ∧
    (runAll SkipListRuns.step maskedOps (SkipLists.new "" 0)).bind (fun sl => sl.getRank 0 "") = some 0 ∧
      0 < placeIn (toLex (0,"")) (maskedOps.foldl (fun s op => elements op s) ∅).sort ∧
        (runReplies (ZSets.step (fun a b => some (a+b))) maskedCalls (ZSets.new "" 0)).bind
          (fun (z,_) => ZSets.rank "" z) = some none := by
  refine ⟨maskedOps_distinct,by decide +kernel,placeIn_pos ?_,by decide +kernel⟩
  rw [Finset.mem_sort]
  decide

end GoCommon.ZSetRanks
