import Mathlib.Data.Finset.Sort
import GoCommon.SkipListDelete
import GoCommon.SkipListQueries
import GoCommon.StepRuns

/-!
# Runs of the skip list

Any sequence of insertions, deletions and new scores of distinct elements keeps the
shape of the list: the levels, spans, pointers back, level and length fit the set of
the elements, and the queries answer from that set.
-/

set_option autoImplicit false

namespace GoCommon.SkipListRuns
open List hiding Chain elem
open SpannedChain SkipLists SkipListShape SkipListInsert SkipListDelete SkipListQueries
open StepRuns

inductive Op (S K : Type) where
  | insert (flips : ℕ → Bool) (score : S) (key : K)
  | delete (score : S) (key : K)
  | updateScore (flips : ℕ → Bool) (cur : S) (key : K) (new : S)

section Members
variable {S K : Type}

def Members (sl : SkipList S K) (P : ℕ → Prop) (s : Finset (S ×ₗ K)) : Prop :=
  ∀ e, e ∈ s ↔ ∃ a, P a ∧ elem sl a = e

theorem Members.congr {sl : SkipList S K} {P Q : ℕ → Prop} {s : Finset (S ×ₗ K)} (h : Members sl P s)
    (hPQ : ∀ a, Q a ↔ P a) : Members sl Q s := by
  rw [show Q = P from funext (fun a => propext (hPQ a))]
  exact h

theorem Members.notMem {sl : SkipList S K} {P : ℕ → Prop} {s : Finset (S ×ₗ K)} (h : Members sl P s)
    {e : S ×ₗ K} : e ∉ s ↔ ∀ a, P a → elem sl a ≠ e := by
  rw [h e]
  exact ⟨fun hno a ha heq => hno ⟨a,ha,heq⟩,fun hno ⟨a,ha,heq⟩ => hno a ha heq⟩

theorem head_kept {sl t : SkipList S K} {n : ℕ} {e : S ×ₗ K} (hn : 0 < n)
    (helem : ∀ a, elem t a = if a = n then e else elem sl a) : elem t 0 = elem sl 0 := by
  rw [helem, if_neg hn.ne]

end Members

variable {S K : Type} [LinearOrder S] [LinearOrder K]

def step : Op S K → SkipList S K → Option (SkipList S K)
  | .insert flips score key, sl => (sl.insert flips score key).map (·.1)
  | .delete score key, sl => (sl.delete score key).map (·.1)
  | .updateScore flips cur key new, sl => (sl.updateScore flips cur key new).map (·.1)

def elements : Op S K → Finset (S ×ₗ K) → Finset (S ×ₗ K)
  | .insert _ score key, s => insert (toLex (score,key)) s
  | .delete score key, s => s.erase (toLex (score,key))
  | .updateScore _ cur key new, s =>
    if toLex (cur,key) ∈ s then insert (toLex (new,key)) (s.erase (toLex (cur,key))) else s

def distinct : Op S K → Finset (S ×ₗ K) → Prop
  | .insert _ score key, s => toLex (score,key) ∉ s
  | .delete _ _, _ => True
  | .updateScore _ cur key new, s => toLex (cur,key) ∈ s → toLex (new,key) ∉ s.erase (toLex (cur,key))

instance decidableDistinct : ∀ (op : Op S K) (s : Finset (S ×ₗ K)), Decidable (distinct op s)
  | .insert _ score key, s => inferInstanceAs (Decidable (toLex (score,key) ∉ s))
  | .delete _ _, _ => isTrue trivial
  | .updateScore _ cur key new, s =>
    inferInstanceAs (Decidable (toLex (cur,key) ∈ s → toLex (new,key) ∉ s.erase (toLex (cur,key))))

def Distinct : List (Op S K) → Finset (S ×ₗ K) → Prop
  | [], _ => True
  | op::ops, s => distinct op s ∧ Distinct ops (elements op s)

/-! ## Steps -/

variable {xs : List ℕ}

theorem members_erase {sl : SkipList S K} {s : Finset (S ×ₗ K)} {y : ℕ} (h : Rep sl xs)
    (hm : Members sl (· ∈ xs) s) (hy : y ∈ xs) :
    Members sl (fun a => a ∈ xs ∧ a ≠ y) (s.erase (elem sl y)) := by
  intro e
  rw [Finset.mem_erase, hm e]
  constructor
  · rintro ⟨hne,a,ha,rfl⟩
    exact ⟨a,⟨ha,fun heq => hne (heq ▸ rfl)⟩,rfl⟩
  · rintro ⟨a,⟨ha,hne⟩,rfl⟩
    exact ⟨fun heq => hne (h.eq_of_elem ha hy heq),a,ha,rfl⟩

theorem members_insert {sl t : SkipList S K} {P : ℕ → Prop} {s : Finset (S ×ₗ K)} {n : ℕ} {e : S ×ₗ K}
    (hm : Members sl P s) (hn : ¬P n) (helem : ∀ a, elem t a = if a = n then e else elem sl a) :
    Members t (fun a => a = n ∨ P a) (insert e s) := by
  have hold : ∀ a, P a → elem t a = elem sl a := by
    intro a ha
    have hne : a ≠ n := fun heq => hn (heq ▸ ha)
    rw [helem, if_neg hne]
  intro f
  rw [Finset.mem_insert, hm f]
  constructor
  · rintro (rfl | ⟨a,ha,rfl⟩)
    · exact ⟨n,Or.inl rfl,(helem n).trans (if_pos rfl)⟩
    · exact ⟨a,Or.inr ha,hold a ha⟩
  · rintro ⟨a,rfl | ha,rfl⟩
    · exact Or.inl ((helem a).trans (if_pos rfl))
    · exact Or.inr ⟨a,ha,(hold a ha).symm⟩

def Carries (sl : SkipList S K) (xs : List ℕ) (s : Finset (S ×ₗ K)) : Prop :=
  Rep sl xs ∧ Members sl (· ∈ xs) s

theorem new_carries (key : K) (score : S) : Carries (new key score) [] ∅ := by
  refine ⟨⟨List.Pairwise.nil,nofun,Nat.one_pos,nofun,⟨Nat.one_pos,?_⟩,fun _ => rfl,trivial,rfl,rfl⟩,
    fun e => ⟨nofun,nofun⟩⟩
  change 1 ≤ 32
  omega

theorem fresh_notMem {sl : SkipList S K} (h : Rep sl xs) : sl.fresh ∉ xs :=
  fun hmem => absurd (h.addrs _ hmem).2 (lt_irrefl _)

theorem step_carries {op : Op S K} {sl : SkipList S K} {s : Finset (S ×ₗ K)} (h : Carries sl xs s)
    (hd : distinct op s) :
    ∃ t ys, step op sl = some t ∧ Carries t ys (elements op s) ∧ elem t 0 = elem sl 0 := by
  obtain ⟨hrep,hm⟩ := h
  cases op with
  | insert flips score key =>
    obtain ⟨t,ys,hins,ht,hys,helem⟩ := insert_spec hrep flips score key (hm.notMem.mp hd)
    exact ⟨t,ys,by rw [step, hins]; rfl,⟨ht,(members_insert hm (fresh_notMem hrep) helem).congr hys⟩,
      head_kept hrep.fresh helem⟩
  | delete score key =>
    rcases delete_spec hrep score key with ⟨t,y,ys,hdel,hy,heq,ht,hys,helem⟩ | ⟨hdel,hno⟩
    · have herase := members_erase hrep hm hy
      refine ⟨t,ys,by rw [step, hdel]; rfl,⟨ht,Members.congr ?_ hys⟩,helem 0⟩
      rw [elements, ← heq]
      intro e
      rw [herase e]
      simp only [helem]
    · refine ⟨sl,xs,by rw [step, hdel]; rfl,⟨hrep,?_⟩,rfl⟩
      rw [elements, Finset.erase_eq_of_notMem (hm.notMem.mpr hno)]
      exact hm
  | updateScore flips cur key new =>
    have hnew : ∀ y ∈ xs, elem sl y = toLex (cur,key) → ∀ a ∈ xs, a ≠ y → elem sl a ≠ toLex (new,key) := by
      intro y hy heq a ha hne
      have hout := hd ((hm _).mpr ⟨y,hy,heq⟩)
      rw [← heq] at hout
      exact (members_erase hrep hm hy).notMem.mp hout a ⟨ha,hne⟩
    rcases updateScore_spec hrep flips cur key new hnew with
      ⟨t,y,n,ys,hup,hy,heq,ht,hys,hn,helem⟩ | ⟨hup,hno⟩
    · have hin : toLex (cur,key) ∈ s := (hm _).mpr ⟨y,hy,heq⟩
      have hpos : 0 < n := by
        rcases hn with rfl | rfl
        · exact (hrep.addrs n hy).1
        · exact hrep.fresh
      refine ⟨t,ys,by rw [step, hup]; rfl,⟨ht,Members.congr ?_ hys⟩,head_kept hpos helem⟩
      rw [elements, if_pos hin, ← heq]
      refine members_insert (members_erase hrep hm hy) ?_ helem
      rintro ⟨hmem,hne⟩
      rcases hn with rfl | rfl
      · exact hne rfl
      · exact fresh_notMem hrep hmem
    · refine ⟨sl,xs,by rw [step, hup]; rfl,⟨hrep,?_⟩,rfl⟩
      rw [elements, if_neg (hm.notMem.mpr hno)]
      exact hm

theorem run_carries (ops : List (Op S K)) (sl : SkipList S K) (xs : List ℕ) (s : Finset (S ×ₗ K))
    (h : Carries sl xs s) (hd : Distinct ops s) : ∃ t ys, runAll step ops sl = some t ∧
      Carries t ys (ops.foldl (fun s op => elements op s) s) ∧ elem t 0 = elem sl 0 := by
  induction ops generalizing sl xs s with
  | nil => exact ⟨sl,xs,rfl,h,rfl⟩
  | cons op ops ih =>
    obtain ⟨t,ys,hstep,ht,hhead⟩ := step_carries h hd.1
    obtain ⟨u,zs,hrun,hu,hhead'⟩ := ih t ys (elements op s) ht hd.2
    refine ⟨u,zs,?_,hu,hhead'.trans hhead⟩
    rw [runAll, hstep]
    exact hrun

/-! ## The shape of the list -/

def rank (nodes : List ℕ) (a : ℕ) : ℤ := (0::nodes).idxOf a

structure Shape (sl : SkipList S K) (nodes : ℕ → List ℕ) (s : Finset (S ×ₗ K)) : Prop where
  listed : ∀ i, Listed (sl.links i) 0 (nodes i)
  increasing : ((nodes 0).map (elem sl)).Pairwise (· < ·)
  exact : ∀ e, e ∈ (nodes 0).map (elem sl) ↔ e ∈ s
  sublist : ∀ i, (nodes (i+1)).Sublist (nodes i)
  spans : ∀ i a b, a ∈ 0::nodes i → sl.forward a i = some b →
    sl.span a i = rank (nodes 0) b-rank (nodes 0) a
  backward : ∀ k a, (nodes 0)[k]? = some a →
    (sl.nodes a).backward = if k = 0 then none else (nodes 0)[k-1]?
  tail : sl.tail = (nodes 0).getLast?
  level : sl.level ≤ maxLevel ∧ ∀ i, sl.level ≤ i → nodes i = []
  length : sl.length = s.card
  getByRank : ∀ r, (sl.getByRank r).map (Option.map (elem sl)) =
    some (if r ≤ 0 then none else s.sort[(r-1).toNat]?)
  range : ∀ start stop, (sl.range start stop).map (List.map (elem sl)) = some (segment s.sort start stop)
  rangeByScore : ∀ sr, (sl.rangeByScore sr).map (List.map (elem sl)) =
    some (s.sort.filter (fun e => Within sr (ofLex e).1))

theorem Carries.sort_eq {sl : SkipList S K} {s : Finset (S ×ₗ K)} (h : Carries sl xs s) :
    xs.map (elem sl) = s.sort := by
  have hsorted : (xs.map (elem sl)).SortedLT := (pairwise_map.mpr h.1.sorted).sortedLT
  refine hsorted.eq_of_mem_iff s.sortedLT_sort (fun e => ?_)
  rw [mem_map, Finset.mem_sort, h.2 e]

theorem Carries.shape {sl : SkipList S K} {s : Finset (S ×ₗ K)} (h : Carries sl xs s) :
    Shape sl (fun i => xs.filter (tall sl i)) s := by
  have hlow : xs.filter (tall sl 0) = xs := filter_eq_self.mpr h.1.lowest
  have hsort := h.sort_eq
  refine ⟨fun i => (h.1.chains i).listed,?_,fun e => ?_,fun i => ?_,fun i a b ha hnext => ?_,
    fun k a ha => ?_,?_,⟨h.1.level.2,fun i hi => ?_⟩,?_,fun r => ?_,fun start stop => ?_,fun sr => ?_⟩
  · rw [hlow]
    exact pairwise_map.mpr h.1.sorted
  · rw [hlow, mem_map, h.2 e]
  · exact monotone_filter_right xs (fun a ha => tall_mono sl i a ha)
  · rw [hlow]
    refine (h.1.chains i).span_eq h.1.nodup ?_ hnext
    rcases mem_cons.mp ha with rfl | ha
    · exact Or.inl rfl
    · exact Or.inr (mem_filter.mp ha)
  · rw [hlow] at ha ⊢
    exact back_at h.1.backs k a ha
  · rw [hlow]
    exact h.1.tail
  · exact filter_eq_nil_iff.mpr (fun a ha => Bool.eq_false_iff.mp (h.1.short i hi a ha))
  · rw [h.1.length, ← Finset.length_sort (· ≤ ·), ← hsort, length_map]
  · rw [getByRank_spec h.1, ← hsort, Option.map_some]
    split
    · rfl
    · rw [List.getElem?_map]
  · rw [range_spec h.1, ← hsort, Option.map_some, segment_map]
  · rw [rangeByScore_spec h.1, ← hsort, filter_map]
    rfl

/-- Every sequence of operations on distinct elements returns and leaves a list that
represents the elements. -/
theorem skip_list_represents (key : K) (score : S) (ops : List (Op S K)) (h : Distinct ops ∅) :
    ∃ sl nodes, runAll step ops (new key score) = some sl ∧
      Shape sl nodes (ops.foldl (fun s op => elements op s) ∅) := by
  obtain ⟨sl,xs,hrun,hholds,_⟩ := run_carries ops (new key score) [] ∅ (new_carries key score) h
  exact ⟨sl,_,hrun,hholds.shape⟩

def mixedOps : List (Op ℕ ℕ) := [.insert (fun i => i < 2) 5 1, .insert (fun _ => false) 3 2,
  .updateScore (fun _ => true) 3 2 9, .insert (fun i => i < 4) 4 1, .delete 5 1]

/-- An update moves an element over another one, and the range leaves out its lower bound. -/
theorem mixed_operations_represent : Distinct mixedOps ∅ ∧
    ∃ sl nodes, runAll step mixedOps (new 0 0) = some sl ∧
      Shape sl nodes (mixedOps.foldl (fun s op => elements op s) ∅) ∧
      (sl.rangeByScore ⟨4,9,true,false⟩).map (List.map (elem sl)) = some [toLex (9,2)] := by
  have hdistinct : Distinct mixedOps ∅ := by
    refine ⟨?_,?_,?_,?_,trivial,trivial⟩ <;> decide
  obtain ⟨sl,nodes,hrun,hshape⟩ := skip_list_represents 0 0 mixedOps hdistinct
  have hlast : mixedOps.foldl (fun s op => elements op s) ∅ = {toLex (4,1),toLex (9,2)} := by decide
  refine ⟨hdistinct,sl,nodes,hrun,hshape,(hshape.rangeByScore _).trans ?_⟩
  rw [hlast, Finset.sort_insert _ (by decide) (by decide), Finset.sort_singleton]
  decide

end GoCommon.SkipListRuns
