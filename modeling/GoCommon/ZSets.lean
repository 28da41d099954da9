import GoCommon.SkipListRuns

/-!
# The sorted set

A dictionary from the keys to the nodes of a skip list, and the length. What it is
for is a map from the keys to their scores; a change of a score that would not give a
score again, infinity less infinity, is not part of it. Every call follows the map with
the same reply, and the queries answer from it.
-/

set_option autoImplicit false

namespace GoCommon.ZSets
open List hiding Chain elem
open Function
open SpannedChain SkipLists SkipListShape SkipListInsert SkipListDelete SkipListQueries
open SkipListRuns StepRuns

structure Member (S K : Type) where
  key : K
  score : S
  deriving DecidableEq

structure ZSet (S K : Type) where
  dict : K → Option ℕ
  sl : SkipList S K
  length : ℤ

inductive Op (S K : Type) where
  | add (flips : ℕ → Bool) (key : K) (score : S)
  | rem (key : K)
  | incrBy (flips : ℕ → Bool) (key : K) (delta : S)

inductive Reply (S : Type) where
  | added (new : Bool)
  | removed (found : Bool)
  | incremented (score : Option S)
  deriving DecidableEq

section Nodes
variable {S K : Type}

theorem node_of_elem {sl : SkipList S K} {a : ℕ} {score : S} {key : K} (h : elem sl a = toLex (score,key)) :
    (sl.nodes a).score = score ∧ (sl.nodes a).key = key := Prod.mk.inj (toLex_inj.mp h)

theorem node_congr {sl t : SkipList S K} {a : ℕ} (h : elem t a = elem sl a) :
    (t.nodes a).score = (sl.nodes a).score ∧ (t.nodes a).key = (sl.nodes a).key := node_of_elem h

def others [DecidableEq K] (z : ZSet S K) (xs : List ℕ) (key : K) : List ℕ := xs.filter (fun a => (z.sl.nodes a).key ≠ key)

theorem mem_others [DecidableEq K] {z : ZSet S K} {xs : List ℕ} {key : K} {a : ℕ} : a ∈ others z xs key ↔ a ∈ xs ∧ (z.sl.nodes a).key ≠ key := by
  rw [others, mem_filter, decide_eq_true_eq]

end Nodes

variable {S K : Type} [LinearOrder S] [LinearOrder K]

def new (key : K) (score : S) : ZSet S K := ⟨fun _ => none,SkipLists.new key score,0⟩

def searchKey (key : K) (sl : SkipList S K) : Option (Option ℕ) :=
  sl.findKey key (sl.fresh+1) (sl.forward 0 0)

def add (flips : ℕ → Bool) (key : K) (score : S) (z : ZSet S K) : Option (ZSet S K × Bool) :=
  match z.dict key with
  | some existing => do
    let (sl,_) ← z.sl.updateScore flips (z.sl.nodes existing).score key score
    let found ← searchKey key sl
    match found with
    | some updated => some ({ z with sl := sl, dict := update z.dict key (some updated) },false)
    | none => some ({ z with sl := sl },false)
  | none => do
    let (sl,n) ← z.sl.insert flips score key
    some (⟨update z.dict key (some n),sl,z.length+1⟩,true)

def rem (key : K) (z : ZSet S K) : Option (ZSet S K × Bool) :=
  match z.dict key with
  | some n => do
    let (sl,_) ← z.sl.delete (z.sl.nodes n).score key
    some (⟨update z.dict key none,sl,z.length-1⟩,true)
  | none => some (z,false)

def scoreOf (key : K) (z : ZSet S K) : Option S := (z.dict key).map (fun n => (z.sl.nodes n).score)

abbrev Plus (S : Type) := S → S → Option S

def incrBy (plus : Plus S) (flips : ℕ → Bool) (key : K) (delta : S) (z : ZSet S K) :
    Option (ZSet S K × Option S) :=
  match z.dict key with
  | some n => do
    let newScore ← plus (z.sl.nodes n).score delta
    let (sl,updated) ← z.sl.updateScore flips (z.sl.nodes n).score key newScore
    match updated with
    | some node => some ({ z with sl := sl, dict := update z.dict key (some node) },some newScore)
    | none => some ({ z with sl := sl },some newScore)
  | none => some (z,none)

def member (sl : SkipList S K) (a : ℕ) : Member S K := ⟨(sl.nodes a).key,(sl.nodes a).score⟩

def range (start stop : ℤ) (z : ZSet S K) : Option (List (Member S K)) :=
  (z.sl.range start stop).map (List.map (member z.sl))

def revRange (start stop : ℤ) (z : ZSet S K) : Option (List (Member S K)) :=
  let start := if start < 0 then z.length+start else start
  let stop := if stop < 0 then z.length+stop else stop
  let start := if start < 0 then 0 else start
  let stop := if z.length ≤ stop then z.length-1 else stop
  if stop < start then some []
  else (z.sl.range (z.length-1-stop) (z.length-1-start)).map
    (fun nodes => (nodes.map (member z.sl)).reverse)

def rank (key : K) (z : ZSet S K) : Option (Option ℤ) :=
  match z.dict key with
  | some n => do
    let rank ← z.sl.getRank (z.sl.nodes n).score key
    if rank = 0 then some none else some (some (rank-1))
  | none => some none

def revRank (key : K) (z : ZSet S K) : Option (Option ℤ) :=
  match z.dict key with
  | some n => do
    let rank ← z.sl.getRank (z.sl.nodes n).score key
    if rank = 0 then some none else some (some (z.length-rank))
  | none => some none

def card (z : ZSet S K) : ℤ := z.length

def step (plus : Plus S) : Op S K → ZSet S K → Option (ZSet S K × Reply S)
  | .add flips key score, z => (add flips key score z).map (fun (z,b) => (z,.added b))
  | .rem key, z => (rem key z).map (fun (z,b) => (z,.removed b))
  | .incrBy flips key delta, z => (incrBy plus flips key delta z).map (fun (z,r) => (z,.incremented r))

/-! ## The abstract set -/

abbrev Scores (S K : Type) := K → Option S

def given (plus : Plus S) : Op S K → Scores S K → Option (Scores S K × Reply S)
  | .add _ key score, m => some (update m key (some score),.added (m key).isNone)
  | .rem key, m => some (update m key none,.removed (m key).isSome)
  | .incrBy _ key delta, m => match m key with
    | some score => (plus score delta).map
        (fun sum => (update m key (some sum),.incremented (some sum)))
    | none => some (m,.incremented none)

structure Linked (z : ZSet S K) (xs : List ℕ) (m : Scores S K) : Prop where
  rep : Rep z.sl xs
  dict : ∀ key a, z.dict key = some a ↔ a ∈ xs ∧ (z.sl.nodes a).key = key
  scores : ∀ key, scoreOf key z = m key
  length : z.length = xs.length

theorem new_linked (key : K) (score : S) : Linked (new key score) [] (fun _ => none) :=
  ⟨(new_carries key score).1,fun _ _ => ⟨nofun,nofun⟩,fun _ => rfl,rfl⟩

/-! ## Steps -/

section Steps
variable {z : ZSet S K} {xs : List ℕ} {m : Scores S K}

theorem Linked.nodup (h : Linked z xs m) : xs.Nodup := (nodup_cons.mp h.rep.nodup).2

theorem Linked.others_iff (h : Linked z xs m) {key : K} {a : ℕ} (ha : z.dict key = some a) (b : ℕ) :
    b ∈ others z xs key ↔ b ∈ xs ∧ b ≠ a := by
  rw [mem_others]
  refine and_congr_right fun hb => not_congr ⟨fun hkey => ?_,fun heq => ?_⟩
  · exact Option.some.inj (((h.dict key b).mpr ⟨hb,hkey⟩).symm.trans ha)
  · rw [heq]
    exact ((h.dict key a).mp ha).2

theorem Linked.perm_others (h : Linked z xs m) {key : K} {a : ℕ} (ha : z.dict key = some a) :
    xs.Perm (a::others z xs key) := by
  have hnot : a ∉ others z xs key := fun hmem => ((h.others_iff ha a).mp hmem).2 rfl
  refine (perm_ext_iff_of_nodup h.nodup (nodup_cons.mpr ⟨hnot,h.nodup.filter _⟩)).mpr fun b => ?_
  rw [mem_cons, h.others_iff ha]
  by_cases hb : b = a
  · exact ⟨fun _ => Or.inl hb,fun _ => hb ▸ ((h.dict key a).mp ha).1⟩
  · exact ⟨fun hmem => Or.inr ⟨hmem,hb⟩,fun hor => (hor.resolve_left hb).1⟩

theorem Linked.others_absent (h : Linked z xs m) {key : K} (hnone : z.dict key = none) :
    others z xs key = xs := by
  refine filter_eq_self.mpr fun a ha => decide_eq_true fun hkey => ?_
  rw [(h.dict key a).mpr ⟨ha,hkey⟩] at hnone
  cases hnone

variable {t : SkipList S K}

theorem Linked.other_key (h : Linked z xs m) {key : K}
    (hsame : ∀ b ∈ others z xs key, elem t b = elem z.sl b) {k : K} (hk : k ≠ key) :
    (∀ a, z.dict k = some a ↔ a ∈ others z xs key ∧ (t.nodes a).key = k) ∧
      (z.dict k).map (fun n => (t.nodes n).score) = m k := by
  have hdict : ∀ a, z.dict k = some a ↔ a ∈ others z xs key ∧ (t.nodes a).key = k := by
    intro a
    rw [h.dict, mem_others, and_assoc]
    refine and_congr_right fun ha => ⟨fun hkey => ?_,fun ⟨hne,hkey⟩ => ?_⟩
    · have hne : (z.sl.nodes a).key ≠ key := fun heq => hk (hkey.symm.trans heq)
      exact ⟨hne,(node_congr (hsame a (mem_others.mpr ⟨ha,hne⟩))).2.trans hkey⟩
    · exact (node_congr (hsame a (mem_others.mpr ⟨ha,hne⟩))).2.symm.trans hkey
  refine ⟨hdict,?_⟩
  rw [← h.scores k, scoreOf]
  cases ha : z.dict k with
  | none => rfl
  | some a => exact congrArg some (node_congr (hsame a ((hdict a).mp ha).1)).1

theorem Linked.renewed (h : Linked z xs m) {ys : List ℕ} {n : ℕ} {key : K} {score : S}
    (ht : Rep t ys) (hys : ys.Perm (n::others z xs key))
    (helem : ∀ b, elem t b = if b = n then toLex (score,key) else elem z.sl b) (length : ℤ)
    (hlen : length = ys.length) :
    Linked ⟨update z.dict key (some n),t,length⟩ ys (update m key (some score)) := by
  have hnode := node_of_elem ((helem n).trans (if_pos rfl))
  have hn : n ∉ others z xs key :=
    (nodup_cons.mp (hys.nodup_iff.mp (nodup_cons.mp ht.nodup).2)).1
  have hsame : ∀ b ∈ others z xs key, elem t b = elem z.sl b := by
    intro b hb
    have hne : b ≠ n := fun heq => hn (heq ▸ hb)
    rw [helem, if_neg hne]
  refine ⟨ht,fun k a => ?_,fun k => ?_,hlen⟩
  · change update z.dict key (some n) k = some a ↔ a ∈ ys ∧ (t.nodes a).key = k
    rw [hys.mem_iff, mem_cons]
    by_cases hk : k = key
    · rw [hk, update_self, Option.some.injEq]
      refine ⟨fun heq => by rw [← heq]; exact ⟨Or.inl rfl,hnode.2⟩,fun ⟨hmem,hkey⟩ => ?_⟩
      rcases hmem with heq | hmem
      · exact heq.symm
      · exact absurd ((node_congr (hsame a hmem)).2.symm.trans hkey) (mem_others.mp hmem).2
    · rw [update_of_ne hk, (h.other_key hsame hk).1 a]
      refine ⟨fun ⟨hmem,hkey⟩ => ⟨Or.inr hmem,hkey⟩,fun ⟨hmem,hkey⟩ => ⟨hmem.resolve_left ?_,hkey⟩⟩
      exact fun heq => hk (hkey.symm.trans (by rw [heq, hnode.2]))
  change (update z.dict key (some n) k).map (fun a => (t.nodes a).score) = _
  by_cases hk : k = key
  · rw [hk, update_self, update_self]
    exact congrArg some hnode.1
  · rw [update_of_ne hk, update_of_ne hk]
    exact (h.other_key hsame hk).2

theorem Linked.removed (h : Linked z xs m) {ys : List ℕ} {key : K} (ht : Rep t ys)
    (hys : ys.Perm (others z xs key)) (helem : ∀ b, elem t b = elem z.sl b) (length : ℤ)
    (hlen : length = ys.length) :
    Linked ⟨update z.dict key none,t,length⟩ ys (update m key none) := by
  have hsame : ∀ b ∈ others z xs key, elem t b = elem z.sl b := fun b _ => helem b
  refine ⟨ht,fun k a => ?_,fun k => ?_,hlen⟩
  · change update z.dict key none k = some a ↔ a ∈ ys ∧ (t.nodes a).key = k
    rw [hys.mem_iff]
    by_cases hk : k = key
    · rw [hk, update_self]
      refine ⟨nofun,fun ⟨hmem,hkey⟩ => ?_⟩
      exact absurd ((node_congr (hsame a hmem)).2.symm.trans hkey) (mem_others.mp hmem).2
    · rw [update_of_ne hk]
      exact (h.other_key hsame hk).1 a
  change (update z.dict key none k).map (fun a => (t.nodes a).score) = _
  by_cases hk : k = key
  · rw [hk, update_self, update_self]
    rfl
  · rw [update_of_ne hk, update_of_ne hk]
    exact (h.other_key hsame hk).2

theorem Linked.elem_eq (h : Linked z xs m) {key : K} {a : ℕ} (ha : z.dict key = some a) :
    a ∈ xs ∧ elem z.sl a = toLex ((z.sl.nodes a).score,key) := by
  obtain ⟨hmem,hkey⟩ := (h.dict key a).mp ha
  exact ⟨hmem,by rw [elem, hkey]⟩

theorem Linked.search (h : Linked z xs m) {key : K} {a : ℕ} (ha : z.dict key = some a) :
    searchKey key z.sl = some (some a) := by
  have hstart : z.sl.forward 0 0 = xs.head? := @Rep.follower _ _ _ _ z.sl [] xs h.rep
  have hfuel := h.rep.length_lt_fresh
  rw [searchKey, hstart, findKey_spec key _ [] xs h.rep (by omega)]
  obtain ⟨hmem,hkey⟩ := (h.dict key a).mp ha
  cases hfind : xs.find? (fun a => (z.sl.nodes a).key = key) with
  | none => exact absurd (decide_eq_true hkey) (List.find?_eq_none.mp hfind a hmem)
  | some b =>
    have hb := (h.dict key b).mpr ⟨mem_of_find?_eq_some hfind,
      of_decide_eq_true (List.find?_some hfind :)⟩
    rw [← hb, ha]

theorem Linked.update (h : Linked z xs m) (flips : ℕ → Bool) {key : K} {a : ℕ} (ha : z.dict key = some a)
    (score : S) : ∃ t n ys, z.sl.updateScore flips (z.sl.nodes a).score key score = some (t,some n) ∧
      Linked ⟨update z.dict key (some n),t,z.length⟩ ys (update m key (some score)) ∧
        elem t 0 = elem z.sl 0 := by
  obtain ⟨hmem,helem⟩ := h.elem_eq ha
  have hnew : ∀ y ∈ xs, elem z.sl y = toLex ((z.sl.nodes a).score,key) → ∀ b ∈ xs, b ≠ y →
      elem z.sl b ≠ toLex (score,key) := by
    intro y hy heq b hb hne hkey
    have hyd := (h.dict key y).mpr ⟨hy,(node_of_elem heq).2⟩
    exact hne (Option.some.inj (((h.dict key b).mpr ⟨hb,(node_of_elem hkey).2⟩).symm.trans hyd))
  rcases updateScore_spec h.rep flips _ key score hnew with
    ⟨t,y,n,ys,hup,hy,heq,ht,hys,hn,helems⟩ | ⟨_,hno⟩
  · obtain rfl : y = a := h.rep.eq_of_elem hy hmem (heq.trans helem.symm)
    have hout : n ∉ others z xs key := by
      rw [h.others_iff ha]
      rintro ⟨hnx,hne⟩
      rcases hn with rfl | rfl
      · exact hne rfl
      · exact fresh_notMem h.rep hnx
    have hperm : ys.Perm (n::others z xs key) := by
      refine (perm_ext_iff_of_nodup (nodup_cons.mp ht.nodup).2
        (nodup_cons.mpr ⟨hout,h.nodup.filter _⟩)).mpr fun b => ?_
      rw [hys, mem_cons, h.others_iff ha]
    have hpos : 0 < n := by
      rcases hn with rfl | rfl
      · exact (h.rep.addrs n hy).1
      · exact h.rep.fresh
    refine ⟨t,n,ys,hup,h.renewed ht hperm helems z.length ?_,head_kept hpos helems⟩
    rw [h.length, hperm.length_eq, (h.perm_others ha).length_eq, length_cons, length_cons]
  · exact absurd helem (hno a hmem)

theorem step_linked {plus : Plus S} {op : Op S K} (z : ZSet S K) {m m' : Scores S K} {r : Reply S}
    (h : ∃ xs, Linked z xs m) (hgiven : given plus op m = some (m',r)) :
    ∃ z', step plus op z = some (z',r) ∧ (∃ xs, Linked z' xs m') ∧ elem z'.sl 0 = elem z.sl 0 := by
  obtain ⟨xs,h⟩ := h
  cases op with
  | add flips key score =>
    cases hgiven
    rw [step, add, ← h.scores key, scoreOf]
    cases ha : z.dict key with
    | some a =>
      obtain ⟨t,n,ys,hup,hlinked,hhead⟩ := h.update flips ha score
      have hsearch := hlinked.search (update_self ..)
      refine ⟨_,?_,⟨ys,hlinked⟩,hhead⟩
      simp only [hup, Option.bind_eq_bind, Option.bind_some, hsearch, Option.map_some, Option.isNone_some]
    | none =>
      have hnew : ∀ a ∈ xs, elem z.sl a ≠ toLex (score,key) := by
        intro a ha' heq
        rw [(h.dict key a).mpr ⟨ha',(node_of_elem heq).2⟩] at ha
        cases ha
      obtain ⟨t,ys,hins,ht,hys,helem⟩ := insert_spec h.rep flips score key hnew
      have hperm : ys.Perm (z.sl.fresh::others z xs key) := by
        rw [h.others_absent ha]
        refine (perm_ext_iff_of_nodup (nodup_cons.mp ht.nodup).2
          (nodup_cons.mpr ⟨fresh_notMem h.rep,h.nodup⟩)).mpr fun b => ?_
        rw [hys, mem_cons]
      refine ⟨_,?_,⟨ys,h.renewed ht hperm helem (z.length+1) ?_⟩,head_kept h.rep.fresh helem⟩
      · simp only [hins, Option.bind_eq_bind, Option.bind_some, Option.map_some, Option.map_none,
          Option.isNone_none]
      · rw [h.length, hperm.length_eq, h.others_absent ha, length_cons]
        omega
  | rem key =>
    cases hgiven
    rw [step, rem, ← h.scores key, scoreOf]
    cases ha : z.dict key with
    | some a =>
      obtain ⟨hmem,helem⟩ := h.elem_eq ha
      rcases delete_spec h.rep (z.sl.nodes a).score key with ⟨t,y,ys,hdel,hy,heq,ht,hys,helems⟩ | ⟨_,hno⟩
      · obtain rfl : y = a := h.rep.eq_of_elem hy hmem (heq.trans helem.symm)
        have hperm : ys.Perm (others z xs key) := by
          have hnd : (others z xs key).Nodup := h.nodup.filter _
          refine (perm_ext_iff_of_nodup (nodup_cons.mp ht.nodup).2 hnd).mpr fun b => ?_
          rw [hys, h.others_iff ha]
        refine ⟨_,?_,⟨ys,h.removed ht hperm helems (z.length-1) ?_⟩,helems 0⟩
        · simp only [hdel, Option.bind_eq_bind, Option.bind_some, Option.map_some, Option.isSome_some]
        · rw [h.length, hperm.length_eq, (h.perm_others ha).length_eq, length_cons]
          omega
      · exact absurd helem (hno a hmem)
    | none =>
      refine ⟨z,rfl,⟨xs,h.rep,h.dict,fun k => ?_,h.length⟩,rfl⟩
      by_cases hk : k = key
      · rw [hk, update_self, scoreOf, ha]
        rfl
      · rw [update_of_ne hk]
        exact h.scores k
  | incrBy flips key delta =>
    rw [given, ← h.scores key, scoreOf] at hgiven
    rw [step, incrBy]
    cases ha : z.dict key with
    | some a =>
      rw [ha] at hgiven
      obtain ⟨sum,hsum,heq⟩ := Option.map_eq_some_iff.mp hgiven
      cases heq
      obtain ⟨t,n,ys,hup,hlinked,hhead⟩ := h.update flips ha sum
      refine ⟨_,?_,⟨ys,hlinked⟩,hhead⟩
      simp only [hsum, hup, Option.bind_eq_bind, Option.bind_some, Option.map_some]
    | none =>
      rw [ha] at hgiven
      cases hgiven
      exact ⟨z,rfl,⟨xs,h⟩,rfl⟩

end Steps

/-! ## Queries -/

theorem reverse_segment {A : Type} {xs : List A} (a : ℕ) {b : ℕ} (hab : a ≤ b) (hb : b < xs.length) :
    (xs.reverse.take (b+1)).drop a = (SkipListQueries.segment xs (xs.length-1-b) (xs.length-1-a)).reverse := by
  have hfrom : (xs.length-1-b : ℤ).toNat = xs.length-(b+1) := by omega
  have hto : (xs.length-1-a+1 : ℤ).toNat = xs.length-a := by omega
  rw [SkipListQueries.segment, position, position, if_neg (by omega), if_neg (by omega), hfrom, hto,
    take_reverse, drop_reverse, drop_take, length_drop,
    show xs.length-(xs.length-(b+1))-a = xs.length-a-(xs.length-(b+1)) by omega]

section Queries
variable {z : ZSet S K} {xs : List ℕ} {m : Scores S K}

theorem Linked.revRange_eq (h : Linked z xs m) (start stop : ℤ) : revRange start stop z =
    some ((SkipListQueries.segment xs.reverse start stop).map (member z.sl)) := by
  have hn := h.length
  have hrange : revRange start stop z =
      if (if z.length ≤ position z.length stop then z.length-1 else position z.length stop) <
        (if position z.length start < 0 then 0 else position z.length start) then some []
      else (z.sl.range
        (z.length-1-(if z.length ≤ position z.length stop then z.length-1 else position z.length stop))
        (z.length-1-(if position z.length start < 0 then 0 else position z.length start))).map
          (fun nodes => (nodes.map (member z.sl)).reverse) := rfl
  rw [hrange, SkipListQueries.segment, length_reverse, ← hn]
  generalize position z.length start = p
  generalize position z.length stop = q
  by_cases hempty : (if z.length ≤ q then z.length-1 else q) < (if p < 0 then 0 else p)
  · rw [if_pos hempty, drop_eq_nil_of_le, map_nil]
    rw [length_take, length_reverse]
    split_ifs at hempty <;> omega
  rw [if_neg hempty, range_spec h.rep, Option.map_some]
  -- both positions lie in the list
  obtain ⟨a,ha⟩ : ∃ a : ℕ, (if p < 0 then 0 else p) = a := ⟨p.toNat,by split_ifs <;> omega⟩
  obtain ⟨b,hb⟩ : ∃ b : ℕ, (if z.length ≤ q then z.length-1 else q) = b := by
    refine ⟨(if z.length ≤ q then z.length-1 else q).toNat,?_⟩
    split_ifs at hempty ⊢ <;> omega
  rw [ha, hb] at hempty ⊢
  have hbn : b < xs.length := by split_ifs at hb <;> omega
  have htake : xs.reverse.take (q+1).toNat = xs.reverse.take (b+1) := by
    rw [take_eq_take_iff, length_reverse]
    split_ifs at hb <;> omega
  have hdrop : p.toNat = a := by split_ifs at ha <;> omega
  rw [htake, hdrop, reverse_segment a (by omega) hbn, hn, map_reverse]

theorem Linked.range_eq (h : Linked z xs m) (start stop : ℤ) : range start stop z =
    some ((SkipListQueries.segment xs start stop).map (member z.sl)) := by
  rw [range, range_spec h.rep, Option.map_some]

theorem Linked.members (h : Linked z xs m) (e : S ×ₗ K) :
    e ∈ xs.map (elem z.sl) ↔ m (ofLex e).2 = some (ofLex e).1 := by
  rw [mem_map, ← h.scores, scoreOf, Option.map_eq_some_iff]
  constructor
  · rintro ⟨a,ha,rfl⟩
    exact ⟨a,(h.dict _ a).mpr ⟨ha,rfl⟩,rfl⟩
  rintro ⟨a,ha,hscore⟩
  refine ⟨a,((h.dict _ a).mp ha).1,?_⟩
  rw [(h.elem_eq ha).2, hscore]
  rfl

theorem Linked.sort_eq (h : Linked z xs m) : (xs.map (elem z.sl)).toFinset.sort = xs.map (elem z.sl) := by
  have hsorted : (xs.map (elem z.sl)).SortedLT := (pairwise_map.mpr h.rep.sorted).sortedLT
  refine (Finset.sortedLT_sort _).eq_of_mem_iff hsorted (fun e => ?_)
  rw [Finset.mem_sort, mem_toFinset]

theorem Linked.keys (h : Linked z xs m) : (xs.map (fun a => (z.sl.nodes a).key)).Nodup := by
  refine h.nodup.map_on (fun a ha b hb heq => ?_)
  exact Option.some.inj (((h.dict _ a).mpr ⟨ha,heq⟩).symm.trans ((h.dict _ b).mpr ⟨hb,rfl⟩))

end Queries

def asMember (e : S ×ₗ K) : Member S K := ⟨(ofLex e).2,(ofLex e).1⟩

structure Refines (z : ZSet S K) (m : Scores S K) (nodes : List ℕ) (s : Finset (S ×ₗ K)) : Prop where
  listed : Listed (z.sl.links 0) 0 nodes
  keys : (nodes.map (fun a => (z.sl.nodes a).key)).Nodup
  dict : ∀ key a, z.dict key = some a ↔ a ∈ nodes ∧ (z.sl.nodes a).key = key
  length : z.length = nodes.length ∧ z.sl.length = nodes.length
  score : ∀ key, scoreOf key z = m key
  members : ∀ e, e ∈ s ↔ m (ofLex e).2 = some (ofLex e).1
  range : ∀ start stop, range start stop z =
    some ((SkipListQueries.segment s.sort start stop).map asMember)
  revRange : ∀ start stop, revRange start stop z =
    some ((SkipListQueries.segment s.sort.reverse start stop).map asMember)

theorem Linked.refines {z : ZSet S K} {xs : List ℕ} {m : Scores S K} (h : Linked z xs m) :
    Refines z m xs (xs.map (elem z.sl)).toFinset := by
  have hlow : xs.filter (tall z.sl 0) = xs := filter_eq_self.mpr h.rep.lowest
  have hmember : ∀ ys : List ℕ, ys.map (member z.sl) = (ys.map (elem z.sl)).map asMember :=
    fun ys => by rw [map_map]; rfl
  refine ⟨hlow ▸ (h.rep.chains 0).listed,h.keys,h.dict,⟨h.length,h.rep.length⟩,h.scores,fun e => ?_,
    fun start stop => ?_,fun start stop => ?_⟩
  · rw [mem_toFinset, h.members]
  · rw [h.range_eq, h.sort_eq, hmember, segment_map]
  · rw [h.revRange_eq, h.sort_eq, hmember, segment_map, map_reverse]

theorem run_linked {plus : Plus S} (key : K) (score : S) {ops : List (Op S K)} {m : Scores S K}
    {replies : List (Reply S)} (h : runReplies (given plus) ops (fun _ => none) = some (m,replies)) :
    ∃ z, runReplies (step plus) ops (new key score) = some (z,replies) ∧ (∃ xs, Linked z xs m) ∧
      elem z.sl 0 = toLex (score,key) := by
  refine @runReplies_follows _ _ _ _ (step plus) (given plus)
    (fun z m => (∃ xs, Linked z xs m) ∧ elem z.sl 0 = toLex (score,key)) ?_ ops (new key score)
    (fun _ => none) m replies ⟨⟨[],new_linked key score⟩,rfl⟩ h
  rintro op z m m' r ⟨hlinked,hhead⟩ hgiven
  obtain ⟨z',hstep,hlinked',hhead'⟩ := step_linked z hlinked hgiven
  exact ⟨z',hstep,hlinked',hhead'.trans hhead⟩

/-- Every sequence of calls returns, with the replies of the map of scores, and leaves a set that
refines it. -/
theorem zset_refines_scores (plus : Plus S) (key : K) (score : S) (ops : List (Op S K)) (m : Scores S K)
    (replies : List (Reply S)) (h : runReplies (given plus) ops (fun _ => none) = some (m,replies)) :
    ∃ z nodes s, runReplies (step plus) ops (new key score) = some (z,replies) ∧ Refines z m nodes s := by
  obtain ⟨z,hrun,⟨xs,hlinked⟩,_⟩ := run_linked key score h
  exact ⟨z,xs,_,hrun,hlinked.refines⟩

def someOps : List (Op ℤ ℕ) := [.add (fun i => i < 2) 1 5, .add (fun _ => false) 2 3, .add (fun _ => true) 1 4,
  .incrBy (fun i => i < 3) 2 6, .add (fun _ => false) 7 0, .rem 7, .rem 7, .incrBy (fun _ => false) 9 1]

/-- The replies tell new members from updated ones and missing ones. -/
theorem some_calls_refine : ∃ m z nodes s,
    runReplies (step (fun a b => some (a+b))) someOps (new 0 0) = some (z,[.added true, .added true,
      .added false, .incremented (some 9), .added true, .removed true, .removed false, .incremented none]) ∧
        Refines z m nodes s := by
  obtain ⟨m,hm⟩ : ∃ m, runReplies (given (fun a b : ℤ => some (a+b))) someOps (fun _ => none) =
      some (m,[.added true, .added true, .added false, .incremented (some 9), .added true, .removed true,
        .removed false, .incremented none]) := ⟨_,rfl⟩
  exact ⟨m,zset_refines_scores (fun a b => some (a+b)) 0 0 someOps m _ hm⟩

end GoCommon.ZSets
