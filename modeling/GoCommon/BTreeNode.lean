import GoCommon.SortedEntries
import GoCommon.BinarySearch

/-!
# Nodes of the B+ tree

A node is a page of words: its page id, a word with flags and the number of
keys, then the keys, then the values. A node shows a list of entries when its
first keys and values are those of the entries and the keys behind them are
zero; the operations on nodes are operations on what they show.
-/

set_option autoImplicit false

namespace GoCommon.BTreeNode
open List SortedEntries

def pageSize : ℕ := 4096
def pageWords : ℕ := pageSize/8
def maxKeys : ℕ := pageSize/16-1
def maxUint64 : ℕ := 2^64-1
def absoluteMax : ℕ := maxUint64-1

def metaPidIdx : ℕ := 0
def metaInfoIdx : ℕ := 1
def metaOffset : ℕ := 2

def maskNumKeys : ℕ := 2^32-1
def bitLeaf : ℕ := 2^63
def maskBits : ℕ := 2^64-2^56

abbrev Node := ℕ → ℕ

def keyOffset (i : ℕ) : ℕ := metaOffset+i
def valOffset (i : ℕ) : ℕ := metaOffset+maxKeys+i

def pid (n : Node) : ℕ := n metaPidIdx
def key (n : Node) (i : ℕ) : ℕ := n (keyOffset i)
def val (n : Node) (i : ℕ) : ℕ := n (valOffset i)

def setAt (n : Node) (start k : ℕ) : Node := Function.update n start k

def numKeys (n : Node) : ℕ := n metaInfoIdx &&& maskNumKeys

def setNumKeys (n : Node) (num : ℕ) : Node :=
  setAt n metaInfoIdx ((n metaInfoIdx &&& (maxUint64-maskNumKeys)) ||| num)

def copyWords (dst : Node) (lo hi : ℕ) (src : Node) (start : ℕ) : Node := fun i =>
  if lo ≤ i ∧ i < hi then src (start+(i-lo)) else dst i

def zeroOut (n : Node) (lo hi : ℕ) : Node := fun i => if lo ≤ i ∧ i < hi then 0 else n i

def moveRight (n : Node) (lo : ℕ) : Node :=
  let hi := numKeys n
  let moved := copyWords n (keyOffset (lo+1)) (keyOffset (hi+1)) n (keyOffset lo)
  copyWords moved (valOffset (lo+1)) (valOffset (hi+1)) moved (valOffset lo)

def setBit (n : Node) (b : ℕ) : Node := setAt n metaInfoIdx (n metaInfoIdx ||| b)

def bits (n : Node) : ℕ := n metaInfoIdx &&& maskBits

def isLeaf (n : Node) : Bool := 0 < bits n &&& bitLeaf

def isFull (n : Node) : Bool := numKeys n = maxKeys

def searchNode (n : Node) (k : ℕ) : ℕ :=
  if numKeys n < 4 then ((List.range (numKeys n)).find? (fun i => k ≤ key n i)).getD (numKeys n)
  else BinarySearch.search (numKeys n) (fun i => k ≤ key n i)

def maxKey (n : Node) : ℕ := key n (if 0 < numKeys n then numKeys n-1 else numKeys n)

def compactLoop (lo mk : ℕ) : ℕ → ℕ → ℕ → Node → Node × ℕ
  | 0, _, left, n => (n,left)
  | rest+1, right, left, n =>
    if val n right < lo ∧ key n right < mk then compactLoop lo mk rest (right+1) left n
    else
      let keyed := setAt n (keyOffset left) (key n right)
      let copied := if left ≠ right then setAt keyed (valOffset left) (val keyed right) else n
      compactLoop lo mk rest (right+1) (left+1) copied

def compactNode (lo : ℕ) (n : Node) : Node × ℕ :=
  let mk := maxKey n
  let pass := compactLoop lo mk (numKeys n) 0 0 n
  let keys := zeroOut pass.1 (keyOffset pass.2) (keyOffset (numKeys n))
  let vals := zeroOut keys (valOffset pass.2) (valOffset (numKeys n))
  let done := setNumKeys vals pass.2
  (done,if pass.2 = 1 ∧ key done 0 = mk ∧ val done 0 < lo then 0 else pass.2)

def getNode (n : Node) (k : ℕ) : ℕ :=
  let idx := searchNode n k
  if idx = numKeys n then 0 else if key n idx = k then val n idx else 0

def setNode (n : Node) (k v : ℕ) : Option (Node × ℕ) :=
  let idx := searchNode n k
  let ki := key n idx
  let moved := if k < ki then moveRight n idx else n
  let counted := if ki ≠ k then setNumKeys moved (numKeys moved+1) else moved
  if ki = 0 ∨ k ≤ ki then
    some (setAt (setAt counted (keyOffset idx) k) (valOffset idx) v,if ki ≠ k then 1 else 0)
  else none

/-! ## Words -/

variable (n : Node) (num : ℕ)

@[simp] theorem setAt_same {i k : ℕ} : setAt n i k i = k := Function.update_self ..

theorem setAt_other {i j k : ℕ} (h : j ≠ i) : setAt n i k j = n j :=
  Function.update_of_ne h ..

theorem numKeys_setNumKeys (h : num < 2^32) : numKeys (setNumKeys n num) = num := by
  rw [numKeys, setNumKeys, setAt_same]
  refine Nat.eq_of_testBit_eq (fun i => ?_)
  have hmask : maskNumKeys.testBit i = decide (i < 32) := Nat.testBit_two_pow_sub_one 32 i
  have hrest : (maxUint64-maskNumKeys).testBit i = (decide (32 ≤ i) && decide (i < 64)) := by
    have : maxUint64-maskNumKeys = 2^32*(2^32-1) := by decide
    rw [this, Nat.testBit_two_pow_mul, Nat.testBit_two_pow_sub_one]
    by_cases h1 : 32 ≤ i
    · simp [h1]
      omega
    · simp [h1]
  rw [Nat.testBit_and, Nat.testBit_or, Nat.testBit_and, hmask, hrest]
  by_cases hi : i < 32
  · simp [hi]
  · have : num.testBit i = false :=
      Nat.testBit_lt_two_pow (lt_of_lt_of_le h (Nat.pow_le_pow_right (by decide) (by omega)))
    simp [hi, this]

theorem isLeaf_eq : isLeaf n = (n metaInfoIdx).testBit 63 := by
  have hb : bits n &&& bitLeaf = if (n metaInfoIdx).testBit 63 then bitLeaf else 0 := by
    refine Nat.eq_of_testBit_eq (fun i => ?_)
    have hm : maskBits.testBit 63 = true := by decide
    have hl : bitLeaf.testBit i = decide (63 = i) := Nat.testBit_two_pow
    rw [bits, Nat.testBit_and, Nat.testBit_and, hl]
    by_cases hi : 63 = i
    · subst hi
      cases h : (n metaInfoIdx).testBit 63
      · simp
      · simp [hm, hl]
    · cases h : (n metaInfoIdx).testBit 63
      · simp [hi]
      · simp [hi, hl]
  rw [isLeaf, hb]
  cases (n metaInfoIdx).testBit 63 <;> simp [bitLeaf]

theorem isLeaf_setNumKeys (h : num < 2^32) : isLeaf (setNumKeys n num) = isLeaf n := by
  have hrest : (maxUint64-maskNumKeys).testBit 63 = true := by decide
  have hnum : num.testBit 63 = false := Nat.testBit_lt_two_pow (lt_of_lt_of_le h (by decide))
  rw [isLeaf_eq, isLeaf_eq, setNumKeys, setAt_same, Nat.testBit_or, Nat.testBit_and, hrest, hnum]
  simp

/-! ## What a node shows -/

def ShowsFrom (n : Node) (start : ℕ) (es : List (ℕ × ℕ)) : Prop :=
  ∀ i e, es[i]? = some e → key n (start+i) = e.1 ∧ val n (start+i) = e.2

structure Shows (n : Node) (es : List (ℕ × ℕ)) : Prop where
  count : numKeys n = es.length
  entries : ShowsFrom n 0 es
  blank : ∀ i, es.length ≤ i → i < maxKeys → key n i = 0

def header (n : Node) : ℕ × Bool := (pid n,isLeaf n)

theorem maxKeys_eq : maxKeys = 255 := rfl

section Reading
variable {n : Node} {es : List (ℕ × ℕ)} (h : Shows n es)
include h

theorem Shows.entry (i : ℕ) (e : ℕ × ℕ) (he : es[i]? = some e) : key n i = e.1 ∧ val n i = e.2 := by
  have := h.entries i e he
  rwa [Nat.zero_add] at this

theorem Shows.key_at (i : ℕ) (hi : i < es.length) : key n i = es[i].1 :=
  (h.entry i es[i] (List.getElem?_eq_getElem hi)).1

theorem Shows.key_lt (k i : ℕ) (hi : i < rank k es) : decide (k ≤ key n i) = false := by
  have hle := rank_le k es
  have := lt_rank k es i es[i] (List.getElem?_eq_getElem (by omega)) hi
  rw [h.key_at i (by omega)]
  simpa using this

theorem Shows.le_key (hs : Increasing es) (k i : ℕ) (hi : rank k es ≤ i) (hl : i < es.length) :
    decide (k ≤ key n i) = true := by
  rw [h.key_at i hl]
  simpa using rank_le_key k es hs i es[i] (List.getElem?_eq_getElem hl) hi

theorem Shows.linear (hs : Increasing es) (k : ℕ) :
    ((List.range (numKeys n)).find? (fun i => k ≤ key n i)).getD (numKeys n) = rank k es := by
  rw [h.count]
  rcases (rank_le k es).lt_or_eq with hlt | heq
  · have : (List.range es.length).find? (fun i => decide (k ≤ key n i)) = some (rank k es) := by
      rw [List.find?_range_eq_some]
      exact ⟨h.le_key hs k _ le_rfl hlt,by simpa using hlt,fun i hi => by simp [h.key_lt k i hi]⟩
    rw [this]
    rfl
  have : (List.range es.length).find? (fun i => decide (k ≤ key n i)) = none := by
    rw [List.find?_eq_none]
    intro i hi
    simp [h.key_lt k i (by rw [heq]; simpa using hi)]
  rw [this, heq]
  rfl

theorem Shows.binary (hs : Increasing es) (k : ℕ) :
    BinarySearch.search (numKeys n) (fun i => k ≤ key n i) = rank k es := by
  rw [h.count]
  exact BinarySearch.search_eq (rank_le k es) (h.key_lt k) (h.le_key hs k)

theorem Shows.search (hs : Increasing es) (k : ℕ) : searchNode n k = rank k es := by
  rw [searchNode]
  split
  · exact h.linear hs k
  · exact h.binary hs k

theorem Shows.get (hs : Increasing es) (k : ℕ) : getNode n k = (find k es).getD 0 := by
  rw [getNode, h.search hs, find_rank k es hs, h.count]
  rcases he : es[rank k es]? with _ | e
  · have hle := rank_le k es
    rw [List.getElem?_eq_none_iff] at he
    rw [if_pos (by omega)]
    rfl
  have hlt : rank k es < es.length := by
    by_contra hcon
    rw [List.getElem?_eq_none (by omega)] at he
    cases he
  obtain ⟨h1,h2⟩ := h.entry _ e he
  simp only [if_neg (ne_of_lt hlt), h1, h2, Option.bind_some]
  split <;> rfl

theorem Shows.maxKey {e : ℕ × ℕ} (he : es.getLast? = some e) : maxKey n = e.1 := by
  have hlen : 0 < es.length := by
    cases es with
    | nil => cases he
    | cons _ _ => simp
  rw [BTreeNode.maxKey, h.count, if_pos hlen]
  rw [List.getLast?_eq_getElem?] at he
  exact (h.entry _ e he).1

end Reading

/-! ## Writing an entry -/

section Moving
variable (n : Node) (lo : ℕ)

theorem key_moveRight {i : ℕ} (hi : i < maxKeys) : key (moveRight n lo) i =
    if lo < i ∧ i ≤ numKeys n then key n (i-1) else key n i := by
  rw [maxKeys_eq] at hi
  simp only [moveRight, key, copyWords, keyOffset, valOffset, metaOffset, maxKeys_eq]
  rw [if_neg (by omega)]
  by_cases hc : lo < i ∧ i ≤ numKeys n
  · rw [if_pos (by omega), if_pos hc]
    congr 1
    omega
  · rw [if_neg (by omega), if_neg hc]

theorem val_moveRight (h : numKeys n < maxKeys) (i : ℕ) : val (moveRight n lo) i =
    if lo < i ∧ i ≤ numKeys n then val n (i-1) else val n i := by
  rw [maxKeys_eq] at h
  simp only [moveRight, val, copyWords, keyOffset, valOffset, metaOffset, maxKeys_eq]
  by_cases hc : lo < i ∧ i ≤ numKeys n
  · rw [if_pos (by omega), if_pos hc, if_neg (by omega)]
    congr 1
    omega
  · rw [if_neg (by omega), if_neg hc, if_neg (by omega)]

theorem moveRight_meta {i : ℕ} (hi : i < metaOffset) : moveRight n lo i = n i := by
  have : i < 2 := hi
  simp only [moveRight, copyWords, keyOffset, valOffset, metaOffset]
  rw [if_neg (by omega), if_neg (by omega)]

end Moving

theorem key_setNumKeys {num i : ℕ} : key (setNumKeys n num) i = key n i :=
  setAt_other _ (by simp only [keyOffset, metaOffset, metaInfoIdx]; omega)

theorem val_setNumKeys {num i : ℕ} : val (setNumKeys n num) i = val n i :=
  setAt_other _ (by simp only [valOffset, metaOffset, metaInfoIdx]; omega)

theorem pid_setNumKeys : pid (setNumKeys n num) = pid n := by
  rfl

theorem header_setNumKeys (h : num < 2^32) : header (setNumKeys n num) = header n := by
  rw [header, header, pid_setNumKeys, isLeaf_setNumKeys n num h]

theorem meta_congr (n n' : Node) (h : ∀ i < metaOffset, n' i = n i) :
    header n' = header n ∧ numKeys n' = numKeys n := by
  have h0 : n' metaPidIdx = n metaPidIdx := h 0 (by decide)
  have h1 : n' metaInfoIdx = n metaInfoIdx := h 1 (by decide)
  refine ⟨?_,by rw [numKeys, numKeys, h1]⟩
  rw [header, header, pid, pid, h0, isLeaf_eq, isLeaf_eq, h1]

def writeEntry (n : Node) (i k v : ℕ) : Node := setAt (setAt n (keyOffset i) k) (valOffset i) v

theorem key_writeEntry {i k v j : ℕ} (hj : j < maxKeys) :
    key (writeEntry n i k v) j = if j = i then k else key n j := by
  rw [key, writeEntry, setAt_other _ (by simp only [keyOffset, valOffset]; omega)]
  split
  · rename_i he
    rw [he, setAt_same]
  · rw [setAt_other _ (by simp only [keyOffset]; omega)]
    rfl

theorem val_writeEntry {i k v j : ℕ} (hi : i < maxKeys) :
    val (writeEntry n i k v) j = if j = i then v else val n j := by
  rw [val, writeEntry]
  split
  · rename_i he
    rw [he, setAt_same]
  · rw [setAt_other _ (by simp only [valOffset]; omega),
      setAt_other _ (by simp only [keyOffset, valOffset]; omega)]
    rfl

theorem writeEntry_meta (i k v : ℕ) {j : ℕ} (hj : j < metaOffset) : writeEntry n i k v j = n j := by
  rw [writeEntry, setAt_other _ (by simp only [valOffset]; omega),
    setAt_other _ (by simp only [keyOffset]; omega)]

theorem getElem?_splice {α : Type} {es : List α} {x : α} {r d i : ℕ} (hr : r ≤ es.length) :
    (es.take r++x::es.drop (r+d))[i]? =
      if i < r then es[i]? else if i = r then some x else es[i-1+d]? := by
  have hl : (es.take r).length = r := by rw [length_take]; omega
  by_cases h1 : i < r
  · rw [if_pos h1, List.getElem?_append_left (by omega), List.getElem?_take_of_lt h1]
  rw [if_neg h1, List.getElem?_append_right (by omega), hl]
  by_cases h2 : i = r
  · simp [h2]
  · rw [if_neg h2, show i-r = (i-r-1)+1 by omega, List.getElem?_cons_succ, List.getElem?_drop]
    congr 1
    omega

theorem writeEntry_shows {n : Node} (m : Node) {es : List (ℕ × ℕ)} {r : ℕ} (d k v : ℕ) (h : Shows n es)
    (hr : r+d ≤ es.length) (hd : d ≤ 1) (hl : es.length+1-d ≤ maxKeys)
    (hc : numKeys m = es.length+1-d)
    (hlo : ∀ i < r, key m i = key n i ∧ val m i = val n i)
    (hhi : ∀ i, r < i → i < es.length+1-d → key m i = key n (i-1+d) ∧ val m i = val n (i-1+d))
    (hb : ∀ i, es.length+1-d ≤ i → i < maxKeys → key m i = 0) :
    Shows (writeEntry m r k v) (es.take r++(k,v)::es.drop (r+d)) := by
  have hlen : (es.take r++(k,v)::es.drop (r+d)).length = es.length+1-d := by
    simp only [length_append, length_take, length_cons, length_drop]
    omega
  refine ⟨?_,fun i e hi => ?_,fun i hi hx => ?_⟩
  · rw [(meta_congr m _ (fun i hi => writeEntry_meta m r k v hi)).2, hc, hlen]
  · have hil : i < es.length+1-d := by
      rw [← hlen]
      exact (List.getElem?_eq_some_iff.mp hi).1
    rw [getElem?_splice (by omega)] at hi
    rw [Nat.zero_add, key_writeEntry _ (by omega), val_writeEntry _ (by omega)]
    by_cases h1 : i < r
    · rw [if_pos h1] at hi
      rw [if_neg (by omega), if_neg (by omega), (hlo i h1).1, (hlo i h1).2]
      exact h.entry i e hi
    rw [if_neg h1] at hi
    by_cases h2 : i = r
    · rw [if_pos h2, Option.some.injEq] at hi
      rw [if_pos h2, if_pos h2, ← hi]
      exact ⟨rfl,rfl⟩
    · rw [if_neg h2] at hi
      rw [if_neg h2, if_neg h2, (hhi i (by omega) hil).1, (hhi i (by omega) hil).2]
      exact h.entry _ e hi
  · rw [hlen] at hi
    rw [key_writeEntry _ hx, if_neg (by omega)]
    exact hb i hi hx

theorem setNode_shows {es : List (ℕ × ℕ)} {k v : ℕ} (h : Shows n es)
    (hs : Increasing es) (hk : 0 < k) (hl : (put k v es).length ≤ maxKeys) :
    ∃ n', setNode n k v = some (n',if find k es = none then 1 else 0) ∧ Shows n' (put k v es) ∧
      header n' = header n := by
  have hr := rank_le k es
  have hm : maxKeys = 255 := rfl
  have hput := put_eq k v es hs
  have hfind := find_rank k es hs
  have hcount := h.count
  rw [length_put k v es hs] at hl
  rcases he : es[rank k es]? with _ | e
  · have hend : rank k es = es.length := by
      rw [List.getElem?_eq_none_iff] at he
      omega
    rw [he, Option.bind_none] at hfind
    rw [hfind, if_pos rfl] at hput hl
    have hki : key n (rank k es) = 0 := h.blank _ (by omega) (by omega)
    refine ⟨writeEntry (setNumKeys n (numKeys n+1)) (rank k es) k v,?_,?_,?_⟩
    · simp only [setNode, h.search hs, hki, hfind]
      simp [hk.ne, writeEntry]
    · rw [hput]
      refine writeEntry_shows _ 0 k v h (by omega) (by omega) (by omega)
        (by rw [numKeys_setNumKeys _ _ (by omega)]; omega) (fun i _ => ?_) (fun i h1 h2 => by omega)
        (fun i h1 h2 => ?_)
      · exact ⟨key_setNumKeys _,val_setNumKeys _⟩
      · rw [key_setNumKeys]
        exact h.blank i (by omega) h2
    · rw [(meta_congr _ _ (fun i hi => writeEntry_meta _ _ _ _ hi)).1,
        header_setNumKeys _ _ (by omega)]
  have hlt : rank k es < es.length := (List.getElem?_eq_some_iff.mp he).1
  have hki := (h.entry _ e he).1
  have hle := rank_le_key k es hs _ e he le_rfl
  rw [he, Option.bind_some] at hfind
  by_cases hek : e.1 = k
  · rw [if_pos hek] at hfind
    rw [hfind] at hput hl
    refine ⟨writeEntry n (rank k es) k v,?_,?_,?_⟩
    · simp only [setNode, h.search hs, hki, hfind, hek]
      simp [writeEntry]
    · rw [hput]
      exact writeEntry_shows n 1 k v h (by omega) le_rfl (by omega) (by omega)
        (fun i _ => ⟨rfl,rfl⟩) (fun i h1 h2 => by rw [show i-1+1 = i by omega]; exact ⟨rfl,rfl⟩)
        (fun i h1 h2 => h.blank i (by omega) h2)
    · exact (meta_congr _ _ (fun i hi => writeEntry_meta _ _ _ _ hi)).1
  rw [if_neg hek] at hfind
  rw [hfind, if_pos rfl] at hput hl
  have hmeta := meta_congr n (moveRight n (rank k es)) (fun i hi => moveRight_meta n _ hi)
  have hkey : ∀ i < maxKeys, key (setNumKeys (moveRight n (rank k es)) (numKeys n+1)) i =
      if rank k es < i ∧ i ≤ es.length then key n (i-1) else key n i := by
    intro i hi
    rw [key_setNumKeys, key_moveRight n _ hi, hcount]
  have hval : ∀ i, val (setNumKeys (moveRight n (rank k es)) (numKeys n+1)) i =
      if rank k es < i ∧ i ≤ es.length then val n (i-1) else val n i := by
    intro i
    rw [val_setNumKeys, val_moveRight n _ (by omega) i, hcount]
  refine ⟨writeEntry (setNumKeys (moveRight n (rank k es)) (numKeys n+1)) (rank k es) k v,
    ?_,?_,?_⟩
  · have hgt : k < e.1 := lt_of_le_of_ne hle (Ne.symm hek)
    simp only [setNode, h.search hs, hki, hfind, if_pos hgt, hmeta.2]
    simp [hek, hle, writeEntry]
  · rw [hput]
    refine writeEntry_shows _ 0 k v h (by omega) (by omega) (by omega)
      (by rw [numKeys_setNumKeys _ _ (by omega)]; omega) (fun i hi => ?_) (fun i h1 h2 => ?_)
      (fun i h1 h2 => ?_)
    · rw [hkey i (by omega), hval, if_neg (by omega), if_neg (by omega)]
      exact ⟨rfl,rfl⟩
    · rw [hkey i (by omega), hval, if_pos (by omega), if_pos (by omega)]
      exact ⟨rfl,rfl⟩
    · rw [hkey i h2, if_neg (by omega)]
      exact h.blank i (by omega) h2
  · rw [(meta_congr _ _ (fun i hi => writeEntry_meta _ _ _ _ hi)).1,
      header_setNumKeys _ _ (by omega), hmeta.1]

/-! ## Removing entries -/

section Compacting
variable (lo mk : ℕ)

def keeps (e : ℕ × ℕ) : Bool := lo ≤ e.2 ∨ mk ≤ e.1

theorem compactLoop_shows (n : Node) (rest right left : ℕ) (kept ds : List (ℕ × ℕ))
    (hd : ds.length = rest) (hk : kept.length = left) (hle : left ≤ right)
    (hmax : right+rest ≤ maxKeys) (h0 : ShowsFrom n 0 kept) (h1 : ShowsFrom n right ds) :
    (compactLoop lo mk rest right left n).2 = (kept++ds.filter (keeps lo mk)).length ∧
    ShowsFrom (compactLoop lo mk rest right left n).1 0 (kept++ds.filter (keeps lo mk)) ∧
    (∀ i < metaOffset, (compactLoop lo mk rest right left n).1 i = n i) ∧
    ∀ i, right+rest ≤ i → i < maxKeys → key (compactLoop lo mk rest right left n).1 i = key n i := by
  induction rest generalizing n right left kept ds with
  | zero =>
    rw [length_eq_zero_iff] at hd
    subst hd
    simp only [compactLoop, filter_nil, append_nil]
    exact ⟨hk.symm,h0,by simp,by simp⟩
  | succ rest ih =>
    rcases ds with _ | ⟨d,ds⟩
    · simp at hd
    have hd' : ds.length = rest := by simpa using hd
    obtain ⟨hkey,hval⟩ := h1 0 d rfl
    rw [Nat.add_zero] at hkey hval
    have hrest : ∀ m : Node, (∀ i, right < i → i < maxKeys → key m i = key n i ∧ val m i = val n i) →
        ShowsFrom m (right+1) ds := by
      intro m hm i e hi
      have hil := (List.getElem?_eq_some_iff.mp hi).1
      obtain ⟨ha,hb⟩ := hm (right+1+i) (by omega) (by omega)
      rw [ha, hb, show right+1+i = right+(i+1) by omega]
      exact h1 (i+1) e (by simpa using hi)
    by_cases hdrop : d.2 < lo ∧ d.1 < mk
    · have hstep : compactLoop lo mk (rest+1) right left n = compactLoop lo mk rest (right+1) left n := by
        rw [compactLoop, hkey, hval, if_pos hdrop]
      have hf : (d::ds).filter (keeps lo mk) = ds.filter (keeps lo mk) :=
        filter_cons_of_neg (by simp only [keeps, decide_eq_true_eq]; omega)
      rw [hstep, hf]
      obtain ⟨r1,r2,r3,r4⟩ := ih n (right+1) left kept ds hd' hk (by omega) (by omega) h0
        (hrest n (fun _ _ _ => ⟨rfl,rfl⟩))
      exact ⟨r1,r2,r3,fun i hi => r4 i (by omega)⟩
    have hf : (d::ds).filter (keeps lo mk) = d::ds.filter (keeps lo mk) :=
      filter_cons_of_pos (by simp only [keeps, decide_eq_true_eq]; omega)
    let m := if left ≠ right then writeEntry n left d.1 d.2 else n
    have hstep : compactLoop lo mk (rest+1) right left n =
        compactLoop lo mk rest (right+1) (left+1) m := by
      have hv : val (setAt n (keyOffset left) d.1) right = d.2 := by
        rw [← hval, val, setAt_other _ (by simp only [keyOffset, valOffset]; omega)]
        rfl
      rw [compactLoop, hkey, hval, if_neg hdrop]
      simp only [hv]
      rfl
    have hmk : ∀ i < maxKeys, i ≠ left → key m i = key n i ∧ val m i = val n i := by
      intro i hi hne
      simp only [m]
      split
      · rw [key_writeEntry _ hi, val_writeEntry _ (by omega), if_neg hne, if_neg hne]
        exact ⟨rfl,rfl⟩
      · exact ⟨rfl,rfl⟩
    have hml : key m left = d.1 ∧ val m left = d.2 := by
      simp only [m]
      split
      · rw [key_writeEntry _ (by omega), val_writeEntry _ (by omega), if_pos rfl,
          if_pos rfl]
        exact ⟨rfl,rfl⟩
      · rename_i he
        rw [not_not.mp he]
        exact ⟨hkey,hval⟩
    have hshow : ShowsFrom m 0 (kept++[d]) := by
      intro i e hi
      rw [Nat.zero_add]
      by_cases hil : i < left
      · rw [List.getElem?_append_left (by omega)] at hi
        obtain ⟨ha,hb⟩ := hmk i (by omega) (by omega)
        rw [ha, hb]
        simpa using h0 i e hi
      rw [List.getElem?_append_right (by omega), hk] at hi
      have hi0 : i = left := by
        have := (List.getElem?_eq_some_iff.mp hi).1
        simp at this
        omega
      rw [hi0, Nat.sub_self] at hi
      cases hi
      rw [hi0]
      exact hml
    rw [hstep, hf]
    obtain ⟨r1,r2,r3,r4⟩ := ih m (right+1) (left+1) (kept++[d]) ds hd' (by simp [hk]) (by omega)
      (by omega) hshow (hrest m (fun i hi hx => hmk i hx (by omega)))
    rw [append_assoc] at r1 r2
    refine ⟨r1,r2,fun i hi => ?_,fun i hi hx => ?_⟩
    · rw [r3 i hi]
      simp only [m]
      split
      · exact writeEntry_meta _ _ _ _ hi
      · rfl
    · rw [r4 i (by omega) hx]
      exact (hmk i hx (by omega)).1

end Compacting

def remaining (lo mk : ℕ) (es : List (ℕ × ℕ)) : ℕ := match es with
  | [e] => if e.1 = mk ∧ e.2 < lo then 0 else 1
  | es => es.length

theorem compactNode_shows (lo : ℕ) {n : Node} {es : List (ℕ × ℕ)} (h : Shows n es)
    (hl : es.length ≤ maxKeys) : Shows (compactNode lo n).1 (es.filter (keeps lo (maxKey n))) ∧
    (compactNode lo n).2 = remaining lo (maxKey n) (es.filter (keeps lo (maxKey n))) ∧
    header (compactNode lo n).1 = header n := by
  have hm : maxKeys = 255 := rfl
  obtain ⟨r1,r2,r3,r4⟩ := compactLoop_shows lo (maxKey n) n (numKeys n) 0 0 [] es h.count.symm rfl
    le_rfl (by rw [h.count]; omega) (fun i e hi => by simp at hi) h.entries
  rw [nil_append] at r1 r2
  have hle : (es.filter (keeps lo (maxKey n))).length ≤ es.length := length_filter_le _ _
  generalize hpass : compactLoop lo (maxKey n) (numKeys n) 0 0 n = pass at r1 r2 r3 r4
  generalize hfl : es.filter (keeps lo (maxKey n)) = left at r1 r2 hle ⊢
  let blank := zeroOut (zeroOut pass.1 (keyOffset pass.2) (keyOffset (numKeys n))) (valOffset pass.2)
    (valOffset (numKeys n))
  have hdef : compactNode lo n = (setNumKeys blank pass.2,if pass.2 = 1 ∧
      key (setNumKeys blank pass.2) 0 = maxKey n ∧ val (setNumKeys blank pass.2) 0 < lo then 0
      else pass.2) := by
    simp only [compactNode, hpass]
    rfl
  have hcount := h.count
  have hkey : ∀ i < maxKeys, key (setNumKeys blank pass.2) i =
      if pass.2 ≤ i ∧ i < es.length then 0 else key pass.1 i := by
    intro i hi
    rw [key_setNumKeys]
    simp only [blank, key, zeroOut, keyOffset, valOffset, metaOffset, hm, hcount]
    rw [if_neg (by omega)]
    by_cases hc : pass.2 ≤ i ∧ i < es.length
    · rw [if_pos (by omega), if_pos hc]
    · rw [if_neg (by omega), if_neg hc]
  have hval : ∀ i < pass.2, val (setNumKeys blank pass.2) i = val pass.1 i := by
    intro i hi
    rw [val_setNumKeys]
    simp only [blank, val, zeroOut, keyOffset, valOffset, metaOffset, hm, hcount]
    rw [if_neg (by omega), if_neg (by omega)]
  have hshows : ShowsFrom (setNumKeys blank pass.2) 0 left := by
    intro i e hi
    have hil := (List.getElem?_eq_some_iff.mp hi).1
    rw [Nat.zero_add, hkey i (by omega), hval i (by omega), if_neg (by omega)]
    simpa using r2 i e hi
  have hmeta : ∀ i < metaOffset, blank i = n i := by
    intro i hi
    have : i < 2 := hi
    simp only [blank, zeroOut, keyOffset, valOffset, metaOffset]
    rw [if_neg (by omega), if_neg (by omega)]
    exact r3 i hi
  rw [hdef]
  refine ⟨⟨by rw [numKeys_setNumKeys _ _ (by omega), r1],hshows,fun i hi hx => ?_⟩,?_,?_⟩
  · rw [hkey i hx]
    split
    · rfl
    · rw [r4 i (by omega) hx]
      exact h.blank i (by omega) hx
  · simp only [r1]
    rcases left with _ | ⟨e,_ | ⟨e',left⟩⟩
    · rfl
    · obtain ⟨h1,h2⟩ := hshows 0 e rfl
      rw [r1] at h1 h2
      simp only [length_singleton] at h1 h2 ⊢
      simp only [h1, h2, remaining, true_and]
    · simp [remaining]
  · rw [header_setNumKeys _ _ (by omega), (meta_congr _ _ hmeta).1]

end GoCommon.BTreeNode
