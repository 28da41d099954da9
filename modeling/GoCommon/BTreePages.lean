import GoCommon.BTree

/-!
# Pages of the B+ tree

Every page beyond the root is either used by a node or a member of the free
list. New nodes come from the free list or from the end of the buffer, and a
full node is split into two nodes that show its entries one after the other.
-/

set_option autoImplicit false

namespace GoCommon.BTreePages
open List Function SortedEntries BTreeNode BTree

def Linked (pages : ℕ → Node) : ℕ → List ℕ → Prop
  | p, [] => p = 0
  | p, q::fl => p = q ∧ 0 < q ∧ Linked pages (pages q 0) fl

theorem linked_congr (pages pages' : ℕ → Node) (p : ℕ) (fl : List ℕ)
    (h : ∀ q ∈ fl, pages' q = pages q) (hl : Linked pages p fl) : Linked pages' p fl := by
  induction fl generalizing p with
  | nil => exact hl
  | cons q fl ih =>
    obtain ⟨h1,h2,h3⟩ := hl
    refine ⟨h1,h2,?_⟩
    rw [h q (by simp)]
    exact ih _ (fun r hr => h r (by simp [hr])) h3

structure Pool (t : PageTree) (used fl : List ℕ) : Prop where
  linked : Linked t.pages t.freePage fl
  pages : (used++fl).Perm (List.range' 2 (t.nextPage-2))
  start : 2 ≤ t.nextPage
  room : pageSize*t.nextPage ≤ t.size
  count : t.numPagesFree = fl.length

theorem write_pages (t : PageTree) (p : ℕ) (n : Node) (q : ℕ) :
    (t.write p n).pages q = if q = p then n else t.pages q := update_apply ..

section Facts
variable {t : PageTree} {used fl : List ℕ} (h : Pool t used fl)
include h

theorem Pool.nodup : (used++fl).Nodup := h.pages.nodup_iff.mpr nodup_range'

theorem Pool.bounds (p : ℕ) (hp : p ∈ used++fl) : 2 ≤ p ∧ p < t.nextPage := by
  have := h.pages.mem_iff.mp hp
  rw [mem_range'_1] at this
  omega

theorem Pool.node (p : ℕ) (hp : p = 1 ∨ p ∈ used++fl) : t.node p = .ok (t.pages p) := by
  have hb : 1 ≤ p ∧ p < t.nextPage := by
    rcases hp with rfl | hp
    · exact ⟨le_rfl,h.start⟩
    · have := h.bounds p hp
      omega
  have hm : pageSize*p+pageSize ≤ t.size := by
    have h1 : pageSize*(p+1) ≤ pageSize*t.nextPage := Nat.mul_le_mul_left _ hb.2
    have h2 := h.room
    rw [Nat.mul_add] at h1
    omega
  rw [PageTree.node, if_neg (by omega), if_pos hm]

theorem Pool.write (p : ℕ) (n : Node) (hp : p ∉ fl) : Pool (t.write p n) used fl := by
  refine ⟨linked_congr t.pages _ _ fl (fun q hq => ?_) h.linked,h.pages,h.start,h.room,h.count⟩
  rw [write_pages, if_neg (by rintro rfl; exact hp hq)]

theorem Pool.root_not_free : 1 ∉ fl := fun hm => by
  have := h.bounds 1 (by simp [hm])
  omega

theorem Pool.used_not_free (p : ℕ) (hp : p ∈ used) : p ∉ fl := fun hm =>
  (nodup_append.mp h.nodup).2.2 p hp p hm rfl

theorem Pool.reorder {used' : List ℕ} (hp : used'.Perm used) : Pool t used' fl :=
  ⟨h.linked,(hp.append_right fl).trans h.pages,h.start,h.room,h.count⟩

theorem Pool.counters (keys : ℤ) : Pool { t with numLeafKeys := keys } used fl :=
  ⟨h.linked,h.pages,h.start,h.room,h.count⟩

end Facts

/-! ## New pages -/

variable {n : Node} {t : PageTree} {es : List (ℕ × ℕ)}

theorem clear_words {bit p i : ℕ} (hi : i < pageWords) : PageTree.clear n bit p i =
    if i = metaPidIdx then p else if i = metaInfoIdx then bit else 0 := by
  rw [PageTree.clear]
  by_cases h0 : i = metaPidIdx
  · rw [h0, setAt_same, if_pos rfl]
  rw [setAt_other _ h0, if_neg h0, setBit]
  by_cases h1 : i = metaInfoIdx
  · have hz : zeroOut n 0 pageWords metaInfoIdx = 0 := if_pos ⟨Nat.zero_le _,by decide⟩
    rw [h1, setAt_same, if_pos rfl, hz, Nat.zero_or]
  · rw [setAt_other _ h1, if_neg h1, zeroOut, if_pos ⟨Nat.zero_le _,hi⟩]

def FlagsOnly (bit : ℕ) : Prop := bit &&& maskNumKeys = 0

theorem bits_flags : FlagsOnly (bits n) := by
  have h : maskBits &&& maskNumKeys = 0 := by decide
  rw [FlagsOnly, bits, Nat.and_assoc, h, Nat.and_zero]

theorem clear_shows (n : Node) (bit p : ℕ) (hb : FlagsOnly bit) : Shows (PageTree.clear n bit p) [] ∧
    header (PageTree.clear n bit p) = (p,bit.testBit 63) := by
  have hinfo : PageTree.clear n bit p metaInfoIdx = bit := by
    rw [clear_words (by decide)]
    rfl
  refine ⟨⟨?_,fun i e hi => by simp at hi,fun i _ hi => ?_⟩,?_⟩
  · rw [numKeys, hinfo]
    exact hb
  · have : i < 255 := hi
    rw [key, clear_words (by simp only [keyOffset, metaOffset, pageWords, pageSize]; omega),
      if_neg (by simp only [keyOffset, metaOffset, metaPidIdx]; omega),
      if_neg (by simp only [keyOffset, metaOffset, metaInfoIdx]; omega)]
  · rw [header, isLeaf_eq, hinfo, pid, clear_words (by decide), if_pos rfl]

structure NewPage (bit : ℕ) (t t' : PageTree) (used : List ℕ) (q : ℕ) : Prop where
  pool : ∃ fl, Pool t' (q::used) fl
  pages : t'.pages = update t.pages q (PageTree.clear (t.pages q) bit q)
  keys : t'.numLeafKeys = t.numLeafKeys

variable {used fl : List ℕ}

theorem newNode_page (bit : ℕ) (h : Pool t used fl) :
    ∃ t' q, t.newNode bit = .ok (t',q) ∧ NewPage bit t t' used q := by
  rcases fl with _ | ⟨q,fl⟩
  · have hz : t.freePage = 0 := h.linked
    let grown : PageTree := { t with
      nextPage := t.nextPage+1
      size := max t.size (t.nextPage*pageSize+pageSize) }
    have hroom : pageSize*(t.nextPage+1) ≤ max t.size (t.nextPage*pageSize+pageSize) := by
      rw [Nat.mul_add, Nat.mul_comm pageSize]
      exact le_max_right _ _
    have hstart := h.start
    have hperm : (t.nextPage::used++[]).Perm (List.range' 2 (t.nextPage+1-2)) := by
      rw [show t.nextPage+1-2 = t.nextPage-2+1 by omega, range'_concat,
        show 2+1*(t.nextPage-2) = t.nextPage by omega, append_nil]
      have := h.pages
      rw [append_nil] at this
      exact (List.Perm.cons _ this).trans (perm_append_singleton _ _).symm
    have hpool : Pool grown (t.nextPage::used) [] := ⟨hz,hperm,by simp only [grown]; omega,hroom,h.count⟩
    refine ⟨grown.write t.nextPage (PageTree.clear (t.pages t.nextPage) bit t.nextPage),t.nextPage,?_,
      ⟨[],hpool.write _ _ (by simp)⟩,rfl,rfl⟩
    rw [PageTree.newNode, if_neg (by omega)]
    have hn := hpool.node t.nextPage (by simp)
    simp only [grown] at hn
    simp only [hn, bind, Except.bind]
    rfl
  obtain ⟨hq,hpos,hl⟩ := h.linked
  have hn := h.node q (by simp)
  have hnd := h.nodup
  rw [nodup_append] at hnd
  have hfl : q ∉ fl := (nodup_cons.mp hnd.2.1).1
  refine ⟨{ t.write q (PageTree.clear (t.pages q) bit q) with
    freePage := t.pages q 0
    numPagesFree := t.numPagesFree-1 },q,?_,⟨fl,?_,?_,h.start,h.room,?_⟩,rfl,rfl⟩
  · rw [PageTree.newNode, if_pos (by omega), hq, hn]
    rfl
  · refine linked_congr t.pages _ _ fl (fun r hr => ?_) hl
    rw [write_pages, if_neg (by rintro rfl; exact hfl hr)]
  · exact perm_middle.symm.trans h.pages
  have := h.count
  simp only [length_cons] at this ⊢
  omega

theorem free_page {p : ℕ} (h : Pool t (p::used) fl) :
    ∃ t', t.free p = .ok t' ∧ Pool t' used (p::fl) ∧
      t'.pages = update t.pages p (setAt (t.pages p) 0 t.freePage) ∧
      t'.numLeafKeys = t.numLeafKeys := by
  have hn := h.node p (by simp)
  have hb := h.bounds p (by simp)
  have hfl := h.used_not_free p (by simp)
  refine ⟨{ t.write p (setAt (t.pages p) 0 t.freePage) with
    freePage := p
    numPagesFree := t.numPagesFree+1 },?_,⟨⟨rfl,by omega,?_⟩,?_,h.start,h.room,?_⟩,rfl,rfl⟩
  · rw [PageTree.free, hn]
    rfl
  · have hp : (t.write p (setAt (t.pages p) 0 t.freePage)).pages p 0 = t.freePage := by
      rw [write_pages, if_pos rfl, setAt_same]
    rw [hp]
    refine linked_congr t.pages _ _ fl (fun r hr => ?_) h.linked
    rw [write_pages, if_neg (by rintro rfl; exact hfl hr)]
  · exact perm_middle.trans h.pages
  have := h.count
  simp only [length_cons]
  omega

/-! ## Splitting -/

theorem split_left_shows (h : Shows n es) (hl : es.length = maxKeys) :
    Shows (setNumKeys (zeroOut (zeroOut n (keyOffset (maxKeys/2)) (keyOffset maxKeys))
      (valOffset (maxKeys/2)) (valOffset maxKeys)) (maxKeys/2)) (es.take (maxKeys/2)) ∧
    header (setNumKeys (zeroOut (zeroOut n (keyOffset (maxKeys/2)) (keyOffset maxKeys))
      (valOffset (maxKeys/2)) (valOffset maxKeys)) (maxKeys/2)) = header n := by
  have hm : maxKeys = 255 := rfl
  refine ⟨⟨?_,fun i e hi => ?_,fun i hi hx => ?_⟩,?_⟩
  · rw [numKeys_setNumKeys _ _ (by decide), length_take]
    omega
  · have hil := (List.getElem?_eq_some_iff.mp hi).1
    rw [length_take] at hil
    rw [List.getElem?_take_of_lt (by omega)] at hi
    rw [Nat.zero_add, key_setNumKeys, val_setNumKeys, key, val]
    simp only [zeroOut, keyOffset, valOffset, metaOffset, hm]
    rw [if_neg (by omega), if_neg (by omega), if_neg (by omega), if_neg (by omega)]
    exact h.entry i e hi
  · rw [length_take] at hi
    rw [key_setNumKeys, key]
    simp only [zeroOut, keyOffset, valOffset, metaOffset, hm]
    rw [if_neg (by omega), if_pos (by omega)]
  rw [header_setNumKeys _ _ (by decide)]
  refine (meta_congr _ _ (fun i hi => ?_)).1
  have : i < 2 := hi
  simp only [zeroOut, keyOffset, valOffset, metaOffset, hm]
  rw [if_neg (by omega), if_neg (by omega)]

theorem split_right_shows {nn : Node} (h : Shows n es)
    (hl : es.length = maxKeys) (hnn : Shows nn []) :
    Shows (setNumKeys (copyWords (copyWords nn (keyOffset 0) (keyOffset (maxKeys-maxKeys/2)) n
      (keyOffset (maxKeys/2))) (valOffset 0) (valOffset (maxKeys-maxKeys/2)) n (valOffset (maxKeys/2)))
      (maxKeys-maxKeys/2)) (es.drop (maxKeys/2)) ∧
    header (setNumKeys (copyWords (copyWords nn (keyOffset 0) (keyOffset (maxKeys-maxKeys/2)) n
      (keyOffset (maxKeys/2))) (valOffset 0) (valOffset (maxKeys-maxKeys/2)) n (valOffset (maxKeys/2)))
      (maxKeys-maxKeys/2)) = header nn := by
  have hm : maxKeys = 255 := rfl
  refine ⟨⟨?_,fun i e hi => ?_,fun i hi hx => ?_⟩,?_⟩
  · rw [numKeys_setNumKeys _ _ (by decide), length_drop]
    omega
  · have hil := (List.getElem?_eq_some_iff.mp hi).1
    rw [length_drop] at hil
    rw [List.getElem?_drop] at hi
    obtain ⟨h1,h2⟩ := h.entry _ e hi
    rw [key_setNumKeys, val_setNumKeys, ← h1, ← h2, key, val, key, val]
    simp only [copyWords, keyOffset, valOffset, metaOffset, hm]
    refine ⟨?_,?_⟩
    · rw [if_neg (by omega), if_pos (by omega)]
      exact congrArg n (by omega)
    · rw [if_pos (by omega)]
      exact congrArg n (by omega)
  · rw [length_drop] at hi
    have hb := hnn.blank i (Nat.zero_le _) hx
    rw [key_setNumKeys, key]
    simp only [copyWords, keyOffset, valOffset, metaOffset, hm] at hb ⊢
    rw [if_neg (by omega), if_neg (by omega)]
    exact hb
  rw [header_setNumKeys _ _ (by decide)]
  refine (meta_congr _ _ (fun i hi => ?_)).1
  have : i < 2 := hi
  simp only [copyWords, keyOffset, valOffset, metaOffset, hm]
  rw [if_neg (by omega), if_neg (by omega)]

structure Halved (t t' : PageTree) (used : List ℕ) (es : List (ℕ × ℕ)) (p q : ℕ) : Prop where
  pool : ∃ fl, Pool t' (q::used) fl
  fresh : q ≠ p
  left : Shows (t'.pages p) (es.take (maxKeys/2)) ∧ header (t'.pages p) = header (t.pages p)
  right : Shows (t'.pages q) (es.drop (maxKeys/2)) ∧ header (t'.pages q) = (q,(header (t.pages p)).2)
  others : ∀ r, r ≠ p → r ≠ q → t'.pages r = t.pages r
  keys : t'.numLeafKeys = t.numLeafKeys

theorem split_halves (p : ℕ) (h : Pool t used fl)
    (hp : p = 1 ∨ p ∈ used) (hs : Shows (t.pages p) es) (hl : es.length = maxKeys) :
    ∃ t' q, t.split p = .ok (t',q) ∧ Halved t t' used es p q := by
  have hn := h.node p (hp.imp id (fun hp => mem_append_left _ hp))
  obtain ⟨t1,q,hnew,⟨fl1,hpool⟩,hpages,hkeys⟩ := newNode_page (bits (t.pages p)) h
  have hq := hpool.bounds q (by simp)
  have hnd := hpool.nodup
  rw [cons_append, nodup_cons] at hnd
  have hne : q ≠ p := by
    rcases hp with rfl | hp
    · omega
    · exact fun he => hnd.1 (by simp [he, hp])
  have hp1 : t1.pages p = t.pages p := by rw [hpages, update_of_ne hne.symm]
  have hq1 : t1.pages q = PageTree.clear (t.pages q) (bits (t.pages p)) q := by
    rw [hpages, update_self]
  obtain ⟨hclear,hhead⟩ := clear_shows (t.pages q) (bits (t.pages p)) q (bits_flags)
  have hleaf : (bits (t.pages p)).testBit 63 = isLeaf (t.pages p) := by
    have hm : maskBits.testBit 63 = true := by decide
    rw [isLeaf_eq, bits, Nat.testBit_and, hm, Bool.and_true]
  have hnp := hpool.node p (hp.imp id (fun hp => by simp [hp]))
  have hnq := hpool.node q (by simp)
  rw [hp1] at hnp
  rw [hq1] at hnq
  obtain ⟨l1,l2⟩ := split_left_shows hs hl
  obtain ⟨r1,r2⟩ := split_right_shows hs hl hclear
  have hfull : isFull (t.pages p) = true := by
    rw [isFull, hs.count, hl]
    rfl
  have hpf : p ∉ fl1 := by
    rcases hp with rfl | hp
    · exact hpool.root_not_free
    · exact hpool.used_not_free p (by simp [hp])
  refine ⟨_,q,by
    rw [PageTree.split, hn]
    simp only [bind, Except.bind, hfull, not_true, if_false, hnew, hnp, hnq]
    rfl,⟨fl1,(hpool.write q _ (hpool.used_not_free q (by simp))).write p _ hpf⟩,hne,?_,?_,?_,hkeys⟩
  · rw [write_pages, if_pos rfl]
    exact ⟨l1,l2⟩
  · rw [write_pages, if_neg hne, write_pages, if_pos rfl]
    refine ⟨r1,?_⟩
    rw [r2, hhead, hleaf]
    rfl
  · intro r h1 h2
    rw [write_pages, if_neg h1, write_pages, if_neg h2, hpages, update_of_ne h2]

/-! ## Nodes by their words -/

def pairs (n : Node) : List (ℕ × ℕ) := (List.range (numKeys n)).map (fun i => (key n i,val n i))

structure Proper (n : Node) : Prop where
  count : numKeys n ≤ maxKeys
  positive : ∀ i < numKeys n, 0 < key n i
  increasing : ∀ i j, i < j → j < numKeys n → key n i < key n j
  zeros : ∀ i, numKeys n ≤ i → i < maxKeys → key n i = 0 ∧ val n i = 0

theorem length_pairs : (pairs n).length = numKeys n := by rw [pairs, length_map, length_range]

theorem Proper.shows (h : Proper n) : Shows n (pairs n) := by
  refine ⟨length_pairs.symm,fun i e hi => ?_,fun i hi hx => (h.zeros i (by rwa [← length_pairs]) hx).1⟩
  obtain ⟨hlt,rfl⟩ := List.getElem?_eq_some_iff.mp hi
  simp only [pairs, getElem_map, getElem_range, Nat.zero_add, and_self]

theorem shows_pairs (h : Shows n es) : pairs n = es := by
  refine List.ext_getElem (by rw [length_pairs, h.count]) (fun i _ hi => ?_)
  obtain ⟨hkey,hval⟩ := h.entry i es[i] (List.getElem?_eq_getElem hi)
  simp only [pairs, getElem_map, getElem_range, hkey, hval]

theorem Proper.sorted (h : Proper n) : Increasing (pairs n) := by
  rw [Increasing, pairs, pairwise_map]
  exact pairwise_lt_range.imp_of_mem fun _ hj hlt => h.increasing _ _ hlt (mem_range.mp hj)

theorem proper_of_shows (h : Shows n es) (hs : Increasing es) (hl : es.length ≤ maxKeys)
    (hpos : ∀ e ∈ es, 0 < e.1) (hv : ∀ i, es.length ≤ i → i < maxKeys → val n i = 0) : Proper n := by
  refine ⟨by rwa [h.count],fun i hi => ?_,fun i j hij hj => ?_,fun i hi hx => ?_⟩
  · rw [h.count] at hi
    rw [h.key_at i hi]
    exact hpos _ (getElem_mem hi)
  · rw [h.count] at hj
    rw [h.key_at i (by omega), h.key_at j hj]
    exact pairwise_iff_getElem.mp hs i j (by omega) hj hij
  · rw [h.count] at hi
    exact ⟨h.blank i hi hx,hv i hi hx⟩

theorem setNode_values {n' : Node} {k v added : ℕ} (h : Proper n) (hroom : numKeys n < maxKeys)
    (hset : setNode n k v = some (n',added)) (hcount : numKeys n' = numKeys n+added)
    (hidx : searchNode n k < numKeys n') {i : ℕ} (hi : numKeys n' ≤ i) (hx : i < maxKeys) :
    val n' i = 0 := by
  have hzero := (h.zeros i (by omega) hx).2
  simp only [setNode] at hset
  split at hset
  · rw [Option.some.injEq, Prod.mk.injEq] at hset
    obtain ⟨rfl,hadded⟩ := hset
    change val (writeEntry _ _ _ _) i = 0
    rw [val_writeEntry _ (by omega), if_neg (by omega)]
    have hmoved : val (if k < key n (searchNode n k) then moveRight n (searchNode n k) else n) i = 0 := by
      split
      · rename_i hlt
        rw [if_pos hlt.ne'] at hadded
        rw [val_moveRight n _ hroom, if_neg (by omega), hzero]
      · exact hzero
    split
    · rw [val_setNumKeys, hmoved]
    · exact hmoved
  · cases hset

/-! ## Accesses in range

The operations once more, each with the words and slices of the page that it reads or writes
on its way; one that is not in the page is a result of none. -/

def inPage {α : Type} (spans : List (ℕ × ℕ)) (x : Option α) : Option α :=
  if ∀ s ∈ spans, s.1 ≤ s.2 ∧ s.2 ≤ pageWords then x else none

def word (i : ℕ) : ℕ × ℕ := (i,i+1)

def linearIn (n : Node) (k : ℕ) : ℕ → ℕ → Option ℕ
  | 0, i => some i
  | rest+1, i => inPage [word (keyOffset i)] (if k ≤ key n i then some i else linearIn n k rest (i+1))

def binaryIn (n : Node) (k : ℕ) : ℕ → ℕ → ℕ → Option ℕ
  | 0, lo, _ => some lo
  | fuel+1, lo, hi => if lo < hi then
      inPage [word (keyOffset ((lo+hi)/2))] (if k ≤ key n ((lo+hi)/2) then binaryIn n k fuel lo ((lo+hi)/2)
        else binaryIn n k fuel ((lo+hi)/2+1) hi)
    else some lo

def searchIn (n : Node) (k : ℕ) : Option ℕ :=
  inPage [word metaInfoIdx] (if numKeys n < 4 then linearIn n k (numKeys n) 0
    else binaryIn n k (numKeys n) 0 (numKeys n))

def moveSpans (n : Node) (lo : ℕ) : List (ℕ × ℕ) :=
  let hi := numKeys n
  [(keyOffset (lo+1),keyOffset (hi+1)),(keyOffset lo,keyOffset hi),
    (valOffset (lo+1),valOffset (hi+1)),(valOffset lo,valOffset hi)]

def setIn (n : Node) (k v : ℕ) : Option (Node × ℕ) := (searchIn n k).bind fun idx =>
  inPage [word (keyOffset idx)] (inPage (if k < key n idx then moveSpans n idx else [])
    (inPage [word (keyOffset idx),word (valOffset idx)] (setNode n k v)))

def compactLoopIn (lo mk : ℕ) : ℕ → ℕ → ℕ → Node → Option (Node × ℕ)
  | 0, _, left, n => some (n,left)
  | rest+1, right, left, n => inPage [word (valOffset right),word (keyOffset right)]
    (if val n right < lo ∧ key n right < mk then compactLoopIn lo mk rest (right+1) left n
    else
      let keyed := setAt n (keyOffset left) (key n right)
      let copied := if left ≠ right then setAt keyed (valOffset left) (val keyed right) else n
      inPage (if left ≠ right then [word (keyOffset left),word (valOffset left)] else [])
        (compactLoopIn lo mk rest (right+1) (left+1) copied))

def compactIn (lo : ℕ) (n : Node) : Option (Node × ℕ) :=
  inPage [word (keyOffset (if 0 < numKeys n then numKeys n-1 else numKeys n))]
    ((compactLoopIn lo (maxKey n) (numKeys n) 0 0 n).bind fun pass =>
      inPage [(keyOffset pass.2,keyOffset (numKeys n)),(valOffset pass.2,valOffset (numKeys n)),
        word (keyOffset 0),word (valOffset 0)] (some (compactNode lo n)))

def splitSpans : List (ℕ × ℕ) :=
  [(keyOffset 0,pageWords),(keyOffset (maxKeys/2),keyOffset maxKeys),
    (valOffset 0,pageWords),(valOffset (maxKeys/2),valOffset maxKeys)]

theorem inPage_eq {α : Type} {spans : List (ℕ × ℕ)} {x : Option α}
    (h : ∀ s ∈ spans, s.1 ≤ s.2 ∧ s.2 ≤ pageWords) : inPage spans x = x := if_pos h

theorem keyOffset_eq (i : ℕ) : keyOffset i = 2+i := rfl

theorem valOffset_eq (i : ℕ) : valOffset i = 257+i := rfl

theorem page_layout : maxKeys = 255 ∧ pageWords = 512 ∧ (∀ i, keyOffset i = 2+i) ∧
    ∀ i, valOffset i = 257+i := ⟨maxKeys_eq,rfl,keyOffset_eq,valOffset_eq⟩

theorem linearIn_eq (n : Node) (k rest i : ℕ) (h : i+rest ≤ maxKeys) : linearIn n k rest i =
    some (((List.range' i rest).find? (fun j => k ≤ key n j)).getD (i+rest)) := by
  have hmax := maxKeys_eq
  induction rest generalizing i with
  | zero => simp [linearIn]
  | succ rest ih =>
    rw [linearIn, inPage_eq (by simp [word, keyOffset_eq, pageWords, pageSize]; omega),
      List.range'_succ]
    by_cases hk : k ≤ key n i
    · simp [hk]
    · rw [ih (i+1) (by omega)]
      simp [hk, Nat.add_comm 1 rest, Nat.add_assoc]

theorem binaryIn_eq (n : Node) (k fuel lo hi : ℕ) (h : hi ≤ maxKeys) : binaryIn n k fuel lo hi =
    some (BinarySearch.searchLoop (fun i => k ≤ key n i) fuel lo hi) := by
  have hmax := maxKeys_eq
  induction fuel generalizing lo hi with
  | zero => rfl
  | succ fuel ih =>
    rw [binaryIn, BinarySearch.searchLoop]
    by_cases hlt : lo < hi
    · rw [if_pos hlt, if_pos hlt,
        inPage_eq (by simp [word, keyOffset_eq, pageWords, pageSize]; omega)]
      by_cases hk : k ≤ key n ((lo+hi)/2)
      · rw [if_pos hk, ih _ _ (by omega), if_pos (by simpa using hk)]
      · rw [if_neg hk, ih _ _ (by omega), if_neg (by simpa using hk)]
    · rw [if_neg hlt, if_neg hlt]

theorem searchIn_eq (n : Node) (k : ℕ) (h : numKeys n ≤ maxKeys) :
    searchIn n k = some (searchNode n k) := by
  rw [searchIn, inPage_eq (by decide), searchNode]
  split
  · rw [linearIn_eq n k _ 0 (by omega), List.range_eq_range', Nat.zero_add]
  · exact binaryIn_eq n k _ 0 _ h

theorem setIn_eq (n : Node) (k v : ℕ) (h : numKeys n < maxKeys) (hidx : searchNode n k ≤ numKeys n) :
    setIn n k v = setNode n k v := by
  obtain ⟨hmax,hwords,hkey,hval⟩ := page_layout
  rw [setIn, searchIn_eq n k h.le, Option.bind_some, inPage_eq, inPage_eq, inPage_eq]
  · simp [word, hkey, hval]
    omega
  · intro s hs
    split at hs
    · simp only [moveSpans, hkey, hval, mem_cons, not_mem_nil, or_false] at hs
      rcases hs with rfl | rfl | rfl | rfl <;> dsimp only <;> omega
    · cases hs
  · simp [word, hkey]
    omega

theorem compactLoopIn_eq (lo mk rest right left : ℕ) (n : Node) (h : right+rest ≤ maxKeys)
    (hle : left ≤ right) : compactLoopIn lo mk rest right left n =
      some (compactLoop lo mk rest right left n) ∧
        (compactLoop lo mk rest right left n).2 ≤ left+rest := by
  obtain ⟨hmax,hwords,hkey,hval⟩ := page_layout
  induction rest generalizing right left n with
  | zero => exact ⟨rfl,le_rfl⟩
  | succ rest ih =>
    rw [compactLoopIn, compactLoop, inPage_eq (by simp [word, hkey, hval]; omega)]
    by_cases hskip : val n right < lo ∧ key n right < mk
    · rw [if_pos hskip, if_pos hskip]
      obtain ⟨h1,h2⟩ := ih (right+1) left n (by omega) (by omega)
      exact ⟨h1,by omega⟩
    · rw [if_neg hskip, if_neg hskip]
      dsimp only
      rw [inPage_eq]
      · obtain ⟨h1,h2⟩ := ih (right+1) (left+1) (if left ≠ right then
          setAt (setAt n (keyOffset left) (key n right)) (valOffset left)
            (val (setAt n (keyOffset left) (key n right)) right) else n) (by omega) (by omega)
        exact ⟨h1,by omega⟩
      · split
        · simp [word, hkey, hval]
          omega
        · simp

theorem compactIn_eq (lo : ℕ) (n : Node) (h : numKeys n ≤ maxKeys) :
    compactIn lo n = some (compactNode lo n) := by
  obtain ⟨hmax,hwords,hkey,hval⟩ := page_layout
  obtain ⟨hloop,hleft⟩ := compactLoopIn_eq lo (maxKey n) (numKeys n) 0 0 n (by omega) le_rfl
  rw [compactIn, hloop, Option.bind_some, inPage_eq, inPage_eq]
  · simp [word, hkey, hval]
    omega
  · simp [word, hkey]
    split <;> omega

theorem Proper.set (h : Proper n) (hroom : numKeys n < maxKeys) {k : ℕ} (v : ℕ) (hk : 0 < k) :
    ∃ n' added, setIn n k v = some (n',added) ∧ Proper n' ∧ numKeys n' = numKeys n+added ∧ added ≤ 1 ∧
      ∀ j, find j (pairs n') = if k = j then some v else find j (pairs n) := by
  have hs := h.shows
  have hsort := h.sorted
  have hlen : (pairs n).length = numKeys n := length_pairs
  have hput := length_put k v (pairs n) hsort
  have hadded : (if find k (pairs n) = none then 1 else 0) ≤ 1 := by split <;> decide
  obtain ⟨n',hset,hshows,_⟩ := setNode_shows n hs hsort hk (v := v) (by omega)
  have hcount : numKeys n' = numKeys n+if find k (pairs n) = none then 1 else 0 := by
    rw [hshows.count, hput, hlen]
  have hidx : searchNode n k ≤ numKeys n := by
    rw [hs.search hsort]
    exact (rank_le k (pairs n)).trans hlen.le
  refine ⟨n',_,(setIn_eq n k v hroom hidx).trans hset,?_,hcount,hadded,
    fun j => by rw [shows_pairs hshows, find_put]⟩
  refine proper_of_shows hshows (put_increasing k v _ hsort) (by omega) (fun e he => ?_)
    (fun i hi hx => setNode_values h hroom hset hcount ?_ (by rwa [hshows.count]) hx)
  · rcases mem_put k v _ he with rfl | he
    · exact hk
    · obtain ⟨i,hi,rfl⟩ := mem_map.mp he
      exact h.positive i (mem_range.mp hi)
  have hle := rank_le k (pairs n)
  rw [hs.search hsort, hcount]
  split
  · omega
  rename_i hfind
  by_contra hend
  rw [find_rank k _ hsort, List.getElem?_eq_none (by omega)] at hfind
  exact hfind rfl

theorem Proper.compact (h : Proper n) (lo : ℕ) : pairs (compactNode lo n).1 =
    (pairs n).filter (fun e => lo ≤ e.2 ∨ ∀ d ∈ pairs n, d.1 ≤ e.1) := by
  rw [shows_pairs (compactNode_shows lo h.shows (by rw [length_pairs]; exact h.count)).1]
  refine filter_congr (fun e he => ?_)
  obtain ⟨i,hi,rfl⟩ := mem_map.mp he
  rw [mem_range] at hi
  rw [keeps, decide_eq_decide, maxKey, if_pos (by omega)]
  refine or_congr_right ⟨fun hmax d hd => ?_,fun hall => ?_⟩
  · obtain ⟨j,hj,rfl⟩ := mem_map.mp hd
    rw [mem_range] at hj
    rcases Nat.lt_or_ge j (numKeys n-1) with hlt | hge
    · exact (h.increasing j _ hlt (by omega)).le.trans hmax
    · rwa [show j = numKeys n-1 by omega]
  · exact hall _ (mem_map.mpr ⟨numKeys n-1,mem_range.mpr (by omega),rfl⟩)

/-- The place of a key is that of the first key that is not smaller, or behind them all, and
both ways to search find it. A new pair takes its place among the others or replaces the one
with its key. A full node is split in two, and only pairs with small values go, except for
the one with the largest key. No access is out of the range of the page. -/
theorem node_operations (n : Node) (h : Proper n) (hroom : numKeys n < maxKeys) :
    (∀ k, searchIn n k = some (searchNode n k) ∧ (∀ i < searchNode n k, key n i < k) ∧
      searchNode n k ≤ numKeys n ∧
      (searchNode n k < numKeys n → k ≤ key n (searchNode n k)) ∧
      ((List.range (numKeys n)).find? (fun i => k ≤ key n i)).getD (numKeys n) =
        BinarySearch.search (numKeys n) (fun i => k ≤ key n i)) ∧
    (∀ k v, 0 < k → ∃ n' added, setIn n k v = some (n',added) ∧ Proper n' ∧
      numKeys n' = numKeys n+added ∧ added ≤ 1 ∧
      ∀ j, find j (pairs n') = if k = j then some v else find j (pairs n)) ∧
    (∀ s ∈ splitSpans, s.1 ≤ s.2 ∧ s.2 ≤ pageWords) ∧
    (∀ t used fl p, Pool t used fl → p = 1 ∨ p ∈ used → Proper (t.pages p) →
      numKeys (t.pages p) = maxKeys → ∃ t' q, t.split p = .ok (t',q) ∧ q ≠ p ∧
        pairs (t'.pages p)++pairs (t'.pages q) = pairs (t.pages p) ∧
        numKeys (t'.pages p) = maxKeys/2 ∧ numKeys (t'.pages q) = maxKeys-maxKeys/2) ∧
    ∀ lo, ∃ n' left, compactIn lo n = some (n',left) ∧
      pairs n' = (pairs n).filter (fun e => lo ≤ e.2 ∨ ∀ d ∈ pairs n, d.1 ≤ e.1) := by
  have hs := h.shows
  have hsort := h.sorted
  refine ⟨fun k => ?_,fun k v hk => h.set hroom v hk,by decide,fun t used fl p hpool hp hkept hfull => ?_,
    fun lo => ⟨_,_,compactIn_eq lo n hroom.le,h.compact lo⟩⟩
  · have hlen : (pairs n).length = numKeys n := length_pairs
    have hle := rank_le k (pairs n)
    refine ⟨searchIn_eq n k hroom.le,fun i hi => ?_,?_,fun hlt => ?_,(hs.linear hsort k).trans (hs.binary hsort k).symm⟩
    · rw [hs.search hsort] at hi
      exact not_le.mp (of_decide_eq_false (hs.key_lt k i hi))
    · rw [hs.search hsort]
      omega
    · rw [hs.search hsort] at hlt ⊢
      exact of_decide_eq_true (hs.le_key hsort k _ le_rfl (by omega))
  obtain ⟨t',q,hsplit,hhalved⟩ := split_halves p hpool hp hkept.shows (by rw [length_pairs, hfull])
  refine ⟨t',q,hsplit,hhalved.fresh,?_,?_,?_⟩
  · rw [shows_pairs hhalved.left.1, shows_pairs hhalved.right.1, take_append_drop]
  · rw [hhalved.left.1.count, length_take, length_pairs, hfull]
    rfl
  · rw [hhalved.right.1.count, length_drop, length_pairs, hfull]

def fivePairs : Node := fun i =>
  if i = metaInfoIdx then bitLeaf+5 else if 2 ≤ i ∧ i < 7 then 2*(i-1) else
    if 257 ≤ i ∧ i < 262 then i%3 else 0

def fullLeaf : PageTree where
  pages := fun _ i => if i = metaInfoIdx then bitLeaf+255 else if 2 ≤ i ∧ i < 257 then i-1 else
    if 257 ≤ i then i else 0
  size := 3*pageSize
  nextPage := 3
  freePage := 0
  numLeafKeys := 255
  numPagesFree := 0

instance (n : Node) : Decidable (Proper n) := decidable_of_iff (numKeys n ≤ maxKeys ∧
    (∀ i < numKeys n, 0 < key n i) ∧ (∀ j < numKeys n, ∀ i < j, key n i < key n j) ∧
    ∀ i < maxKeys, numKeys n ≤ i → key n i = 0 ∧ val n i = 0)
  ⟨fun h => ⟨h.1,h.2.1,fun i j hij hj => h.2.2.1 j hj i hij,fun i hi hm => h.2.2.2 i hm hi⟩,
    fun h => ⟨h.count,h.positive,fun j hj i hij => h.increasing i j hij hj,
      fun i hm hi => h.zeros i hi hm⟩⟩

/-- The pairs behind the third are moved, one of five is removed, and a full page is split. -/
theorem five_pairs_operations : Proper fivePairs ∧
    (∃ n' added, setIn fivePairs 5 7 = some (n',added) ∧ Proper n' ∧ numKeys n' = 5+added ∧
      find 5 (pairs n') = some 7 ∧ find 10 (pairs n') = find 10 (pairs fivePairs)) ∧
    (∃ n' left, compactIn 1 fivePairs = some (n',left) ∧ pairs n' = [(2,2),(6,1),(8,2),(10,0)]) ∧
    ∃ t' q, fullLeaf.split 2 = .ok (t',q) ∧
      pairs (t'.pages 2)++pairs (t'.pages q) = pairs (fullLeaf.pages 2) ∧
      numKeys (t'.pages 2) = 127 ∧ numKeys (t'.pages q) = 128 := by
  have hkept : Proper fivePairs := by decide +kernel
  obtain ⟨_,hset,_,hsplit,hcompact⟩ := node_operations fivePairs hkept (by decide +kernel)
  obtain ⟨n',added,h1,h2,h3,_,h5⟩ := hset 5 7 (by decide)
  obtain ⟨n2,left,h6,h7⟩ := hcompact 1
  obtain ⟨t',q,h8,_,h9,h10,h11⟩ := hsplit fullLeaf [2] [] 2
    ⟨rfl,by decide,by decide,by decide,rfl⟩ (.inr (by simp)) (by decide +kernel) (by decide +kernel)
  refine ⟨hkept,⟨n',added,h1,h2,?_,by rw [h5, if_pos rfl],by rw [h5, if_neg (by decide)]⟩,
    ⟨n2,left,h6,?_⟩,t',q,h8,h9,h10,h11⟩
  · rw [h3]
    exact congrArg (·+added) (by decide +kernel)
  · rw [h7]
    decide +kernel

end GoCommon.BTreePages
