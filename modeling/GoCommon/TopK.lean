import Mathlib.Algebra.Order.Ring.Rat
import Mathlib.Data.Set.Function
import Mathlib.Data.List.GetD
import Mathlib.Data.List.Nodup
import GoCommon.BinaryHeap
import GoCommon.StepRuns

/-!
# The most frequent items

Rows of cells count items; a cell belongs to the item whose hash it has, loses counts to
others at random and changes its owner when it has none left. The largest count of an item
goes to a heap of items with the smallest count at its root. The items of the heap are kept
by address: the heap lists addresses, a map finds them by their value, and every item
knows its place on the heap. A result of none stands for a panic.
-/

set_option autoImplicit false

namespace GoCommon.TopK
open List Function BinaryHeap StepRuns

def defaultDepth : ℕ := 7
def defaultDecay : ℚ := 9/10

structure Node where
  fp : ℕ
  count : ℕ

structure HeapItem where
  val : String
  count : ℕ
  index : ℤ

/-! ## The heap of items -/

structure Store where
  objs : ℕ → HeapItem
  heap : List ℕ

namespace Store

def count (s : Store) (i : ℕ) : ℕ := (s.objs (s.heap.getD i 0)).count

def less (i j : ℕ) (s : Store) : Bool := s.count i < s.count j

def setIndex (a : ℕ) (index : ℤ) (objs : ℕ → HeapItem) : ℕ → HeapItem :=
  update objs a { objs a with index := index }

def setCount (a count : ℕ) (s : Store) : Store :=
  ⟨update s.objs a { s.objs a with count := count },s.heap⟩

def swap (i j : ℕ) (s : Store) : Store :=
  let a := s.heap.getD i 0
  let b := s.heap.getD j 0
  ⟨setIndex a j (setIndex b i s.objs),(s.heap.set i b).set j a⟩

def push (a : ℕ) (s : Store) : Store := ⟨setIndex a s.heap.length s.objs,s.heap++[a]⟩

def pop (s : Store) : Option (ℕ × Store) :=
  s.heap.getLast?.map (fun a => (a,⟨setIndex a (-1) s.objs,s.heap.dropLast⟩))

def heapPush (a : ℕ) (s : Store) : Store := up less swap s.heap.length (s.push a)

def heapPop (s : Store) : Option (ℕ × Store) :=
  let n := s.heap.length-1
  (down less swap 0 n (s.swap 0 n)).1.pop

def heapFix (i : ℕ) (s : Store) : Store := fix less swap i s.heap.length s

end Store

structure HeavyKeepers where
  k : ℕ
  width : ℕ
  depth : ℕ
  decay : ℚ
  rows : ℕ → ℕ → Node
  store : Store
  fresh : ℕ
  items : String → Option ℕ

def new (k width depth : ℕ) (decay : ℚ) : HeavyKeepers where
  k := k
  width := width
  depth := if depth = 0 then defaultDepth else depth
  decay := if decay = 0 then defaultDecay else decay
  rows := fun _ _ => ⟨0,0⟩
  store := ⟨fun _ => ⟨"",0,0⟩,[]⟩
  fresh := 0
  items := fun _ => none

structure Hashes where
  sum64 : String → ℕ
  hash64WithSeed : String → ℕ → ℕ

def powLoop : ℕ → ℚ → ℕ → ℚ → ℚ
  | 0, _, _, result => result
  | fuel+1, base, exp, result =>
    if exp = 0 then result
    else powLoop fuel (base*base) (exp/2) (if exp%2 = 1 then result*base else result)

def fastDecayPow (base : ℚ) (exp : ℕ) : ℚ := powLoop 64 base exp 1

def addCell (fp : ℕ) (decays : ℕ → Bool) (cell : Node) (maxCount : ℕ) : Node × ℕ :=
  if cell.count = 0 then (⟨fp,1⟩,if maxCount < 1 then 1 else maxCount)
  else if cell.fp = fp then
    let count := (cell.count+1)%2^64
    (⟨cell.fp,count⟩,if maxCount < count then count else maxCount)
  else if decays cell.count then
    if cell.count-1 = 0 then (⟨fp,1⟩,if maxCount < 1 then 1 else maxCount)
    else (⟨cell.fp,cell.count-1⟩,maxCount)
  else (cell,maxCount)

def addLoop (hs : Hashes) (item : String) (draws : ℕ → ℚ) (width : ℕ) (decay : ℚ) :
    ℕ → ℕ → (ℕ → ℕ → Node) → ℕ → Option ((ℕ → ℕ → Node) × ℕ)
  | 0, _, rows, maxCount => some (rows,maxCount)
  | rest+1, i, rows, maxCount =>
    if width = 0 then none
    else
      let idx := hs.hash64WithSeed item i%width
      let decays := fun count => decide (draws i < fastDecayPow decay count)
      let r := addCell (hs.sum64 item) decays (rows i idx) maxCount
      addLoop hs item draws width decay rest (i+1)
        (update rows i (update (rows i) idx r.1)) r.2

def insertItem (val : String) (count : ℕ) (hk : HeavyKeepers) : HeavyKeepers :=
  let objs := update hk.store.objs hk.fresh ⟨val,count,0⟩
  { hk with
    store := Store.heapPush hk.fresh ⟨objs,hk.store.heap⟩
    fresh := hk.fresh+1
    items := update hk.items val (some hk.fresh) }

def updateHeap (val : String) (count : ℕ) (hk : HeavyKeepers) : Option HeavyKeepers :=
  match hk.items val with
  | some a =>
    let item := hk.store.objs a
    if item.count < count then
      some { hk with store := (hk.store.setCount a count).heapFix item.index.toNat }
    else some hk
  | none =>
    if hk.store.heap.length < hk.k then some (insertItem val count hk)
    else do
      let root ← hk.store.heap[0]?
      if (hk.store.objs root).count < count then do
        let (removed,store) ← hk.store.heapPop
        some (insertItem val count { hk with
          store := store
          items := update hk.items (store.objs removed).val none })
      else some hk

def add (hs : Hashes) (item : String) (draws : ℕ → ℚ) (hk : HeavyKeepers) :
    Option HeavyKeepers := do
  let (rows,maxCount) ← addLoop hs item draws hk.width hk.decay hk.depth 0 hk.rows 0
  updateHeap item maxCount { hk with rows := rows }

/-! ## Cells -/

def Owned (hs : Hashes) (added : List String) (cell : Node) : Prop :=
  cell.count = 0 ∨ ∃ x ∈ added, cell.fp = hs.sum64 x ∧ cell.count ≤ added.count x

variable {s : Store} {added : List String}

theorem Owned.cons {hs : Hashes} {cell : Node} (h : Owned hs added cell)
    (item : String) : Owned hs (item::added) cell := by
  rcases h with h | ⟨x,hx,hfp,hcount⟩
  · exact Or.inl h
  · exact Or.inr ⟨x,mem_cons_of_mem _ hx,hfp,hcount.trans count_le_count_cons⟩

theorem owned_new (hs : Hashes) (added : List String) (item : String) :
    Owned hs (item::added) ⟨hs.sum64 item,1⟩ := by
  refine Or.inr ⟨item,mem_cons_self,rfl,?_⟩
  rw [count_cons_self]
  exact Nat.le_add_left _ _

theorem addCell_owned {hs : Hashes} {item : String} {cell : Node}
    (hinj : Set.InjOn hs.sum64 {x | x ∈ item::added}) (h : Owned hs added cell) (decays : ℕ → Bool)
    {maxCount : ℕ} (hmax : maxCount ≤ (item::added).count item) :
    Owned hs (item::added) (addCell (hs.sum64 item) decays cell maxCount).1 ∧
      (addCell (hs.sum64 item) decays cell maxCount).2 ≤ (item::added).count item := by
  have hone : 1 ≤ (item::added).count item := by
    rw [count_cons_self]
    exact Nat.le_add_left _ _
  have hfirst : (if maxCount < 1 then 1 else maxCount) ≤ (item::added).count item := by
    split
    · exact hone
    · exact hmax
  rw [addCell]
  by_cases hzero : cell.count = 0
  · rw [if_pos hzero]
    exact ⟨owned_new hs added item,hfirst⟩
  rw [if_neg hzero]
  obtain ⟨x,hx,hfp,hcount⟩ := h.resolve_left hzero
  by_cases hown : cell.fp = hs.sum64 item
  · obtain rfl : x = item :=
      hinj (mem_cons_of_mem _ hx) mem_cons_self (hfp.symm.trans hown)
    have hle : (cell.count+1)%2^64 ≤ (x::added).count x := by
      rw [count_cons_self]
      exact (Nat.mod_le _ _).trans (Nat.add_le_add_right hcount 1)
    rw [if_pos hown]
    refine ⟨Or.inr ⟨x,mem_cons_self,hfp,hle⟩,?_⟩
    dsimp only
    split
    · exact hle
    · exact hmax
  rw [if_neg hown]
  by_cases hdecays : decays cell.count = true
  · rw [if_pos hdecays]
    by_cases hlast : cell.count-1 = 0
    · rw [if_pos hlast]
      exact ⟨owned_new hs added item,hfirst⟩
    rw [if_neg hlast]
    have hless : Owned hs added ⟨cell.fp,cell.count-1⟩ :=
      Or.inr ⟨x,hx,hfp,(Nat.sub_le _ _).trans hcount⟩
    exact ⟨hless.cons item,hmax⟩
  · rw [if_neg hdecays]
    exact ⟨h.cons item,hmax⟩

theorem addLoop_owned {hs : Hashes} {item : String}
    (hinj : Set.InjOn hs.sum64 {x | x ∈ item::added}) (draws : ℕ → ℚ) {width : ℕ}
    (hwidth : 1 ≤ width) (decay : ℚ) (rest i : ℕ) (rows : ℕ → ℕ → Node) {maxCount : ℕ}
    (hrows : ∀ j idx, Owned hs (item::added) (rows j idx) ∧ (i ≤ j → Owned hs added (rows j idx)))
    (hmax : maxCount ≤ (item::added).count item) :
    ∃ rows' maxCount',
      addLoop hs item draws width decay rest i rows maxCount = some (rows',maxCount') ∧
      (∀ j idx, Owned hs (item::added) (rows' j idx)) ∧ maxCount' ≤ (item::added).count item := by
  induction rest generalizing i rows maxCount with
  | zero => exact ⟨rows,maxCount,rfl,fun j idx => (hrows j idx).1,hmax⟩
  | succ rest ih =>
    obtain ⟨hcell,hmax'⟩ := addCell_owned hinj ((hrows i (hs.hash64WithSeed item i%width)).2 le_rfl)
      (fun count => draws i < fastDecayPow decay count) hmax
    rw [addLoop, if_neg (by omega)]
    apply ih
    · intro j idx
      rw [update_apply]
      split
      · rename_i hj
        subst hj
        refine ⟨?_,fun hle => absurd hle (by omega)⟩
        rw [update_apply]
        split
        · exact hcell
        · exact (hrows j idx).1
      · exact ⟨(hrows j idx).1,fun hle => (hrows j idx).2 (by omega)⟩
    · exact hmax'

/-! ## Moves on the heap -/

section SetIndex
variable (a x : ℕ) (index : ℤ) (objs : ℕ → HeapItem)

theorem setIndex_val : (Store.setIndex a index objs x).val = (objs x).val := by
  rw [Store.setIndex, update_apply]
  split
  · rename_i h
    rw [h]
  · rfl

theorem setIndex_count : (Store.setIndex a index objs x).count = (objs x).count := by
  rw [Store.setIndex, update_apply]
  split
  · rename_i h
    rw [h]
  · rfl

theorem setIndex_self : (Store.setIndex a index objs a).index = index := by
  rw [Store.setIndex, update_self]

theorem setIndex_other (h : x ≠ a) : (Store.setIndex a index objs x).index = (objs x).index := by
  rw [Store.setIndex, update_of_ne h]

end SetIndex

theorem count_at {i a : ℕ} (h : s.heap[i]? = some a) : s.count i = (s.objs a).count := by
  rw [Store.count, getD_eq_getElem?_getD, h]
  rfl

theorem place_inj {l : List ℕ} (h : l.Nodup) {i j a : ℕ} (hi : l[i]? = some a)
    (hj : l[j]? = some a) : i = j :=
  (List.getElem?_inj (List.getElem?_eq_some_iff.mp hi).1 h).mp (hi.trans hj.symm)

theorem getElem?_getD {l : List ℕ} {i : ℕ} (h : i < l.length) : l[i]? = some (l.getD i 0) := by
  rw [List.getElem?_eq_getElem h, getD_eq_getElem l 0 h]

theorem swap_at {i j : ℕ} (hi : i < s.heap.length) (hj : j < s.heap.length) (k : ℕ) :
    (s.swap i j).heap[k]? = swapped (fun k => s.heap[k]?) i j k := by
  by_cases hkj : k = j
  · rw [hkj, swapped_right, Store.swap, List.getElem?_set_self (by rwa [length_set])]
    exact (getElem?_getD hi).symm
  rw [Store.swap, List.getElem?_set_ne (Ne.symm hkj)]
  by_cases hki : k = i
  · rw [hki, swapped_left, List.getElem?_set_self hi]
    exact (getElem?_getD hj).symm
  · rw [List.getElem?_set_ne (Ne.symm hki)]
    exact (swapped_other _ hki hkj).symm

theorem swap_val (s : Store) (i j x : ℕ) : ((s.swap i j).objs x).val = (s.objs x).val := by
  rw [Store.swap, setIndex_val, setIndex_val]

theorem swap_count (s : Store) (i j x : ℕ) : ((s.swap i j).objs x).count = (s.objs x).count := by
  rw [Store.swap, setIndex_count, setIndex_count]

theorem count_swap {i j : ℕ} (hi : i < s.heap.length) (hj : j < s.heap.length) :
    (s.swap i j).count = swapped s.count i j := by
  funext k
  rw [Store.count, swap_count, getD_eq_getElem?_getD, swap_at hi hj, swapped, swapped]
  split
  · rfl
  split
  · rfl
  · rfl

def Placed (s : Store) : Prop := ∀ (j : ℕ) (a : ℕ), s.heap[j]? = some a → (s.objs a).index = j

theorem swap_placed (hs : Placed s) (hnodup : s.heap.Nodup) {i j : ℕ}
    (hi : i < s.heap.length) (hj : j < s.heap.length) : Placed (s.swap i j) := by
  intro k a hk
  rw [swap_at hi hj] at hk
  by_cases hkj : k = j
  · rw [hkj, swapped_right, getElem?_getD hi] at hk
    rw [hkj, Store.swap, ← Option.some.inj hk, setIndex_self]
  by_cases hki : k = i
  · rw [hki, swapped_left] at hk
    have hne : a ≠ s.heap.getD i 0 := by
      intro heq
      rw [heq] at hk
      exact hkj (hki.trans (place_inj hnodup (getElem?_getD hi) hk))
    rw [getElem?_getD hj] at hk
    rw [hki, Store.swap, setIndex_other _ _ _ _ hne, ← Option.some.inj hk, setIndex_self]
  rw [swapped_other _ hki hkj] at hk
  have hne : ∀ m, m < s.heap.length → k ≠ m → a ≠ s.heap.getD m 0 := by
    intro m hm hkm heq
    rw [heq] at hk
    exact hkm (place_inj hnodup hk (getElem?_getD hm))
  rw [Store.swap, setIndex_other _ _ _ _ (hne i hi hki), setIndex_other _ _ _ _ (hne j hj hkj)]
  exact hs k a hk

structure Moved (n : ℕ) (t s : Store) : Prop where
  perm : s.heap.Perm t.heap
  beyond : ∀ j, n ≤ j → s.heap[j]? = t.heap[j]?
  val : ∀ x, (s.objs x).val = (t.objs x).val
  count : ∀ x, (s.objs x).count = (t.objs x).count
  placed : Placed s

theorem Moved.refl {t : Store} (h : Placed t) (n : ℕ) : Moved n t t :=
  ⟨List.Perm.refl _,fun _ _ => rfl,fun _ => rfl,fun _ => rfl,h⟩

theorem Moved.swap {n : ℕ} {t s : Store} (h : Moved n t s) (hnodup : t.heap.Nodup)
    (hn : n ≤ t.heap.length) {i j : ℕ} (hi : i < n) (hj : j < n) : Moved n t (s.swap i j) := by
  have hlen := h.perm.length_eq
  have hi' : i < s.heap.length := by omega
  have hj' : j < s.heap.length := by omega
  refine ⟨List.Perm.trans ?_ h.perm,fun k hk => ?_,fun x => (swap_val s i j x).trans (h.val x),
    fun x => (swap_count s i j x).trans (h.count x),
    swap_placed h.placed (h.perm.nodup_iff.mpr hnodup) hi' hj'⟩
  · rw [Store.swap, getD_eq_getElem _ _ hi', getD_eq_getElem _ _ hj']
    exact set_set_perm hi' hj'
  · rw [swap_at hi' hj', swapped_other _ (by omega) (by omega)]
    exact h.beyond k hk

section Sifts
variable {n : ℕ} {t : Store} (hn : n ≤ t.heap.length)
include hn

theorem moved_key (i j : ℕ) (s : Store) (hi : i < n) (hj : j < n) (h : Moved n t s) :
    (s.swap i j).count = swapped s.count i j := by
  have hlen := h.perm.length_eq
  exact count_swap (by omega) (by omega)

variable (hnodup : t.heap.Nodup)
include hnodup

theorem up_moved (ht : Placed t) {j : ℕ} (hj : j < n) (horder : UpOrder t.count n j) :
    Moved n t (up Store.less Store.swap j t) ∧ Heaped (up Store.less Store.swap j t).count n :=
  up_restores (fun _ _ _ => rfl) (fun _ _ _ hi hj h => h.swap hnodup hn hi hj)
    (moved_key hn) t hj (Moved.refl ht n) horder

theorem down_moved (ht : Placed t) {i : ℕ} (horder : DownOrder t.count n i) :
    Moved n t (down Store.less Store.swap i n t).1 ∧
      Heaped (down Store.less Store.swap i n t).1.count n :=
  down_restores (fun _ _ _ => rfl) (fun _ _ _ hi hj h => h.swap hnodup hn hi hj)
    (moved_key hn) t (Moved.refl ht n) horder

theorem fix_moved (ht : Placed t) {i : ℕ} (hi : i < n) (horder : DownOrder t.count n i) :
    Moved n t (fix Store.less Store.swap i n t) ∧
      Heaped (fix Store.less Store.swap i n t).count n :=
  fix_restores (fun _ _ _ => rfl) (fun _ _ _ hi hj h => h.swap hnodup hn hi hj)
    (moved_key hn) t hi (Moved.refl ht n) horder

end Sifts

/-! ## Operations of the heap -/

structure Standing (s : Store) : Prop where
  nodup : s.heap.Nodup
  placed : Placed s
  ordered : Heaped s.count s.heap.length

structure Same (t s : Store) : Prop where
  val : ∀ x, (s.objs x).val = (t.objs x).val
  count : ∀ x, (s.objs x).count = (t.objs x).count

theorem Moved.standing {n : ℕ} {t s : Store} (h : Moved n t s) (hnodup : t.heap.Nodup)
    (hn : n = t.heap.length) (horder : Heaped s.count n) : Standing s :=
  ⟨h.perm.nodup_iff.mpr hnodup,h.placed,by rwa [h.perm.length_eq, ← hn]⟩

theorem push_below (a : ℕ) {i : ℕ} (hi : i < s.heap.length) : (s.push a).count i = s.count i := by
  rw [Store.count, Store.push, setIndex_count, getD_append _ _ _ _ hi]
  rfl

theorem push_placed (hs : Placed s) {a : ℕ} (ha : a ∉ s.heap) : Placed (s.push a) := by
  intro j x hj
  rw [Store.push] at hj ⊢
  rcases Nat.lt_or_ge j s.heap.length with hlt | hge
  · rw [List.getElem?_append_left hlt] at hj
    have hne : x ≠ a := fun heq => ha (heq ▸ mem_of_getElem? hj)
    rw [setIndex_other _ _ _ _ hne]
    exact hs j x hj
  rw [List.getElem?_append_right hge, List.getElem?_singleton] at hj
  split at hj
  · rw [← Option.some.inj hj, setIndex_self]
    omega
  · cases hj

theorem heapPush_spec (hs : Standing s) {a : ℕ} (ha : a ∉ s.heap) :
    Standing (s.heapPush a) ∧ (s.heapPush a).heap.Perm (a::s.heap) ∧ Same s (s.heapPush a) := by
  have hnodup : (s.push a).heap.Nodup :=
    nodup_append_comm.mp (nodup_cons.mpr ⟨ha,hs.nodup⟩)
  have hlen : (s.push a).heap.length = s.heap.length+1 := length_append
  have horder : UpOrder (s.push a).count (s.heap.length+1) s.heap.length := by
    constructor
    · intro c hpos hc hne
      have hp : parent c < c := by rw [parent]; omega
      rw [push_below a (by omega), push_below a (by omega)]
      exact hs.ordered c hpos (by omega)
    · intro _ c hpos hc hp
      rw [parent] at hp
      omega
  obtain ⟨hmoved,hordered⟩ :=
    up_moved hlen.ge hnodup (push_placed hs.placed ha) (Nat.lt_succ_self _) horder
  exact ⟨hmoved.standing hnodup hlen.symm hordered,hmoved.perm.trans perm_append_comm,
    fun x => (hmoved.val x).trans (setIndex_val _ _ _ _),
    fun x => (hmoved.count x).trans (setIndex_count _ _ _ _)⟩

section SetCount
variable {s : Store} (hs : Standing s) {i a count : ℕ} (hi : s.heap[i]? = some a)

theorem setCount_at {a count x : ℕ} : (s.setCount a count).objs x =
    if x = a then { s.objs a with count := count } else s.objs x :=
  update_apply _ _ _ _

include hs

theorem setCount_placed : Placed (s.setCount a count) := by
  intro j x hj
  rw [setCount_at]
  split
  · rename_i heq
    rw [heq] at hj
    exact hs.placed j a hj
  · exact hs.placed j x hj

include hi

theorem setCount_other {j : ℕ} (hj : j < s.heap.length) (hne : j ≠ i) :
    (s.setCount a count).count j = s.count j := by
  have hx := getElem?_getD hj
  have hxa : s.heap.getD j 0 ≠ a := by
    intro heq
    rw [heq] at hx
    exact hne (place_inj hs.nodup hx hi)
  rw [Store.count, setCount_at]
  exact congrArg HeapItem.count (if_neg hxa)

theorem setCount_order (hcount : (s.objs a).count < count) :
    DownOrder (s.setCount a count).count s.heap.length i := by
  have hlt : i < s.heap.length := (List.getElem?_eq_some_iff.mp hi).1
  have hself : s.count i ≤ (s.setCount a count).count i := by
    rw [count_at hi, @count_at (s.setCount a count) i a hi, setCount_at, if_pos rfl]
    exact hcount.le
  constructor
  · intro c hpos hc hne
    have hp : parent c < c := by rw [parent]; omega
    rw [setCount_other hs hi (by omega) hne]
    apply (hs.ordered c hpos hc).trans
    by_cases hci : c = i
    · rw [hci]
      exact hself
    · rw [setCount_other hs hi hc hci]
  intro hpos c hpos' hc hp
  have hci : c ≠ i := by
    rw [parent] at hp
    omega
  have hpi : parent i < i := by rw [parent]; omega
  rw [setCount_other hs hi hc hci, setCount_other hs hi (by omega) hpi.ne]
  exact (hs.ordered i hpos hlt).trans (hp ▸ hs.ordered c hpos' hc)

theorem heapFix_spec (hcount : (s.objs a).count < count) :
    Standing ((s.setCount a count).heapFix i) ∧
      ((s.setCount a count).heapFix i).heap.Perm s.heap ∧
      Same (s.setCount a count) ((s.setCount a count).heapFix i) := by
  have hlt : i < s.heap.length := (List.getElem?_eq_some_iff.mp hi).1
  obtain ⟨hmoved,hordered⟩ := @fix_moved s.heap.length (s.setCount a count) le_rfl hs.nodup
    (setCount_placed hs) i hlt (setCount_order hs hi hcount)
  exact ⟨hmoved.standing hs.nodup rfl hordered,hmoved.perm,hmoved.val,hmoved.count⟩

end SetCount

theorem heapPop_spec (hs : Standing s) {root : ℕ} (hroot : s.heap[0]? = some root) :
    ∃ s', s.heapPop = some (root,s') ∧ Standing s' ∧ s.heap.Perm (root::s'.heap) ∧ Same s s' := by
  have hlen : 0 < s.heap.length := (List.getElem?_eq_some_iff.mp hroot).1
  obtain ⟨n,hn⟩ : ∃ n, s.heap.length = n+1 := ⟨s.heap.length-1,by omega⟩
  have hswap : Moved (n+1) s (s.swap 0 n) :=
    (Moved.refl hs.placed (n+1)).swap hs.nodup hn.ge (by omega) (by omega)
  have hnodup : (s.swap 0 n).heap.Nodup := hswap.perm.nodup_iff.mpr hs.nodup
  have hkey : (s.swap 0 n).count = swapped s.count 0 n := count_swap hlen (by omega)
  have horder : DownOrder (s.swap 0 n).count n 0 := by
    constructor
    · intro c hpos hc hne
      have hp : parent c < c := by rw [parent]; omega
      rw [hkey, swapped_other _ hne (by omega), swapped_other _ (by omega) (by omega)]
      exact hs.ordered c hpos (by omega)
    · omega
  have hle : n ≤ (s.swap 0 n).heap.length := by rw [hswap.perm.length_eq]; omega
  obtain ⟨hmoved,hordered⟩ := down_moved hle hnodup hswap.placed horder
  generalize hu : (down Store.less Store.swap 0 n (s.swap 0 n)).1 = u at hmoved hordered
  have hulen : u.heap.length = n+1 := by rw [hmoved.perm.length_eq, hswap.perm.length_eq, hn]
  have hunodup : u.heap.Nodup := hmoved.perm.nodup_iff.mpr hnodup
  have hlast : u.heap[n]? = some root := by
    rw [hmoved.beyond n le_rfl, swap_at hlen (by omega), swapped_right, hroot]
  have hlast' : u.heap.getLast? = some root := by
    rw [List.getLast?_eq_getElem?, hulen]
    exact hlast
  have hdrop : u.heap.dropLast++[root] = u.heap := dropLast_append_getLast? root hlast'
  have hbelow : ∀ j, j < n → u.heap.dropLast[j]? = u.heap[j]? := by
    intro j hj
    rw [List.getElem?_dropLast, if_pos (by omega)]
  have hdlen : u.heap.dropLast.length = n := by
    rw [length_dropLast]
    omega
  refine ⟨⟨Store.setIndex root (-1) u.objs,u.heap.dropLast⟩,?_,⟨?_,?_,?_⟩,?_,?_,?_⟩
  · rw [Store.heapPop, show s.heap.length-1 = n by omega]
    rw [hu, Store.pop, hlast']
    rfl
  · exact hunodup.sublist (dropLast_sublist _)
  · intro j x hj
    have hjn : j < n := by
      have := (List.getElem?_eq_some_iff.mp hj).1
      dsimp only at this
      omega
    have hx : u.heap[j]? = some x := (hbelow j hjn).symm.trans hj
    have hne : x ≠ root := by
      rintro rfl
      exact absurd (place_inj hunodup hx hlast) (by omega)
    rw [setIndex_other _ _ _ _ hne]
    exact hmoved.placed j x hx
  · have hcount : ∀ j, j < n →
        Store.count ⟨Store.setIndex root (-1) u.objs,u.heap.dropLast⟩ j = u.count j := by
      intro j hj
      rw [Store.count, Store.count, setIndex_count, getD_eq_getElem?_getD,
        getD_eq_getElem?_getD]
      rw [hbelow j hj]
    intro c hpos hc
    rw [hdlen] at hc
    have hp : parent c < c := by rw [parent]; omega
    rw [hcount c hc, hcount _ (by omega)]
    exact hordered c hpos hc
  · refine (hmoved.perm.trans hswap.perm).symm.trans ?_
    rw [← hdrop, dropLast_concat]
    exact perm_append_comm
  · intro x
    rw [setIndex_val, hmoved.val, hswap.val]
  · intro x
    rw [setIndex_count, hmoved.count, hswap.count]

/-! ## The heap and the map -/

structure Tracked (bound : String → ℕ) (hk : HeavyKeepers) : Prop where
  standing : Standing hk.store
  listed : ∀ val a, hk.items val = some a ↔ a ∈ hk.store.heap ∧ (hk.store.objs a).val = val
  below : ∀ a ∈ hk.store.heap, a < hk.fresh
  bounded : ∀ a ∈ hk.store.heap, (hk.store.objs a).count ≤ bound (hk.store.objs a).val

theorem Standing.beside (hs : Standing s) {a : ℕ} (ha : a ∉ s.heap) (item : HeapItem) :
    Standing ⟨update s.objs a item,s.heap⟩ := by
  have hobjs : ∀ x ∈ s.heap, update s.objs a item x = s.objs x := by
    intro x hx
    apply update_of_ne
    rintro rfl
    exact ha hx
  have hcount : ∀ j, j < s.heap.length →
      Store.count ⟨update s.objs a item,s.heap⟩ j = s.count j := by
    intro j hj
    exact congrArg HeapItem.count (hobjs _ (mem_of_getElem? (getElem?_getD hj)))
  refine ⟨hs.nodup,fun j x hj => ?_,fun c hpos hc => ?_⟩
  · exact (congrArg HeapItem.index (hobjs x (mem_of_getElem? hj))).trans (hs.placed j x hj)
  · have hp : parent c < c := by rw [parent]; omega
    rw [hcount c hc, hcount _ (hp.trans hc)]
    exact hs.ordered c hpos hc

section Tracked
variable {bound : String → ℕ} {hk : HeavyKeepers} (h : Tracked bound hk) {val : String} {count : ℕ}
include h

theorem Tracked.mono {bound' : String → ℕ} (hle : ∀ x, bound x ≤ bound' x) : Tracked bound' hk :=
  ⟨h.standing,h.listed,h.below,fun a ha => (h.bounded a ha).trans (hle _)⟩

theorem insertItem_tracked (hnone : hk.items val = none) (hcount : count ≤ bound val) :
    Tracked bound (insertItem val count hk) ∧
      (insertItem val count hk).store.heap.length = hk.store.heap.length+1 := by
  have hfresh : hk.fresh ∉ hk.store.heap := fun hmem => (h.below _ hmem).false
  obtain ⟨hstanding,hperm,hsame⟩ := heapPush_spec (h.standing.beside hfresh ⟨val,count,0⟩) hfresh
  have hmem : ∀ a, a ∈ (insertItem val count hk).store.heap ↔ a = hk.fresh ∨ a ∈ hk.store.heap :=
    fun a => hperm.mem_iff.trans mem_cons
  have hself : ((insertItem val count hk).store.objs hk.fresh).val = val ∧
      ((insertItem val count hk).store.objs hk.fresh).count = count :=
    have hnew := update_self hk.fresh (⟨val,count,0⟩ : HeapItem) hk.store.objs
    ⟨(hsame.val _).trans (congrArg HeapItem.val hnew),
      (hsame.count _).trans (congrArg HeapItem.count hnew)⟩
  have hother : ∀ a ∈ hk.store.heap,
      ((insertItem val count hk).store.objs a).val = (hk.store.objs a).val ∧
        ((insertItem val count hk).store.objs a).count = (hk.store.objs a).count := by
    intro a ha
    have hne : a ≠ hk.fresh := fun heq => hfresh (heq ▸ ha)
    exact ⟨(hsame.val a).trans (congrArg HeapItem.val (update_of_ne hne _ _)),
      (hsame.count a).trans (congrArg HeapItem.count (update_of_ne hne _ _))⟩
  refine ⟨⟨hstanding,fun v a => ?_,fun a ha => ?_,fun a ha => ?_⟩,hperm.length_eq⟩
  · rw [hmem]
    change update hk.items val (some hk.fresh) v = some a ↔ _
    rw [update_apply]
    constructor
    · intro hv
      split at hv
      · rename_i heq
        cases hv
        exact ⟨Or.inl rfl,hself.1.trans heq.symm⟩
      · obtain ⟨ha,hval⟩ := (h.listed v a).mp hv
        exact ⟨Or.inr ha,(hother a ha).1.trans hval⟩
    rintro ⟨rfl | ha,hval⟩
    · rw [if_pos (hval.symm.trans hself.1)]
    have hv := (h.listed v a).mpr ⟨ha,(hother a ha).1.symm.trans hval⟩
    rw [if_neg, hv]
    rintro rfl
    rw [hnone] at hv
    cases hv
  · rcases (hmem a).mp ha with rfl | ha
    · exact Nat.lt_succ_self _
    · exact (h.below a ha).trans (Nat.lt_succ_self _)
  rcases (hmem a).mp ha with rfl | ha
  · rw [hself.1, hself.2]
    exact hcount
  · rw [(hother a ha).1, (hother a ha).2]
    exact h.bounded a ha

theorem fix_tracked {a : ℕ} (ha : hk.items val = some a) (hlt : (hk.store.objs a).count < count)
    (hcount : count ≤ bound val) :
    Tracked bound { hk with
      store := (hk.store.setCount a count).heapFix (hk.store.objs a).index.toNat } ∧
      ((hk.store.setCount a count).heapFix (hk.store.objs a).index.toNat).heap.length =
        hk.store.heap.length := by
  obtain ⟨hmem,hval⟩ := (h.listed val a).mp ha
  obtain ⟨i,hi⟩ := mem_iff_getElem?.mp hmem
  rw [h.standing.placed i a hi, Int.toNat_natCast]
  obtain ⟨hstanding,hperm,hsame⟩ := heapFix_spec h.standing hi hlt
  have hvals : ∀ x,
      (((hk.store.setCount a count).heapFix i).objs x).val = (hk.store.objs x).val := by
    intro x
    rw [hsame.val, setCount_at]
    split
    · rename_i heq
      rw [heq]
    · rfl
  refine ⟨⟨hstanding,fun v x => ?_,fun x hx => h.below x (hperm.mem_iff.mp hx),fun x hx => ?_⟩,
    hperm.length_eq⟩
  · rw [hperm.mem_iff, hvals]
    exact h.listed v x
  rw [hvals, hsame.count, setCount_at]
  split
  · rename_i heq
    rw [heq, hval]
    exact hcount
  · exact h.bounded x (hperm.mem_iff.mp hx)

theorem pop_tracked {root : ℕ} (hroot : hk.store.heap[0]? = some root) :
    ∃ store, hk.store.heapPop = some (root,store) ∧
      Tracked bound { hk with
        store := store
        items := update hk.items (store.objs root).val none } ∧
      store.heap.length+1 = hk.store.heap.length := by
  obtain ⟨store,hpop,hstanding,hperm,hsame⟩ := heapPop_spec h.standing hroot
  have hout : root ∉ store.heap := (nodup_cons.mp (hperm.nodup_iff.mp h.standing.nodup)).1
  have hin : ∀ a ∈ store.heap, a ∈ hk.store.heap :=
    fun a ha => hperm.mem_iff.mpr (mem_cons_of_mem _ ha)
  refine ⟨store,hpop,⟨hstanding,fun v a => ?_,fun a ha => h.below a (hin a ha),fun a ha => ?_⟩,
    hperm.length_eq.symm⟩
  · change update hk.items (store.objs root).val none v = some a ↔ _
    rw [update_apply, hsame.val, hsame.val]
    constructor
    · intro hv
      split at hv
      · cases hv
      rename_i hne
      obtain ⟨ha,hval⟩ := (h.listed v a).mp hv
      refine ⟨(mem_cons.mp (hperm.mem_iff.mp ha)).resolve_left ?_,hval⟩
      rintro rfl
      exact hne hval.symm
    rintro ⟨ha,hval⟩
    have hv := (h.listed v a).mpr ⟨hin a ha,hval⟩
    rw [if_neg, hv]
    intro heq
    have hv' := (h.listed v root).mpr ⟨mem_of_getElem? hroot,heq.symm⟩
    rw [hv] at hv'
    cases hv'
    exact hout ha
  · change (store.objs a).count ≤ bound (store.objs a).val
    rw [hsame.val, hsame.count]
    exact h.bounded a (hin a ha)

theorem updateHeap_tracked (hk1 : 1 ≤ hk.k) (hsize : hk.store.heap.length ≤ hk.k)
    (hcount : count ≤ bound val) :
    ∃ hk', updateHeap val count hk = some hk' ∧ Tracked bound hk' ∧ hk'.store.heap.length ≤ hk.k ∧
      hk'.k = hk.k ∧ hk'.width = hk.width ∧ hk'.rows = hk.rows := by
  rw [updateHeap]
  cases hitem : hk.items val with
  | some a =>
    by_cases hlt : (hk.store.objs a).count < count
    · obtain ⟨hfix,hlen⟩ := fix_tracked h hitem hlt hcount
      exact ⟨_,if_pos hlt,hfix,hlen.trans_le hsize,rfl,rfl,rfl⟩
    · exact ⟨_,if_neg hlt,h,hsize,rfl,rfl,rfl⟩
  | none =>
    by_cases hroom : hk.store.heap.length < hk.k
    · obtain ⟨hins,hlen⟩ := insertItem_tracked h hitem hcount
      exact ⟨_,if_pos hroom,hins,hlen.trans_le hroom,rfl,rfl,rfl⟩
    have hpos : 0 < hk.store.heap.length := by omega
    have hroot := getElem?_getD hpos
    rw [if_neg hroom, hroot]
    by_cases hlt : (hk.store.objs (hk.store.heap.getD 0 0)).count < count
    · obtain ⟨store,hpop,hkept,hlen⟩ := pop_tracked h hroot
      have hnone : update hk.items (store.objs (hk.store.heap.getD 0 0)).val none val =
          none := by
        rw [update_apply]
        split
        · rfl
        · exact hitem
      obtain ⟨hins,hlen'⟩ := insertItem_tracked hkept hnone hcount
      refine ⟨_,?_,hins,(hlen'.trans hlen).trans_le hsize,rfl,rfl,rfl⟩
      simp only [Option.bind_eq_bind, Option.bind_some, if_pos hlt, hpop]
    · exact ⟨_,if_neg hlt,h,hsize,rfl,rfl,rfl⟩

end Tracked

/-! ## Runs -/

structure Honest (hs : Hashes) (added : List String) (hk : HeavyKeepers) : Prop where
  rows : ∀ i idx, Owned hs added (hk.rows i idx)
  kept : Tracked added.count hk
  size : hk.store.heap.length ≤ hk.k

theorem new_honest (hs : Hashes) (k width depth : ℕ) (decay : ℚ) :
    Honest hs [] (new k width depth decay) := by
  refine ⟨fun _ _ => Or.inl rfl,⟨⟨nodup_nil,fun _ _ h => ?_,fun _ _ h => ?_⟩,
    fun _ _ => ⟨?_,?_⟩,fun _ h => ?_,fun _ h => ?_⟩,Nat.zero_le _⟩
  · cases h
  · exact absurd h (Nat.not_lt_zero _)
  · intro h
    cases h
  · rintro ⟨h,_⟩
    cases h
  · cases h
  · cases h

theorem add_honest {hs : Hashes} {hk : HeavyKeepers} (h : Honest hs added hk)
    (hk1 : 1 ≤ hk.k) (hwidth : 1 ≤ hk.width) (item : String)
    (hinj : Set.InjOn hs.sum64 {x | x ∈ item::added}) (draws : ℕ → ℚ) :
    ∃ hk', add hs item draws hk = some hk' ∧ Honest hs (item::added) hk' ∧ hk'.k = hk.k ∧
      hk'.width = hk.width := by
  obtain ⟨rows,maxCount,hloop,hrows,hmax⟩ := addLoop_owned hinj draws hwidth hk.decay hk.depth 0
    hk.rows (fun i idx => ⟨(h.rows i idx).cons item,fun _ => h.rows i idx⟩) (Nat.zero_le _)
  have hkept : Tracked (item::added).count { hk with rows := rows } :=
    have hmono := h.kept.mono (fun x => count_le_count_cons (l := added) (a := x) (b := item))
    ⟨hmono.standing,hmono.listed,hmono.below,hmono.bounded⟩
  obtain ⟨hk',hup,hkept',hsize,hk_eq,hwidth_eq,hrows_eq⟩ := updateHeap_tracked hkept hk1 h.size hmax
  refine ⟨hk',?_,⟨fun i idx => ?_,hkept',hk_eq ▸ hsize⟩,hk_eq,hwidth_eq⟩
  · rw [add, hloop]
    exact hup
  · rw [hrows_eq]
    exact hrows i idx

def adds (hs : Hashes) (calls : List (String × (ℕ → ℚ))) (hk : HeavyKeepers) :
    Option HeavyKeepers :=
  runAll (fun c => add hs c.1 c.2) calls hk

theorem adds_honest {hs : Hashes} (calls : List (String × (ℕ → ℚ))) (added : List String)
    (hk : HeavyKeepers) (h : Honest hs added hk) (hk1 : 1 ≤ hk.k) (hwidth : 1 ≤ hk.width)
    (hinj : Set.InjOn hs.sum64 {x | x ∈ (calls.map Prod.fst).reverse++added}) :
    ∃ hk', adds hs calls hk = some hk' ∧ Honest hs ((calls.map Prod.fst).reverse++added) hk' ∧
      hk'.k = hk.k := by
  induction calls generalizing added hk with
  | nil => exact ⟨hk,rfl,h,rfl⟩
  | cons c calls ih =>
    rw [map_cons, reverse_cons, append_assoc] at hinj ⊢
    obtain ⟨hk',hadd,hsound,hk_eq,hwidth_eq⟩ := add_honest h hk1 hwidth c.1
      (hinj.mono fun x hx => mem_append_right _ hx) c.2
    obtain ⟨hk'',hadds,hsound',hk_eq'⟩ := ih (c.1::added) hk' hsound (hk_eq ▸ hk1)
      (hwidth_eq ▸ hwidth) hinj
    refine ⟨hk'',?_,hsound',hk_eq'.trans hk_eq⟩
    rw [adds, runAll, hadd]
    exact hadds

/-- After any additions the heap has at most k items, exactly those that the map finds and each
at the place it knows, the smallest count at its root, and no count above the number of times
its item was added. -/
theorem top_k_consistent (hs : Hashes) (k width depth : ℕ) (hk : 1 ≤ k) (hwidth : 1 ≤ width)
    (decay : ℚ) (calls : List (String × (ℕ → ℚ)))
    (hinj : Set.InjOn hs.sum64 {x | x ∈ calls.map Prod.fst}) :
    ∃ t, adds hs calls (new k width depth decay) = some t ∧ t.store.heap.length ≤ k ∧
      t.store.heap.Nodup ∧
      (∀ val a, t.items val = some a ↔ a ∈ t.store.heap ∧ (t.store.objs a).val = val) ∧
      (∀ (j a : ℕ), t.store.heap[j]? = some a → (t.store.objs a).index = j) ∧
      (∀ root, t.store.heap[0]? = some root →
        ∀ a ∈ t.store.heap, (t.store.objs root).count ≤ (t.store.objs a).count) ∧
      ∀ a ∈ t.store.heap,
        (t.store.objs a).count ≤ (calls.map Prod.fst).count (t.store.objs a).val := by
  obtain ⟨t,hrun,hsound,hk_eq⟩ := adds_honest calls [] (new k width depth decay)
    (new_honest hs k width depth decay) hk hwidth (hinj.mono fun x hx => by simpa using hx)
  have hkept := hsound.kept
  refine ⟨t,hrun,hsound.size.trans hk_eq.le,hkept.standing.nodup,hkept.listed,hkept.standing.placed,
    fun root hroot a ha => ?_,fun a ha => ?_⟩
  · obtain ⟨j,hj⟩ := mem_iff_getElem?.mp ha
    rw [← count_at hroot, ← count_at hj]
    exact hkept.standing.ordered.root (List.getElem?_eq_some_iff.mp hj).1
  · have hbound := hkept.bounded a ha
    rwa [append_nil, count_reverse] at hbound

def lengthHashes : Hashes := ⟨String.length,fun item seed => item.length+seed⟩

def takeoverCalls : List (String × (ℕ → ℚ)) :=
  [("a",fun _ => 0),("bb",fun _ => 0),("bb",fun _ => 0)]

/-- The one place goes to an item with more additions. -/
theorem second_item_takes_the_place :
    (adds lengthHashes takeoverCalls (new 1 1 1 0)).map
        (fun t => (t.store.heap,t.items "a",t.items "bb")) = some ([1],none,some 1) ∧
      ∃ t, adds lengthHashes takeoverCalls (new 1 1 1 0) = some t ∧ t.store.heap.length ≤ 1 ∧
        ∀ a ∈ t.store.heap,
          (t.store.objs a).count ≤ (takeoverCalls.map Prod.fst).count (t.store.objs a).val := by
  refine ⟨by decide +kernel,?_⟩
  have hinj : Set.InjOn lengthHashes.sum64 {x | x ∈ takeoverCalls.map Prod.fst} := by
    intro x hx y hy
    have hmem : ∀ x ∈ takeoverCalls.map Prod.fst, ∀ y ∈ takeoverCalls.map Prod.fst,
        lengthHashes.sum64 x = lengthHashes.sum64 y → x = y := by decide +kernel
    exact hmem x hx y hy
  obtain ⟨t,hrun,hsize,_,_,_,_,hbound⟩ :=
    top_k_consistent lengthHashes 1 1 1 le_rfl le_rfl 0 takeoverCalls hinj
  exact ⟨t,hrun,hsize,hbound⟩

end GoCommon.TopK
