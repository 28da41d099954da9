import GoCommon.BTreeStore

/-!
# The tree as a finite map

The entries that have been set last are those the tree shows, as long as no set
fills the root. Get finds their values and the iteration visits those with a
value that is not zero in the order of the keys. The set that fills the root
leaves a tree in which the first key cannot be looked up.
-/

set_option autoImplicit false

namespace GoCommon.BTreeRefinement
open List SortedEntries BTreeNode BTree BTreePages BTreeStore

/-! ## Iteration -/

section Iteration
variable {σ : Type} (f : σ → ℕ → ℕ → σ × ℕ)

def visited (s : σ) (es : List (ℕ × ℕ)) : σ :=
  (es.filter (fun e => e.2 ≠ 0)).foldl (fun s e => (f s e.1 e.2).1) s

theorem visited_append {s : σ} {ds es : List (ℕ × ℕ)} :
    visited f s (ds++es) = visited f (visited f s ds) es := by
  rw [visited, filter_append, foldl_append]
  rfl

theorem visited_cons {s : σ} {e : ℕ × ℕ} {es : List (ℕ × ℕ)} :
    visited f s (e::es) = visited f (if e.2 = 0 then s else (f s e.1 e.2).1) es := by
  rw [visited, filter_cons]
  by_cases h : e.2 = 0
  · rw [if_neg (by simp [h]), if_pos h]
    rfl
  · rw [if_pos (by simp [h]), if_neg h]
    rfl

theorem showsFrom_setAt {n : Node} {i v : ℕ} {es : List (ℕ × ℕ)} (h : ShowsFrom n (i+1) es)
    (hl : i+1+es.length ≤ maxKeys) : ShowsFrom (setAt n (valOffset i) v) (i+1) es := by
  intro j e hj
  have hlt := (List.getElem?_eq_some_iff.mp hj).1
  obtain ⟨h1,h2⟩ := h j e hj
  rw [key, val, setAt_other _ (by simp only [keyOffset, valOffset]; omega),
    setAt_other _ (by simp only [valOffset]; omega)]
  exact ⟨h1,h2⟩

theorem entriesLoop_visited (es : List (ℕ × ℕ)) (i : ℕ) (s : σ) (n : Node) (h : ShowsFrom n i es)
    (hl : i+es.length ≤ maxKeys) :
    (PageTree.entriesLoop f es.length i s n).1 = visited f s es ∧
      header (PageTree.entriesLoop f es.length i s n).2 = header n := by
  induction es generalizing i s n with
  | nil => exact ⟨rfl,rfl⟩
  | cons e es ih =>
    obtain ⟨h1,h2⟩ := h 0 e rfl
    rw [Nat.add_zero] at h1 h2
    have hrest : ShowsFrom n (i+1) es := by
      intro j d hj
      have := h (j+1) d hj
      rwa [show i+(j+1) = i+1+j by omega] at this
    rw [length_cons] at hl
    rw [length_cons, PageTree.entriesLoop, h1, h2, visited_cons]
    by_cases hv : e.2 = 0
    · rw [if_pos hv, if_pos hv]
      exact ih (i+1) s n hrest (by omega)
    rw [if_neg hv, if_neg hv]
    by_cases hw : (f s e.1 e.2).2 = 0
    · simp only [hw, ne_eq, not_true, if_false]
      exact ih (i+1) _ n hrest (by omega)
    simp only [hw, ne_eq, not_false_eq_true, if_true]
    obtain ⟨r1,r2⟩ := ih (i+1) (f s e.1 e.2).1 (setAt n (valOffset i) (f s e.1 e.2).2)
      (showsFrom_setAt hrest (by omega)) (by omega)
    refine ⟨r1,r2.trans ?_⟩
    exact (meta_congr n _ (fun j hj => setAt_other _ (by simp only [valOffset]; omega))).1

variable {t : PageTree} {ls : List Leaf}

structure Remains (t t' : PageTree) (ls : List Leaf) : Prop where
  root : t'.node 1 = .ok (t.pages 1)
  leaf : ∀ l ∈ ls, t'.node l.page = .ok (t.pages l.page)

theorem node_write {t : PageTree} {p q : ℕ} {n m : Node} (h : t.node p = .ok m) :
    (t.write q n).node p = .ok (if p = q then n else m) := by
  rw [PageTree.node] at h ⊢
  split at h
  · cases h
  rename_i h0
  rw [if_neg h0]
  split at h
  · rename_i h1
    cases h
    have : (t.write q n).size = t.size := rfl
    rw [this, if_pos h1, write_pages]
  · cases h

theorem iterate_leaf {l : Leaf} (fuel : ℕ) (s : σ) {t' : PageTree} {n : Node} (hn : t'.node l.page = .ok n)
    (hh : isLeaf n = true) (hs : Shows n l.entries) : ∃ n',
      PageTree.iterate (PageTree.visitLeaf f) (fuel+1) l.page (s,t') =
        .ok (visited f s l.entries,t'.write l.page n') := by
  have hsh := l.short
  obtain ⟨h1,h2⟩ := entriesLoop_visited f l.entries 0 s n hs.entries (by omega)
  rw [← hs.count] at h1 h2
  refine ⟨(PageTree.entriesLoop f (numKeys n) 0 s n).2,?_⟩
  have hleaf : isLeaf (PageTree.entriesLoop f (numKeys n) 0 s n).2 = true := by
    rw [← hh]
    exact congrArg Prod.snd h2
  rw [PageTree.iterate, PageTree.visitLeaf]
  simp only [bind, Except.bind, hn, hh, not_true, if_false, h1]
  rw [node_write hn]
  simp only [hleaf, if_true]

theorem children_visited (h : Stored t ls) (fuel : ℕ) (hl : ls.length ≤ maxKeys) (don ms : List Leaf)
    (hd : ls = don++ms) (s : σ) (t' : PageTree) (hr : Remains t t' ms) : ∃ t'',
      PageTree.childrenLoop (PageTree.iterate (PageTree.visitLeaf f) (fuel+1)) 1 (maxKeys-don.length)
        don.length (s,t') = .ok (visited f s (contents ms),t'') := by
  induction ms generalizing don s t' with
  | nil =>
    have hlen : ls.length = don.length := by rw [hd, append_nil]
    rcases hm : maxKeys-don.length with _ | m
    · exact ⟨t',rfl⟩
    refine ⟨t',?_⟩
    have hz := h.rows.blank don.length (by rw [length_map]; omega) (by omega)
    rw [PageTree.childrenLoop, hr.root]
    simp only [bind, Except.bind, hz, if_true]
    rfl
  | cons l ms ih =>
    have hlen : ls.length = don.length+(ms.length+1) := by rw [hd, length_append, length_cons]
    have hrow : (ls.map Leaf.row)[don.length]? = some l.row := by
      rw [hd]
      simp
    obtain ⟨h1,h2⟩ := h.rows.entry _ _ hrow
    have hmem : l ∈ ls := by rw [hd]; simp
    have htop := l.top_pos
    obtain ⟨n,hn⟩ := iterate_leaf f fuel s (hr.leaf l (by simp)) (h.leaf_leaf hmem) (h.leaf l hmem).2
    have hnext : Remains t (t'.write l.page n) ms := by
      refine ⟨?_,fun m hm => ?_⟩
      · have := h.page_pos l hmem
        rw [node_write hr.root, if_neg (by omega)]
      · have hap : m.page ≠ l.page := (hd ▸ h).apart m (.inr hm)
        rw [node_write (hr.leaf m (by simp [hm])), if_neg hap]
    obtain ⟨t'',ht⟩ := ih (don++[l]) (by rw [hd]; simp) (visited f s l.entries) _ hnext
    refine ⟨t'',?_⟩
    rw [length_append, length_singleton] at ht
    rw [show maxKeys-don.length = maxKeys-(don.length+1)+1 by omega, PageTree.childrenLoop, hr.root]
    have hkey : key (t.pages 1) don.length ≠ 0 := by rw [h1]; exact ne_of_gt htop
    have hval : t.pages 1 (valOffset don.length) = l.page := h2
    simp only [bind, Except.bind, hkey, if_false, hval, hn]
    rw [ht, contents_cons, visited_append]

theorem iterateKV_visited (h : Stored t ls) (hl : ls.length ≤ maxKeys) (s : σ) :
    ∃ t', t.iterateKV f s = .ok (visited f s (contents ls),t') := by
  obtain ⟨fuel,hf⟩ := h.fuel
  obtain ⟨t',ht⟩ := children_visited f h fuel hl [] ls rfl s t ⟨h.node_root,h.node_leaf⟩
  refine ⟨t',?_⟩
  rw [PageTree.iterateKV, hf, PageTree.iterate, PageTree.visitLeaf]
  simp only [bind, Except.bind, h.node_root, h.root_inner, Bool.false_eq_true, not_false_eq_true, if_true,
    if_false]
  exact ht

end Iteration

/-! ## Sets one after the other -/

def setAll : List (ℕ × ℕ) → PageTree → Except Halt PageTree
  | [], t => .ok t
  | e::es, t => do
    let t ← t.set e.1 e.2
    setAll es t

def build (pages : ℕ → Node) (kvs : List (ℕ × ℕ)) : Except Halt PageTree := do
  let t ← newTree pages
  setAll kvs t

theorem setAll_append (kvs ds : List (ℕ × ℕ)) (t : PageTree) :
    setAll (kvs++ds) t = setAll kvs t >>= setAll ds := by
  induction kvs generalizing t with
  | nil => rfl
  | cons e es ih =>
    rw [cons_append, setAll, setAll]
    rcases t.set e.1 e.2 with x | t
    · rfl
    · exact ih t

variable {t : PageTree} (pages : ℕ → Node) (kvs : List (ℕ × ℕ))

theorem build_concat (e : ℕ × ℕ) (t : PageTree)
    (h : build pages kvs = .ok t) : build pages (kvs++[e]) = t.set e.1 e.2 := by
  rw [build] at h ⊢
  generalize newTree pages = r at h ⊢
  cases r with
  | error x => cases h
  | ok t0 =>
    simp only [bind, Except.bind] at h ⊢
    rw [setAll_append, h]
    simp only [bind, Except.bind, setAll]
    generalize t.set e.1 e.2 = r
    cases r <;> rfl

def latest (kvs : List (ℕ × ℕ)) (k : ℕ) : ℕ := kvs.foldl (fun v e => if e.1 = k then e.2 else v) 0

theorem latest_concat {e : ℕ × ℕ} {k : ℕ} :
    latest (kvs++[e]) k = if e.1 = k then e.2 else latest kvs k := by
  rw [latest, foldl_append]
  rfl

def Refines (t : PageTree) (kvs : List (ℕ × ℕ)) : Prop :=
  (∀ k, 0 < k → k ≤ absoluteMax → t.get k = .ok (latest kvs k)) ∧
  ∃ es, Increasing es ∧ (∀ e, e ∈ es ↔ e.2 ≠ 0 ∧ latest kvs e.1 = e.2) ∧
    ∀ (σ : Type) (f : σ → ℕ → ℕ → σ × ℕ) (s : σ), ∃ t',
      t.iterateKV f s = .ok (es.foldl (fun s e => (f s e.1 e.2).1) s,t')

structure Stores (t : PageTree) (ls : List Leaf) (kvs : List (ℕ × ℕ)) : Prop where
  stored : Stored t ls
  room : ls.length < maxKeys
  values : ∀ k, (find k (contents ls)).getD 0 = latest kvs k

theorem Stores.refines {ls : List Leaf} {kvs : List (ℕ × ℕ)} (h : Stores t ls kvs) :
    Refines t kvs := by
  refine ⟨fun k hk hm => ?_,(contents ls).filter (fun e => e.2 ≠ 0),h.stored.ordered.filter _,fun e => ?_,
    fun σ f s => iterateKV_visited f h.stored (le_of_lt h.room) s⟩
  · rw [h.stored.get k hk hm, h.values]
  rw [mem_filter, decide_eq_true_eq, ← h.values]
  refine ⟨fun ⟨he,hv⟩ => ⟨hv,?_⟩,fun ⟨hv,he⟩ => ⟨?_,hv⟩⟩
  · rw [find_of_mem e.1 e.2 _ h.stored.ordered he]
    rfl
  rcases hf : find e.1 (contents ls) with _ | v
  · rw [hf] at he
    exact absurd he.symm hv
  · rw [hf] at he
    exact find_mem e.1 e.2 _ (hf.trans (congrArg some he))

theorem newTree_stores : ∃ t l, newTree pages = .ok t ∧ Stores t [l] [] ∧
    l.entries = [(absoluteMax,0)] := by
  obtain ⟨t,l,h1,h2,h3,_⟩ := newTree_stored pages
  refine ⟨t,l,h1,⟨h2,show 1 < 255 by decide,fun k => ?_⟩,h3⟩
  rw [contents_cons, h3]
  change (find k [(absoluteMax,0)]).getD 0 = 0
  rw [find]
  split <;> rfl

theorem Stores.set {ls : List Leaf} {kvs : List (ℕ × ℕ)} (h : Stores t ls kvs)
    (e : ℕ × ℕ) (hk : 0 < e.1) (hm : e.1 ≤ absoluteMax) (hf : ¬Fills t e.1) :
    ∃ t' ls', t.set e.1 e.2 = .ok t' ∧ Stores t' ls' (kvs++[e]) ∧ Grown e.1 e.2 ls ls' := by
  obtain ⟨t',ls',h1,h2,h3,h4,_⟩ := h.stored.set h.room hk hm e.2 hf
  refine ⟨t',ls',h1,⟨h2,h4,fun k => ?_⟩,h3⟩
  rw [grown_contents h3, find_put, latest_concat, ← h.values]
  split <;> rfl

def Keys (kvs : List (ℕ × ℕ)) : Prop := ∀ e ∈ kvs, 1 ≤ e.1 ∧ e.1 ≤ maxUint64-2

def Unfilled (pages : ℕ → Node) (kvs : List (ℕ × ℕ)) : Prop :=
  ∀ n e t, kvs[n]? = some e → build pages (kvs.take n) = .ok t → ¬Fills t e.1

theorem build_stores (hk : Keys kvs) (hu : Unfilled pages kvs) :
    ∃ t ls, build pages kvs = .ok t ∧ Stores t ls kvs := by
  induction kvs using List.reverseRecOn with
  | nil =>
    obtain ⟨t,l,h1,h2,_⟩ := newTree_stores pages
    exact ⟨t,[l],by rw [build, h1]; rfl,h2⟩
  | append_singleton kvs e ih =>
    obtain ⟨t,ls,h1,h2⟩ := ih (fun d hd => hk d (by simp [hd])) (fun n d t hn ht => by
      have hlt := (List.getElem?_eq_some_iff.mp hn).1
      refine hu n d t (by rw [List.getElem?_append_left hlt, hn]) ?_
      rwa [take_append_of_le_length (le_of_lt hlt)])
    have hf := hu kvs.length e t (by simp) (by rw [take_left]; exact h1)
    have hb := hk e (by simp)
    have hle : maxUint64-2 ≤ absoluteMax := by decide
    obtain ⟨t',ls',h3,h4,_⟩ := h2.set e hb.1 (hb.2.trans hle) hf
    exact ⟨t',ls',by rw [build_concat pages kvs e t h1, h3],h4⟩

theorem take_keys (n : ℕ) (h : Keys kvs) : Keys (kvs.take n) :=
  fun e he => h e (mem_of_mem_take he)

theorem unfilled_take (n : ℕ)
    (h : ∀ m < n, ∀ e t, kvs[m]? = some e → build pages (kvs.take m) = .ok t → ¬Fills t e.1) :
    Unfilled pages (kvs.take n) := by
  intro m e t hm ht
  have hlt : m < n := by
    have := (List.getElem?_eq_some_iff.mp hm).1
    rw [length_take] at this
    omega
  rw [List.getElem?_take_of_lt hlt] at hm
  rw [take_take, min_eq_left (le_of_lt hlt)] at ht
  exact h m hlt e t hm ht

theorem looped_get {m : ℕ} (h : Looped t m) : t.get 1 = .error .hang := by
  exact h.getLoop h.positive _

/-- The tree answers as a finite map after every set of a sequence if and only if
none of them fills the root. -/
theorem sets_refine_map_iff (pages : ℕ → Node) (kvs : List (ℕ × ℕ)) (hk : Keys kvs) :
    (∀ n ≤ kvs.length, ∃ t, build pages (kvs.take n) = .ok t ∧ Refines t (kvs.take n)) ↔
      Unfilled pages kvs := by
  constructor
  · intro h
    have hall : ∀ n, ∀ m < n, ∀ e t, kvs[m]? = some e → build pages (kvs.take m) = .ok t →
        ¬Fills t e.1 := by
      intro n
      induction n with
      | zero => exact fun m hm => absurd hm (Nat.not_lt_zero m)
      | succ n ih =>
        intro m hm e t he ht hf
        obtain ⟨t',ls,h1,h2⟩ := build_stores pages (kvs.take m) (take_keys kvs m hk)
          (unfilled_take pages kvs m (fun j hj => ih j (by omega)))
        rw [ht, Except.ok.injEq] at h1
        subst h1
        have hb := hk e (mem_of_getElem? he)
        have hle : maxUint64-2 ≤ absoluteMax := by decide
        obtain ⟨t2,top,h3,h4⟩ := h2.stored.set_fills h2.room hb.1 (hb.2.trans hle) e.2 hf
        have hlt := (List.getElem?_eq_some_iff.mp he).1
        obtain ⟨t3,h5,h6⟩ := h (m+1) hlt
        rw [take_add_one, he, Option.toList_some, build_concat pages _ e t ht, h3,
          Except.ok.injEq] at h5
        subst h5
        have := h6.1 1 (by decide) (by decide)
        rw [looped_get h4] at this
        cases this
    exact fun n e t hn ht => hall (n+1) n (Nat.lt_succ_self n) e t hn ht
  intro hu n _
  obtain ⟨t,ls,h1,h2⟩ := build_stores pages (kvs.take n) (take_keys kvs n hk)
    (unfilled_take pages kvs n (fun m _ => hu m))
  exact ⟨t,h1,h2.refines⟩

/-! ## Ascending keys -/

def ascending (v n : ℕ) : List (ℕ × ℕ) := (List.range n).map (fun i => (i+1,v))

theorem ascending_succ {v n : ℕ} : ascending v (n+1) = ascending v n++[(n+1,v)] := by
  rw [ascending, range_succ, map_append]
  rfl

theorem ascending_take {v m n : ℕ} (h : m ≤ n) : (ascending v n).take m = ascending v m := by
  rw [ascending, ascending, ← map_take, take_range, min_eq_left h]

theorem latest_ascending (v n k : ℕ) : latest (ascending v n) k = if 1 ≤ k ∧ k ≤ n then v else 0 := by
  induction n with
  | zero => exact (if_neg (by omega)).symm
  | succ n ih =>
    rw [ascending_succ, latest_concat, ih]
    by_cases hk : n+1 = k
    · rw [if_pos hk, if_pos (by omega)]
    · rw [if_neg hk]
      exact if_congr (by omega) rfl rfl

structure Ascended (v n : ℕ) (t : PageTree) (pre : List Leaf) (l : Leaf) : Prop where
  holds : Stores t (pre++[l]) (ascending v n)
  keys : ∀ e ∈ contents (pre++[l]), e.1 ≤ n ∨ e.1 = absoluteMax
  halves : ∀ m ∈ pre, m.entries.length = 127
  first : n < 254 → pre.length = 0 ∧ l.entries.length = n+1
  later : 254 ≤ n → pre.length = (n-254)/127+1 ∧ l.entries.length = 128+(n-254)%127

section Ascending
variable {v n : ℕ} {t : PageTree} {pre : List Leaf} {l : Leaf} (h : Ascended v n t pre l)
include h

theorem Ascended.around (hn : n+1 ≤ absoluteMax) : Around (pre++[l]) (n+1) pre l [] := by
  have htop : l.top = absoluteMax := by
    obtain ⟨m,hm,ht⟩ := h.holds.stored.ends
    rw [List.getLast?_concat, Option.some.injEq] at hm
    rw [hm, ht]
  refine ⟨rfl,fun m hm => ?_,by omega⟩
  have hrows := rows_increasing h.holds.stored.ordered
  rw [map_append, Increasing, pairwise_append] at hrows
  have hlt : m.top < l.top := hrows.2.2 m.row (mem_map_of_mem hm) l.row (by simp)
  obtain ⟨w,hw⟩ := m.top_mem
  have := h.keys (m.top,w) (mem_flatMap.mpr ⟨m,by simp [hm],hw⟩)
  omega

theorem Ascended.absent (hn : n+1 < absoluteMax) : find (n+1) l.entries = none := by
  refine find_none _ _ (fun e he hk => ?_)
  have := h.keys e (mem_flatMap.mpr ⟨l,by simp,he⟩)
  omega

theorem Ascended.fills (hn : n+1 < absoluteMax) :
    Fills t (n+1) ↔ pre.length+2 = maxKeys ∧ l.entries.length+1 = maxKeys := by
  rw [h.holds.stored.fills (h.around (le_of_lt hn)) v, length_put _ _ _ l.sorted, h.absent hn, if_pos rfl,
    length_append, length_singleton]

theorem Ascended.unfilled (hn : n < 32384) : ¬Fills t (n+1) := by
  have hm : maxKeys = 255 := rfl
  have hmax : absoluteMax = 18446744073709551614 := rfl
  rw [h.fills (by omega)]
  have h1 := h.first
  have h2 := h.later
  omega

theorem Ascended.step (hn : n < 32384) :
    ∃ t' pre' l', t.set (n+1) v = .ok t' ∧ Ascended v (n+1) t' pre' l' := by
  have hm : maxKeys = 255 := rfl
  have hmax : absoluteMax = 18446744073709551614 := rfl
  have ha := h.around (by omega)
  have hlen := length_put (n+1) v l.entries l.sorted
  rw [h.absent (by omega), if_pos rfl] at hlen
  obtain ⟨t',ls',h1,h2,h3⟩ := h.holds.set (n+1,v) (Nat.succ_pos n) (by omega) (h.unfilled hn)
  have hkeys : ∀ e ∈ contents ls', e.1 ≤ n+1 ∨ e.1 = absoluteMax := by
    intro e he
    rw [grown_contents h3] at he
    rcases mem_put _ _ _ he with rfl | he
    · exact .inl le_rfl
    · have := h.keys e he
      omega
  rw [← ascending_succ] at h2
  cases h3 with
  | within p q m m' hp hq hr =>
    obtain ⟨rfl,rfl,rfl⟩ := ha.unique hp
    have hgrown : m'.entries.length = l.entries.length+1 := by rw [hr, ← hlen]
    have hshort := m'.short
    have h3 := h.first
    have h4 := h.later
    refine ⟨t',pre,m',h1,h2,hkeys,h.halves,fun hlt => ?_,fun hge => ?_⟩ <;> omega
  | halved p q m a b hp hq hl hr hs =>
    obtain ⟨rfl,rfl,rfl⟩ := ha.unique hp
    have heq : pre++[a,b] = (pre++[a])++[b] := by simp
    rw [heq] at h2 hkeys
    have hb : b.entries.length = 128 := by
      rw [hs, length_drop, hl]
      rfl
    have hfull : l.entries.length+1 = maxKeys := hlen.symm.trans hl
    have h3 := h.first
    have h4 := h.later
    have ha127 : ∀ x ∈ pre++[a], x.entries.length = 127 := by
      intro x hx
      rcases mem_append.mp hx with hx | hx
      · exact h.halves x hx
      · rw [mem_singleton.mp hx, hr, length_take, hl]
        rfl
    refine ⟨t',pre++[a],b,h1,h2,hkeys,ha127,fun hlt => ?_,fun hge => ?_⟩
    · omega
    · rw [length_append, length_singleton]
      omega

end Ascending

theorem ascending_build (v n : ℕ) (hn : n ≤ 32384) :
    ∃ t pre l, build (fun _ _ => 0) (ascending v n) = .ok t ∧ Ascended v n t pre l := by
  induction n with
  | zero =>
    obtain ⟨t,l,h1,h2,h3⟩ := newTree_stores (fun _ _ => 0)
    refine ⟨t,[],l,by rw [build, h1]; rfl,h2,fun e he => ?_,by simp,
      fun _ => ⟨rfl,by rw [h3]; rfl⟩,by omega⟩
    change e ∈ contents [l] at he
    rw [contents_cons, h3] at he
    have heq : e = (absoluteMax,0) := by simpa [contents] using he
    exact .inr (by rw [heq])
  | succ n ih =>
    obtain ⟨t,pre,l,h1,h2⟩ := ih (by omega)
    obtain ⟨t',pre',l',h3,h4⟩ := h2.step (by omega)
    refine ⟨t',pre',l',?_,h4⟩
    rw [ascending_succ]
    exact (build_concat _ _ (n+1,v) t h1).trans h3

theorem ascending_unfilled {v n : ℕ} (hn : n ≤ 32384) : Unfilled (fun _ _ => 0) (ascending v n) := by
  intro m e t hm ht
  have hlt : m < n := by simpa [ascending] using (List.getElem?_eq_some_iff.mp hm).1
  obtain ⟨t',pre,l,h1,h2⟩ := ascending_build v m (by omega)
  rw [ascending_take hlt.le, h1, Except.ok.injEq] at ht
  obtain rfl : (m+1,v) = e := by simpa [ascending, hlt] using hm
  exact ht ▸ h2.unfilled (by omega)

/-- Four hundred ascending keys split the leaves twice. -/
theorem three_leaves_refine : ∃ t, build (fun _ _ => 0) (ascending 1 400) = .ok t ∧
    numKeys (t.pages 1) = 3 ∧ Refines t (ascending 1 400) := by
  obtain ⟨t,pre,l,h1,h2⟩ := ascending_build 1 400 (by decide)
  obtain ⟨t',h3,h4⟩ := (sets_refine_map_iff (fun _ _ => 0) (ascending 1 400)
    (by unfold Keys; decide +kernel)).mpr (ascending_unfilled (by decide)) 400 (by decide +kernel)
  rw [ascending_take le_rfl] at h3 h4
  obtain rfl : t = t' := Except.ok.inj (h1.symm.trans h3)
  refine ⟨t,h1,?_,h4⟩
  rw [h2.holds.stored.rows.count, length_map, length_append, (h2.later (by decide)).1]
  rfl

/-- Ascending keys fill the root, and then the first key cannot be looked up. -/
theorem ascending_keys_loop : ∃ t, build (fun _ _ => 0) (ascending 1 32385) = .ok t ∧
    (∀ fuel, t.getLoop 1 fuel 1 = .error .hang) ∧ ¬Refines t (ascending 1 32385) := by
  have hm : maxKeys = 255 := rfl
  have hmax : absoluteMax = 18446744073709551614 := rfl
  obtain ⟨t,pre,l,h1,h2⟩ := ascending_build 1 32384 le_rfl
  have hl := h2.later (by omega)
  have hf : Fills t (32384+1) := (h2.fills (by omega)).mpr (by omega)
  obtain ⟨t',top,h3,h4⟩ := h2.holds.stored.set_fills h2.holds.room (by omega) (by omega) 1 hf
  refine ⟨t',?_,fun fuel => h4.getLoop h4.positive fuel,fun hr => ?_⟩
  · rw [ascending_succ]
    exact (build_concat _ _ (32384+1,1) t h1).trans h3
  · have := hr.1 1 (by decide) (by decide)
    rw [looped_get h4] at this
    cases this

end GoCommon.BTreeRefinement
