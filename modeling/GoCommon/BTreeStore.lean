import GoCommon.BTreePages

/-!
# Trees of two levels

As long as its root has never been full a tree consists of the root and leaves.
The root has a row for every leaf, with the largest key of the leaf and its
page, and the leaves one after the other show the entries of a finite map in
increasing order. The last key is the largest one that is allowed.
-/

set_option autoImplicit false

namespace GoCommon.BTreeStore
open List Function SortedEntries BTreeNode BTree BTreePages

structure Leaf where
  page : ℕ
  entries : List (ℕ × ℕ)
  sorted : Increasing entries
  nonempty : entries ≠ []
  short : entries.length < maxKeys
  positive : ∀ e ∈ entries, 0 < e.1

variable {e : ℕ × ℕ} {k : ℕ} {n : Node} {es : List (ℕ × ℕ)}

namespace Leaf

def top (l : Leaf) : ℕ := (l.entries.getLast l.nonempty).1

def row (l : Leaf) : ℕ × ℕ := (l.top,l.page)

theorem le_top (l : Leaf) (he : e ∈ l.entries) : e.1 ≤ l.top := by
  have hs := l.sorted
  have hd := dropLast_append_getLast l.nonempty
  rw [Increasing, ← hd, pairwise_append] at hs
  rw [← hd] at he
  rcases mem_append.mp he with he | he
  · exact le_of_lt (hs.2.2 e he _ (by simp))
  · rw [mem_singleton.mp he]
    exact le_rfl

theorem top_mem (l : Leaf) : ∃ v, (l.top,v) ∈ l.entries := ⟨_,getLast_mem l.nonempty⟩

theorem top_pos (l : Leaf) : 0 < l.top := l.positive _ (getLast_mem l.nonempty)

theorem last (l : Leaf) : l.entries.getLast?.map Prod.fst = some l.top := by
  rw [List.getLast?_eq_some_getLast l.nonempty]
  rfl

theorem top_eq (l : Leaf) (h : l.entries.getLast?.map Prod.fst = some k) : l.top = k := by
  rw [l.last] at h
  exact Option.some.inj h

end Leaf

def contents (ls : List Leaf) : List (ℕ × ℕ) := ls.flatMap Leaf.entries

variable {ls : List Leaf}

theorem contents_append {ms : List Leaf} : contents (ls++ms) = contents ls++contents ms :=
  flatMap_append

variable {l : Leaf}

theorem contents_cons : contents (l::ls) = l.entries++contents ls :=
  flatMap_cons

structure Stored (t : PageTree) (ls : List Leaf) : Prop where
  pool : ∃ fl, Pool t (ls.map Leaf.page) fl
  root : header (t.pages 1) = (1,false)
  rows : Shows (t.pages 1) (ls.map Leaf.row)
  leaf : ∀ l ∈ ls, header (t.pages l.page) = (l.page,true) ∧ Shows (t.pages l.page) l.entries
  ordered : Increasing (contents ls)
  ends : ∃ l, ls.getLast? = some l ∧ l.top = absoluteMax

/-! ## Finding the leaf of a key -/

theorem rows_increasing (h : Increasing (contents ls)) : Increasing (ls.map Leaf.row) := by
  induction ls with
  | nil => exact List.Pairwise.nil
  | cons l ls ih =>
    rw [contents_cons, Increasing, pairwise_append] at h
    refine pairwise_cons.mpr ⟨fun r hr => ?_,ih h.2.1⟩
    obtain ⟨m,hm,rfl⟩ := mem_map.mp hr
    obtain ⟨v,hv⟩ := l.top_mem
    obtain ⟨w,hw⟩ := m.top_mem
    exact h.2.2 (l.top,v) hv (m.top,w) (mem_flatMap.mpr ⟨m,hm,hw⟩)

structure Around (ls : List Leaf) (k : ℕ) (pre : List Leaf) (l : Leaf) (post : List Leaf) : Prop where
  split : ls = pre++l::post
  before : ∀ m ∈ pre, m.top < k
  within : k ≤ l.top

theorem exists_around (ls : List Leaf) (k : ℕ) (hex : ∃ l ∈ ls, k ≤ l.top) :
    ∃ pre l post, Around ls k pre l post := by
  induction ls with
  | nil =>
    obtain ⟨l,hl,_⟩ := hex
    cases hl
  | cons m ls ih =>
    by_cases hm : k ≤ m.top
    · exact ⟨[],m,ls,rfl,by simp,hm⟩
    obtain ⟨l,hl,hlk⟩ := hex
    rcases mem_cons.mp hl with rfl | hl
    · exact (hm hlk).elim
    obtain ⟨pre,l',post,hs,hb,hw⟩ := ih ⟨l,hl,hlk⟩
    refine ⟨m::pre,l',post,by rw [hs]; rfl,fun x hx => ?_,hw⟩
    rcases mem_cons.mp hx with rfl | hx
    · omega
    · exact hb x hx

section Routing
variable {ls pre post : List Leaf} {l : Leaf} {k : ℕ} (ha : Around ls k pre l post)
include ha

theorem Around.contents : contents ls = contents pre++(l.entries++contents post) := by
  rw [ha.split, contents_append, contents_cons]

theorem Around.lower (he : e ∈ BTreeStore.contents pre) : e.1 < k := by
  obtain ⟨m,hm,hem⟩ := mem_flatMap.mp he
  exact lt_of_le_of_lt (m.le_top hem) (ha.before m hm)

theorem Around.upper (h : Increasing (BTreeStore.contents ls))
    (he : e ∈ BTreeStore.contents post) : l.top < e.1 := by
  rw [ha.contents, Increasing, pairwise_append, pairwise_append] at h
  obtain ⟨v,hv⟩ := l.top_mem
  exact h.2.1.2.2 _ hv e he

theorem Around.rank : rank k (ls.map Leaf.row) = pre.length := by
  rw [ha.split, map_append, rank_append]
  · simp
  · intro e he
    obtain ⟨m,hm,rfl⟩ := mem_map.mp he
    exact ha.before m hm
  intro e he
  rw [map_cons, List.head?_cons, Option.mem_some_iff] at he
  rw [← he]
  exact ha.within

theorem Around.row : (ls.map Leaf.row)[pre.length]? = some l.row := by
  rw [ha.split]
  simp

theorem Around.find (h : Increasing (BTreeStore.contents ls)) (j : ℕ) (hj : j = k) :
    find j (BTreeStore.contents ls) = find j l.entries := by
  subst hj
  have hpost : SortedEntries.find j (BTreeStore.contents post) = none :=
    find_none j _ (fun e he hej => by have h1 := ha.upper h he; have h2 := ha.within; omega)
  rw [ha.contents, find_append, find_append, hpost,
    find_none j _ (fun e he => ne_of_lt (ha.lower he))]
  cases SortedEntries.find j l.entries <;> rfl

theorem Around.put (v : ℕ) : put k v (BTreeStore.contents ls) =
    BTreeStore.contents pre++(put k v l.entries++BTreeStore.contents post) := by
  rw [ha.contents, put_append_right _ _ (fun e he => ha.lower he)]
  obtain ⟨w,hw⟩ := l.top_mem
  rw [put_append_left _ _ ⟨_,hw,ha.within⟩]

theorem Around.unique {pre' post' : List Leaf} {l' : Leaf} (ha' : Around ls k pre' l' post') :
    pre = pre' ∧ l = l' ∧ post = post' := by
  have hlen : pre.length = pre'.length := by rw [← ha.rank, ← ha'.rank]
  obtain ⟨h1,h2⟩ := append_inj (ha.split.symm.trans ha'.split) hlen
  rw [List.cons.injEq] at h2
  exact ⟨h1,h2⟩

theorem Around.mem : l ∈ ls := by rw [ha.split]; simp

end Routing

/-! ## Reading -/

section Reading
variable {t : PageTree} {ls : List Leaf} (h : Stored t ls)
include h

theorem Stored.node_root : t.node 1 = .ok (t.pages 1) := by
  obtain ⟨fl,hp⟩ := h.pool
  exact hp.node 1 (.inl rfl)

theorem Stored.node_leaf (l : Leaf) (hl : l ∈ ls) : t.node l.page = .ok (t.pages l.page) := by
  obtain ⟨fl,hp⟩ := h.pool
  exact hp.node l.page (.inr (mem_append_left _ (mem_map_of_mem hl)))

theorem Stored.page_pos (l : Leaf) (hl : l ∈ ls) : 2 ≤ l.page ∧ l.page < t.nextPage := by
  obtain ⟨fl,hp⟩ := h.pool
  exact hp.bounds l.page (mem_append_left _ (mem_map_of_mem hl))

theorem Stored.fuel : ∃ f, t.nextPage = f+1+1 := by
  obtain ⟨l,hl,_⟩ := h.ends
  have := h.page_pos l (mem_of_getLast? hl)
  exact ⟨t.nextPage-2,by omega⟩

theorem Stored.root_inner : isLeaf (t.pages 1) = false := congrArg Prod.snd h.root

theorem Stored.leaf_leaf (hl : l ∈ ls) : isLeaf (t.pages l.page) = true :=
  congrArg Prod.snd (h.leaf l hl).1

theorem Stored.around (hk : k ≤ absoluteMax) : ∃ pre l post, Around ls k pre l post := by
  obtain ⟨l,hl,ht⟩ := h.ends
  exact exists_around ls k ⟨l,mem_of_getLast? hl,by omega⟩

theorem Stored.route {pre post : List Leaf} (ha : Around ls k pre l post) :
    searchNode (t.pages 1) k = pre.length ∧ key (t.pages 1) pre.length = l.top ∧
      val (t.pages 1) pre.length = l.page ∧ pre.length < numKeys (t.pages 1) := by
  obtain ⟨h1,h2⟩ := h.rows.entry _ _ ha.row
  refine ⟨?_,h1,h2,?_⟩
  · rw [h.rows.search (rows_increasing h.ordered), ha.rank]
  · rw [h.rows.count, ha.split]
    simp

theorem Stored.get (k : ℕ) (hk : 0 < k) (hm : k ≤ absoluteMax) :
    t.get k = .ok ((find k (contents ls)).getD 0) := by
  obtain ⟨pre,l,post,ha⟩ := h.around hm
  obtain ⟨h1,h2,h3,h4⟩ := h.route ha
  obtain ⟨f,hf⟩ := h.fuel
  have hl := ha.mem
  have hpos := h.page_pos l hl
  have hmax : absoluteMax < maxUint64 := by decide
  have hstep : t.getLoop k (f+1) l.page = .ok ((find k l.entries).getD 0) := by
    rw [PageTree.getLoop, h.node_leaf l hl]
    simp only [bind, Except.bind, h.leaf_leaf hl, if_true]
    rw [(h.leaf l hl).2.get l.sorted]
  rw [PageTree.get, if_neg (by omega), hf, PageTree.getLoop, h.node_root]
  simp only [bind, Except.bind, h.root_inner, Bool.false_eq_true, if_false, h1]
  have htop := l.top_pos
  rw [if_neg (by omega), show t.pages 1 (valOffset pre.length) = l.page from h3,
    if_neg (by omega), hstep, ha.find h.ordered k rfl]

end Reading

/-! ## Writing -/

theorem enter_shows (k v : ℕ) (h : Shows n es)
    (hs : Increasing es) (hk : 0 < k) (hl : (put k v es).length ≤ maxKeys) :
    ∃ n', PageTree.enter n k v = .ok (n',if find k es = none then 1 else 0) ∧
      Shows n' (put k v es) ∧ header n' = header n := by
  obtain ⟨n',h1,h2,h3⟩ := setNode_shows n h hs hk hl
  exact ⟨n',by rw [PageTree.enter, h1],h2,h3⟩

theorem write_self {t : PageTree} {p : ℕ} : t.write p (t.pages p) = t := by
  rw [PageTree.write, update_eq_self]

theorem last_entries (v : ℕ) (hk : k ≤ l.top) :
    (put k v l.entries).getLast?.map Prod.fst = some l.top := by
  obtain ⟨w,hw⟩ := l.top_mem
  rw [last_put k v _ ⟨_,hw,hk⟩, l.last]

section Pages
variable {t : PageTree} {pre post : List Leaf} {l : Leaf}

theorem getLast_middle (x : Leaf) : (pre++x::post).getLast? = some (post.getLast?.getD x) := by
  rw [List.getLast?_append, List.getLast?_cons]
  rfl

theorem ends_middle (pre' : List Leaf) {x y : Leaf} (ht : y.top = x.top)
    (h : ∃ l, (pre++x::post).getLast? = some l ∧ l.top = absoluteMax) :
    ∃ l, (pre'++y::post).getLast? = some l ∧ l.top = absoluteMax := by
  obtain ⟨m,hm,htop⟩ := h
  rw [getLast_middle, Option.some.injEq] at hm
  refine ⟨_,getLast_middle y,?_⟩
  rcases hp : post.getLast? with _ | z
  · rw [hp] at hm
    rw [Option.getD_none, ht, ← htop, ← hm]
    rfl
  · rw [hp] at hm
    rw [← htop, ← hm]
    rfl

theorem Stored.apart (h : Stored t (pre++l::post)) (m : Leaf) (hm : m ∈ pre ∨ m ∈ post) :
    m.page ≠ l.page := by
  obtain ⟨fl,hp⟩ := h.pool
  have hnd := (nodup_append.mp hp.nodup).1
  rw [map_append, map_cons, nodup_append, nodup_cons] at hnd
  rcases hm with hm | hm
  · exact hnd.2.2 _ (mem_map_of_mem hm) _ (by simp)
  · exact fun he => hnd.2.1.1 (he ▸ mem_map_of_mem hm)

theorem Stored.replace (h : Stored t (pre++l::post)) (l' : Leaf) (n : Node) (keys : ℤ)
    (hp : l'.page = l.page) (ht : l'.top = l.top) (hn : header n = (l.page,true))
    (hs : Shows n l'.entries) (ho : Increasing (contents (pre++l'::post))) :
    Stored { t.write l.page n with numLeafKeys := keys } (pre++l'::post) := by
  have hpages : (pre++l'::post).map Leaf.page = (pre++l::post).map Leaf.page := by simp [hp]
  have hrows : (pre++l'::post).map Leaf.row = (pre++l::post).map Leaf.row := by
    simp [Leaf.row, hp, ht]
  have hpos := h.page_pos l (by simp)
  obtain ⟨fl,hpool⟩ := h.pool
  have hfl := hpool.used_not_free l.page (by simp)
  have hroot : { t.write l.page n with numLeafKeys := keys : PageTree }.pages 1 = t.pages 1 := by
    rw [write_pages, if_neg (by omega)]
  refine ⟨⟨fl,by rw [hpages]; exact (hpool.write _ n hfl).counters keys⟩,by rw [hroot]; exact h.root,
    by rw [hroot, hrows]; exact h.rows,fun m hm => ?_,ho,ends_middle pre ht h.ends⟩
  rcases mem_append.mp hm with hm | hm
  · rw [write_pages, if_neg (h.apart m (.inl hm))]
    exact h.leaf m (by simp [hm])
  rcases mem_cons.mp hm with rfl | hm
  · rw [write_pages, if_pos hp, hp]
    exact ⟨hn,hs⟩
  · rw [write_pages, if_neg (h.apart m (.inr hm))]
    exact h.leaf m (by simp [hm])

end Pages

inductive Grown (k v : ℕ) (ls : List Leaf) : List Leaf → Prop where
  | within (pre post : List Leaf) (l l' : Leaf) : Around ls k pre l post → l'.page = l.page →
      l'.entries = put k v l.entries → Grown k v ls (pre++l'::post)
  | halved (pre post : List Leaf) (l a b : Leaf) : Around ls k pre l post → a.page = l.page →
      (put k v l.entries).length = maxKeys → a.entries = (put k v l.entries).take (maxKeys/2) →
      b.entries = (put k v l.entries).drop (maxKeys/2) → Grown k v ls (pre++a::b::post)

theorem grown_contents {v : ℕ} {ls' : List Leaf} (h : Grown k v ls ls') :
    contents ls' = put k v (contents ls) := by
  cases h with
  | within pre post l l' ha hp he => rw [ha.put, contents_append, contents_cons, he]
  | halved pre post l a b ha hp hl he hf =>
    rw [ha.put, contents_append, contents_cons, contents_cons, he, hf,
      ← append_assoc (List.take _ _), take_append_drop]

def entered (t : PageTree) (p : ℕ) (n : Node) (added : ℕ) : PageTree :=
  { t.write p n with numLeafKeys := t.numLeafKeys+added }

theorem entered_pages {t : PageTree} {p q : ℕ} {added : ℕ} :
    (entered t p n added).pages q = if q = p then n else t.pages q := write_pages t p n q

def added (k : ℕ) (es : List (ℕ × ℕ)) : ℕ := if find k es = none then 1 else 0

section Setting
variable {t : PageTree} {ls pre post : List Leaf} {l : Leaf} {k : ℕ}

theorem Stored.entered_pool (h : Stored t ls) (hl : l ∈ ls) (n : Node) (m : ℕ) :
    ∃ fl, Pool (entered t l.page n m) (ls.map Leaf.page) fl := by
  obtain ⟨fl,hp⟩ := h.pool
  exact ⟨fl,(hp.write _ n (hp.used_not_free _ (mem_map_of_mem hl))).counters _⟩

/-- A set comes to the leaf of its key, writes the entry there and splits the
leaf when it is full. -/
theorem Stored.setLoop (h : Stored t ls) (ha : Around ls k pre l post) (hlen : ls.length < maxKeys)
    (v : ℕ) (hk : 0 < k) :
    ∃ n, Shows n (put k v l.entries) ∧ header n = (l.page,true) ∧ ∀ f, t.setLoop (f+1+1) 1 k v =
      if (put k v l.entries).length = maxKeys then
        (entered t l.page n (added k l.entries)).splitChild 1 pre.length l.page
      else .ok (entered t l.page n (added k l.entries)) := by
  have hl := ha.mem
  obtain ⟨h1,h2,h3,h4⟩ := h.route ha
  have hput : (put k v l.entries).length ≤ maxKeys := by
    have := length_put k v l.entries l.sorted
    have := l.short
    split at * <;> omega
  obtain ⟨n,e1,e2,e3⟩ := enter_shows k v (h.leaf l hl).2 l.sorted hk hput
  rw [(h.leaf l hl).1] at e3
  refine ⟨n,e2,e3,fun f => ?_⟩
  have hidx : ¬maxKeys ≤ pre.length := by
    rw [ha.split, length_append] at hlen
    omega
  have hpos := h.page_pos l hl
  have htop := l.top_pos
  have hchild : (entered t l.page n (added k l.entries)).node l.page = .ok n := by
    obtain ⟨fl,hp⟩ := h.entered_pool hl n (added k l.entries)
    rw [hp.node _ (.inr (mem_append_left _ (mem_map_of_mem hl))), entered_pages, if_pos rfl]
  have hleaf : t.setLoop (f+1) l.page k v = .ok (entered t l.page n (added k l.entries)) := by
    rw [PageTree.setLoop, h.node_leaf l hl]
    simp only [bind, Except.bind, h.leaf_leaf hl, if_true, e1]
    rfl
  have hpid : pid (t.pages l.page) = l.page := congrArg Prod.fst (h.leaf l hl).1
  rw [PageTree.setLoop, h.node_root]
  simp only [bind, Except.bind, h.root_inner, Bool.false_eq_true, if_false, h1, hidx, h2,
    if_neg (show l.top ≠ 0 by omega), write_self, PageTree.ensureChild, h3,
    if_neg (show l.page ≠ 0 by omega), h.node_leaf l hl, hpid, hleaf, hchild, isFull, e2.count,
    decide_eq_true_eq, show pid n = l.page from congrArg Prod.fst e3]

theorem Leaf.maxKey (m : Leaf) (h : Shows n m.entries) : maxKey n = m.top :=
  h.maxKey (List.getLast?_eq_some_getLast m.nonempty)

theorem rows_put (ha : Around ls k pre l post) (m p q : ℕ) (hlo : ∀ x ∈ pre, x.top < m)
    (hhi : m < l.top) : put m p (ls.map Leaf.row) =
      pre.map Leaf.row++(m,p)::l.row::post.map Leaf.row ∧
    put l.top q (put m p (ls.map Leaf.row)) =
      pre.map Leaf.row++(m,p)::(l.top,q)::post.map Leaf.row := by
  have hb : ∀ e ∈ pre.map Leaf.row, e.1 < m := by
    intro e he
    obtain ⟨x,hx,rfl⟩ := mem_map.mp he
    exact hlo x hx
  have hrow : l.row.1 = l.top := rfl
  have hfirst : put m p (ls.map Leaf.row) = pre.map Leaf.row++(m,p)::l.row::post.map Leaf.row := by
    rw [ha.split, map_append, put_append_right _ _ hb, map_cons, put,
      hrow, if_neg (not_lt.mpr (le_of_lt hhi)), if_neg (ne_of_gt hhi)]
  refine ⟨hfirst,?_⟩
  rw [hfirst, put_append_right _ _ (fun e he => (hb e he).trans hhi), put, if_pos hhi, put,
    hrow, if_neg (lt_irrefl _), if_pos rfl]

theorem exists_halves (p q : ℕ) (hs : Increasing es) (hpos : ∀ e ∈ es, 0 < e.1)
    (hl : es.length = maxKeys) : ∃ a b : Leaf, a.page = p ∧ b.page = q ∧
      a.entries = es.take (maxKeys/2) ∧ b.entries = es.drop (maxKeys/2) := by
  have hm : maxKeys = 255 := rfl
  have ht : (es.take (maxKeys/2)).length = 127 := by rw [length_take]; omega
  have hd : (es.drop (maxKeys/2)).length = 128 := by rw [length_drop]; omega
  exact ⟨⟨p,_,hs.sublist (take_sublist _ _),ne_nil_of_length_pos (by omega),by omega,
      fun e he => hpos e (mem_of_mem_take he)⟩,
    ⟨q,_,hs.sublist (drop_sublist _ _),ne_nil_of_length_pos (by omega),by omega,
      fun e he => hpos e (mem_of_mem_drop he)⟩,rfl,rfl,rfl,rfl⟩

theorem top_halves {a b : Leaf} (hs : Increasing es)
    (ha : a.entries = es.take (maxKeys/2)) (hb : b.entries = es.drop (maxKeys/2)) :
    a.top < b.top ∧ es.getLast?.map Prod.fst = some b.top := by
  obtain ⟨v,hv⟩ := a.top_mem
  obtain ⟨w,hw⟩ := b.top_mem
  rw [ha] at hv
  rw [hb] at hw
  refine ⟨?_,?_⟩
  · rw [Increasing, ← take_append_drop (maxKeys/2) es, pairwise_append] at hs
    exact hs.2.2 (a.top,v) hv (b.top,w) hw
  have hne := b.nonempty
  rw [← b.last, hb, List.getLast?_drop, if_neg]
  rw [hb, Ne, drop_eq_nil_iff] at hne
  exact hne

theorem put_positive (m : Leaf) {j : ℕ} (v : ℕ) (hj : 0 < j) (e : ℕ × ℕ) (he : e ∈ put j v m.entries) :
    0 < e.1 := by
  rcases mem_put j v _ he with rfl | he
  · exact hj
  · exact m.positive e he

theorem Around.below (ha : Around ls k pre l post) (ho : Increasing (BTreeStore.contents ls)) (v : ℕ) (x : Leaf)
    (hx : x ∈ pre) (e : ℕ × ℕ) (he : e ∈ SortedEntries.put k v l.entries) : x.top < e.1 := by
  rcases mem_put k v _ he with rfl | he
  · exact ha.before x hx
  · rw [ha.contents, Increasing, pairwise_append] at ho
    obtain ⟨w,hw⟩ := x.top_mem
    exact ho.2.2 (x.top,w) (mem_flatMap.mpr ⟨x,hx,hw⟩) e (mem_append_left _ he)

theorem Stored.splitChild (h : Stored t ls) (ha : Around ls k pre l post) (hlen : ls.length < maxKeys)
    {v : ℕ} (hk : 0 < k) (hs : Shows n (put k v l.entries)) (hn : header n = (l.page,true))
    (hfull : (put k v l.entries).length = maxKeys) (d : ℕ) :
    ∃ t' ls', (entered t l.page n d).splitChild 1 pre.length l.page = .ok t' ∧ Stored t' ls' ∧
      Grown k v ls ls' ∧ ls'.length = ls.length+1 ∧ t'.numLeafKeys = t.numLeafKeys+d := by
  have hl := ha.mem
  have hpos := h.page_pos l hl
  obtain ⟨fl,hpool⟩ := h.entered_pool hl n d
  have hpage : (entered t l.page n d).pages l.page = n := by rw [entered_pages, if_pos rfl]
  obtain ⟨t2,q,hsplit,⟨fl2,hpool2⟩,hfresh,⟨hL,hLh⟩,⟨hR,hRh⟩,hothers,hkeys⟩ := split_halves l.page
    hpool (.inr (mem_map_of_mem hl)) (by rw [hpage]; exact hs) hfull
  rw [hpage, hn] at hLh hRh
  have hq := hpool2.bounds q (by simp)
  have hroot : t2.pages 1 = t.pages 1 := by
    rw [hothers 1 (by omega) (by omega), entered_pages, if_neg (by omega)]
  have hsorted := put_increasing k v _ l.sorted
  obtain ⟨a,b,hap,hbp,hae,hbe⟩ := exists_halves l.page q hsorted (put_positive l v hk) hfull
  obtain ⟨hab,hbt⟩ := top_halves hsorted hae hbe
  rw [last_entries v ha.within, Option.some.injEq] at hbt
  have hlow : ∀ x ∈ pre, x.top < a.top := by
    intro x hx
    obtain ⟨w,hw⟩ := a.top_mem
    rw [hae] at hw
    exact ha.below h.ordered v x hx (a.top,w) (mem_of_mem_take hw)
  obtain ⟨hr1,hr2⟩ := rows_put ha a.top l.page q hlow (by omega)
  have hgrown := Grown.halved pre post l a b ha hap hfull hae hbe
  have hordered := put_increasing k v _ h.ordered
  rw [← grown_contents hgrown] at hordered
  have hinc := rows_increasing h.ordered
  have hlen1 : (put a.top l.page (ls.map Leaf.row)).length = ls.length+1 := by
    rw [hr1, ha.split]
    simp
    omega
  have hlen2 : (put l.top q (put a.top l.page (ls.map Leaf.row))).length = ls.length+1 := by
    rw [hr2, ha.split]
    simp
    omega
  obtain ⟨n1,e1,s1,g1⟩ := enter_shows a.top l.page h.rows hinc a.top_pos (by omega)
  obtain ⟨n2,e2,s2,g2⟩ := enter_shows l.top q s1 (put_increasing _ _ _ hinc) l.top_pos (by omega)
  have hmem : l.page ∈ q::ls.map Leaf.page := mem_cons_of_mem _ (mem_map_of_mem hl)
  have hkeep : ∀ m, m ∈ pre ∨ m ∈ post → m ∈ ls ∧ (t2.write 1 n2).pages m.page = t.pages m.page := by
    intro m hm
    have hls : m ∈ ls := by
      rw [ha.split]
      rcases hm with hm | hm <;> simp [hm]
    have hne : m.page ≠ l.page := (ha.split ▸ h).apart m hm
    have hneq : m.page ≠ q := by
      have hnd := (nodup_append.mp hpool2.nodup).1
      exact fun he => (nodup_cons.mp hnd).1 (he ▸ mem_map_of_mem hls)
    have := h.page_pos m hls
    rw [write_pages, if_neg (by omega), hothers _ hne hneq, entered_pages, if_neg hne]
    exact ⟨hls,rfl⟩
  refine ⟨t2.write 1 n2,pre++a::b::post,?_,⟨⟨fl2,?_⟩,?_,?_,fun m hm => ?_,hordered,?_⟩,hgrown,?_,hkeys⟩
  · have hvl : t.pages 1 (valOffset pre.length) = l.page := (h.route ha).2.2.1
    have hma : maxKey (t2.pages l.page) = a.top := a.maxKey (by rw [hae]; exact hL)
    have hmb : maxKey (t2.pages q) = b.top := b.maxKey (by rw [hbe]; exact hR)
    rw [PageTree.splitChild, hsplit]
    simp only [bind, Except.bind, hpool2.node 1 (.inl rfl), hroot, hvl,
      hpool2.node l.page (.inr (mem_append_left _ hmem)), hpool2.node q (.inr (by simp)), hma, hmb,
      show pid (t2.pages l.page) = l.page from congrArg Prod.fst hLh,
      show pid (t2.pages q) = q from congrArg Prod.fst hRh, e1, ← hbt, e2]
  · refine (hpool2.write 1 n2 hpool2.root_not_free).reorder ?_
    have := @List.perm_middle _ q (pre.map Leaf.page++[l.page]) (post.map Leaf.page)
    simpa [ha.split, hap, hbp] using this
  · rw [write_pages, if_pos rfl, g2, g1, h.root]
  · rw [write_pages]
    rw [hr2] at s2
    simpa [Leaf.row, hap, hbp, ← hbt] using s2
  · rcases mem_append.mp hm with hm | hm
    · obtain ⟨hls,hpg⟩ := hkeep m (.inl hm)
      rw [hpg]
      exact h.leaf m hls
    rcases mem_cons.mp hm with rfl | hm
    · rw [hap, write_pages, if_neg (by omega), hae]
      exact ⟨hLh,hL⟩
    rcases mem_cons.mp hm with rfl | hm
    · rw [hbp, write_pages, if_neg (by omega), hbe]
      exact ⟨hRh,hR⟩
    · obtain ⟨hls,hpg⟩ := hkeep m (.inr hm)
      rw [hpg]
      exact h.leaf m hls
  · have := ends_middle (pre++[a]) hbt.symm (ha.split ▸ h.ends)
    simpa using this
  · rw [ha.split]
    simp
    omega

theorem added_contents (h : Stored t ls) (ha : Around ls k pre l post) :
    added k (contents ls) = added k l.entries := by
  rw [added, added, ha.find h.ordered k rfl]

theorem Stored.insert (h : Stored t ls) (ha : Around ls k pre l post) (hlen : ls.length < maxKeys)
    (v : ℕ) (hk : 0 < k) : ∃ t' ls', t.setLoop t.nextPage 1 k v = .ok t' ∧ Stored t' ls' ∧
      Grown k v ls ls' ∧ t'.numLeafKeys = t.numLeafKeys+added k (contents ls) ∧
      ls'.length = ls.length+if (put k v l.entries).length = maxKeys then 1 else 0 := by
  obtain ⟨n,hs,hn,hloop⟩ := h.setLoop ha hlen v hk
  obtain ⟨f,hf⟩ := h.fuel
  rw [hf, hloop f, added_contents h ha]
  by_cases hfull : (put k v l.entries).length = maxKeys
  · rw [if_pos hfull, if_pos hfull]
    obtain ⟨t',ls',h1,h2,h3,h4,h5⟩ := h.splitChild ha hlen hk hs hn hfull (added k l.entries)
    exact ⟨t',ls',h1,h2,h3,h5,h4⟩
  rw [if_neg hfull, if_neg hfull]
  have hshort : (put k v l.entries).length < maxKeys := by
    have h1 := length_put k v l.entries l.sorted
    have h2 := l.short
    split at h1 <;> omega
  have hlast := last_entries v ha.within
  have hne : put k v l.entries ≠ [] := by
    intro he
    rw [he] at hlast
    cases hlast
  let l' : Leaf := ⟨l.page,put k v l.entries,put_increasing k v _ l.sorted,hne,hshort,
    put_positive l v hk⟩
  have hg : Grown k v ls (pre++l'::post) := .within pre post l l' ha rfl rfl
  have ho := put_increasing k v _ h.ordered
  rw [← grown_contents hg] at ho
  refine ⟨_,pre++l'::post,rfl,(ha.split ▸ h).replace l' n _ rfl (l'.top_eq hlast) hn hs ho,hg,rfl,?_⟩
  rw [ha.split]
  simp

end Setting

/-! ## The root becomes full -/

def Fills (t : PageTree) (k : ℕ) : Prop :=
  numKeys (t.pages 1)+1 = maxKeys ∧
  numKeys (t.pages (val (t.pages 1) (searchNode (t.pages 1) k)))+1 = maxKeys ∧
  key (t.pages (val (t.pages 1) (searchNode (t.pages 1) k)))
    (searchNode (t.pages (val (t.pages 1) (searchNode (t.pages 1) k))) k) ≠ k

section Filling
variable {t : PageTree} {ls pre post : List Leaf} {l : Leaf} {k : ℕ}

theorem Stored.fills (h : Stored t ls) (ha : Around ls k pre l post) (v : ℕ) :
    Fills t k ↔ ls.length+1 = maxKeys ∧ (put k v l.entries).length = maxKeys := by
  obtain ⟨h1,h2,h3,h4⟩ := h.route ha
  have hleaf := (h.leaf l ha.mem).2
  have hlt : rank k l.entries < l.entries.length := by
    by_contra hge
    obtain ⟨w,hw⟩ := l.top_mem
    obtain ⟨i,hi,he⟩ := getElem_of_mem hw
    have := lt_rank k l.entries i _ (List.getElem?_eq_getElem hi) (by omega)
    rw [he] at this
    have := ha.within
    omega
  rw [Fills, h1, h3, h.rows.count, hleaf.count, hleaf.search l.sorted, hleaf.key_at _ hlt,
    length_put k v _ l.sorted, find_rank k _ l.sorted, List.getElem?_eq_getElem hlt, Option.bind_some,
    length_map]
  have hs := l.short
  by_cases he : l.entries[rank k l.entries].1 = k
  · simp only [he, if_true]
    simp
    omega
  · simp only [he, if_false]
    simp only [ne_eq, if_true, he, not_false_eq_true, and_true]

theorem Stored.set (h : Stored t ls) (hlen : ls.length < maxKeys) (hk : 0 < k) (hm : k ≤ absoluteMax)
    (v : ℕ) (hf : ¬Fills t k) : ∃ t' ls', t.set k v = .ok t' ∧ Stored t' ls' ∧
      Grown k v ls ls' ∧ ls'.length < maxKeys ∧
      t'.numLeafKeys = t.numLeafKeys+added k (contents ls) := by
  obtain ⟨pre,l,post,ha⟩ := h.around hm
  obtain ⟨t',ls',h1,h2,h3,h4,h5⟩ := h.insert ha hlen v hk
  rw [h.fills ha v] at hf
  have hl' : ls'.length < maxKeys := by
    split at h5 <;> omega
  refine ⟨t',ls',?_,h2,h3,hl',h4⟩
  have hmax : absoluteMax < maxUint64 := by decide
  have hnf : ¬isFull (t'.pages 1) = true := by
    rw [isFull, h2.rows.count, length_map, decide_eq_true_eq]
    omega
  rw [PageTree.set, if_neg (by omega), h1]
  simp only [bind, Except.bind, h2.node_root, if_neg hnf]

structure Looped (t : PageTree) (m : ℕ) : Prop where
  node : t.node 1 = .ok (t.pages 1)
  inner : isLeaf (t.pages 1) = false
  rows : ∃ es, Increasing ((m,1)::es) ∧ Shows (t.pages 1) ((m,1)::es)
  positive : 0 < m

theorem Looped.getLoop {m : ℕ} (h : Looped t m) (hk : k ≤ m) (fuel : ℕ) :
    t.getLoop k fuel 1 = .error .hang := by
  obtain ⟨es,hs,hr⟩ := h.rows
  have hpos := h.positive
  induction fuel with
  | zero => rfl
  | succ fuel ih =>
    have hrank : rank k ((m,1)::es) = 0 := by rw [rank, if_neg (not_lt.mpr hk)]
    obtain ⟨h1,h2⟩ := hr.entry 0 (m,1) rfl
    have hv : t.pages 1 (valOffset 0) = 1 := h2
    rw [PageTree.getLoop, h.node]
    simp only [bind, Except.bind, h.inner, Bool.false_eq_true, if_false, hr.search hs, hrank, hr.count, h1]
    rw [if_neg (by simp; omega), hv, if_neg (by omega), ih]

theorem clear_empty (n : Node) : Shows (setNumKeys (zeroOut n 0 pageWords) 0) [] ∧
    header (setNumKeys (zeroOut n 0 pageWords) 0) = (0,false) := by
  have hz : ∀ i < pageWords, zeroOut n 0 pageWords i = 0 := fun i hi => if_pos ⟨Nat.zero_le _,hi⟩
  refine ⟨⟨numKeys_setNumKeys _ _ (by decide),fun i e hi => by simp at hi,fun i _ hi => ?_⟩,?_⟩
  · have : i < 255 := hi
    rw [key_setNumKeys, key, hz _ (by simp only [keyOffset, metaOffset, pageWords, pageSize]; omega)]
  · rw [header_setNumKeys _ _ (by decide), header, isLeaf_eq, pid, hz _ (by decide), hz _ (by decide),
      Nat.zero_testBit]

theorem lower_half (n : Node) {root : Node} (hs : Shows root es) (hl : 0 < es.length)
    (hm : es.length ≤ maxKeys) (he : es.getLast? = some e) :
    maxKey (setNumKeys (copyWords n 0 (keyOffset maxKeys) root 0) (numKeys root)) = e.1 ∧
    pid (setNumKeys (copyWords n 0 (keyOffset maxKeys) root 0) (numKeys root)) = pid root := by
  have hc := hs.count
  have hb : maxKeys < 2^32 := by decide
  refine ⟨?_,?_⟩
  · rw [maxKey, numKeys_setNumKeys _ _ (by omega), if_pos (by omega), key_setNumKeys, key, copyWords,
      if_pos ⟨Nat.zero_le _,by simp only [keyOffset]; omega⟩, Nat.zero_add, ← hs.maxKey he, maxKey, if_pos (by omega)]
    rfl
  · rfl

theorem Stored.splitRoot (h : Stored t ls) (hl : ls.length = maxKeys) :
    ∃ t' m, t.splitRoot = .ok t' ∧ Looped t' m := by
  have hm : maxKeys = 255 := rfl
  obtain ⟨fl,hpool⟩ := h.pool
  obtain ⟨t1,q,hsplit,⟨fl1,hpool1⟩,hfresh,⟨hL,hLh⟩,⟨hR,hRh⟩,hothers,hkeys⟩ := split_halves 1 hpool
    (.inl rfl) h.rows (by rw [length_map, hl])
  obtain ⟨t2,p,hnew,⟨fl2,hpool2⟩,hpages2,hkeys2⟩ := newNode_page (bits (t1.pages 1)) hpool1
  have hp := hpool2.bounds p (by simp)
  have hpq : q ≠ p := by
    have hnd := hpool2.nodup
    rw [cons_append, nodup_cons] at hnd
    rintro rfl
    exact hnd.1 (by simp)
  have hroot : t2.pages 1 = t1.pages 1 := by rw [hpages2, update_of_ne (by omega)]
  have hright : t2.pages q = t1.pages q := by rw [hpages2, update_of_ne hpq]
  have hsorted := rows_increasing h.ordered
  have hrl : (ls.map Leaf.row).length = maxKeys := by rw [length_map, hl]
  have hlen1 : ((ls.map Leaf.row).take (maxKeys/2)).length = 127 := by rw [length_take]; omega
  have hlen2 : ((ls.map Leaf.row).drop (maxKeys/2)).length = 128 := by rw [length_drop]; omega
  obtain ⟨e,he⟩ : ∃ e, ((ls.map Leaf.row).take (maxKeys/2)).getLast? = some e :=
    ⟨_,List.getLast?_eq_some_getLast (ne_nil_of_length_pos (by omega))⟩
  obtain ⟨d,hd⟩ : ∃ d, ((ls.map Leaf.row).drop (maxKeys/2)).getLast? = some d :=
    ⟨_,List.getLast?_eq_some_getLast (ne_nil_of_length_pos (by omega))⟩
  have hem := mem_of_getLast? he
  have hdm := mem_of_getLast? hd
  have hed : e.1 < d.1 := by
    rw [Increasing, ← take_append_drop (maxKeys/2) (ls.map Leaf.row), pairwise_append] at hsorted
    exact hsorted.2.2 e hem d hdm
  have hepos : 0 < e.1 := by
    obtain ⟨x,_,rfl⟩ := mem_map.mp (mem_of_mem_take hem)
    exact x.top_pos
  obtain ⟨hmax,hpid⟩ := lower_half (t2.pages p) hL (by omega) (by omega) he
  rw [show pid (t1.pages 1) = 1 from congrArg Prod.fst (hLh.trans h.root)] at hpid
  obtain ⟨he0,hh0⟩ := clear_empty (t1.pages 1)
  have hrows : put d.1 q (put e.1 1 []) = [(e.1,1),(d.1,q)] := by
    simp only [put, if_pos hed]
  obtain ⟨n1,e1,s1,g1⟩ := enter_shows e.1 1 he0 List.Pairwise.nil hepos
    (show 1 ≤ maxKeys by omega)
  obtain ⟨n2,e2,s2,g2⟩ := enter_shows d.1 q s1 (put_increasing _ _ _ List.Pairwise.nil) (by omega)
    (by rw [hrows]; exact (show 2 ≤ maxKeys by omega))
  rw [hrows] at s2
  refine ⟨(t2.write p (setNumKeys (copyWords (t2.pages p) 0 (keyOffset maxKeys) (t1.pages 1) 0)
    (numKeys (t1.pages 1)))).write 1 n2,e.1,?_,?_,?_,⟨[(d.1,q)],?_,?_⟩,hepos⟩
  · rw [PageTree.splitRoot, hsplit]
    simp only [bind, Except.bind, hpool1.node 1 (.inl rfl), hnew, hpool2.node 1 (.inl rfl), hroot,
      hpool2.node p (.inr (by simp)), hpool2.node q (.inr (by simp)), hright, hmax, hpid, e1,
      hR.maxKey hd, show pid (t1.pages q) = q from congrArg Prod.fst hRh, e2]
  · exact ((hpool2.write p _ (hpool2.used_not_free p (by simp))).write 1 n2 hpool2.root_not_free).node 1
      (.inl rfl)
  · exact congrArg Prod.snd (g2.trans (g1.trans hh0))
  · exact pairwise_cons.mpr ⟨by simpa using hed,pairwise_singleton _ _⟩
  · exact s2

theorem Stored.set_fills (h : Stored t ls) (hlen : ls.length < maxKeys) (hk : 0 < k)
    (hm : k ≤ absoluteMax) (v : ℕ) (hf : Fills t k) : ∃ t' m, t.set k v = .ok t' ∧ Looped t' m := by
  obtain ⟨pre,l,post,ha⟩ := h.around hm
  obtain ⟨t',ls',h1,h2,h3,h4,h5⟩ := h.insert ha hlen v hk
  rw [h.fills ha v] at hf
  rw [if_pos hf.2] at h5
  have hmax : absoluteMax < maxUint64 := by decide
  have hfull : isFull (t'.pages 1) = true := by
    rw [isFull, h2.rows.count, length_map, decide_eq_true_eq]
    omega
  obtain ⟨t2,m,h6,h7⟩ := h2.splitRoot (by omega)
  refine ⟨t2,m,?_,h7⟩
  rw [PageTree.set, if_neg (by omega), h1]
  simp only [bind, Except.bind, h2.node_root, if_pos hfull, h6]

end Filling

/-! ## The new tree -/

theorem first_row (k q : ℕ) (h : Shows n []) (hn : header n = (1,false)) :
    Shows (setAt (setNumKeys (setAt n (keyOffset 0) k) 1) (valOffset 0) q) [(k,q)] ∧
    header (setAt (setNumKeys (setAt n (keyOffset 0) k) 1) (valOffset 0) q) = (1,false) := by
  have hmeta := meta_congr (setNumKeys (setAt n (keyOffset 0) k) 1)
    (setAt (setNumKeys (setAt n (keyOffset 0) k) 1) (valOffset 0) q) (fun i hi => setAt_other _ (by
      simp only [valOffset]; omega))
  have hkey : ∀ i < maxKeys, key (setAt (setNumKeys (setAt n (keyOffset 0) k) 1) (valOffset 0) q) i =
      if i = 0 then k else key n i := by
    intro i hi
    rw [key, setAt_other _ (by simp only [keyOffset, valOffset]; omega)]
    change key (setNumKeys (setAt n (keyOffset 0) k) 1) i = _
    rw [key_setNumKeys]
    split
    · rename_i h0
      rw [h0, key, setAt_same]
    · rw [key, setAt_other _ (by simp only [keyOffset]; omega)]
      rfl
  have hm : maxKeys = 255 := rfl
  refine ⟨⟨?_,fun i e hi => ?_,fun i hi hx => ?_⟩,?_⟩
  · rw [hmeta.2, numKeys_setNumKeys _ _ (by decide)]
    rfl
  · obtain ⟨rfl,rfl⟩ : i = 0 ∧ e = (k,q) := by
      cases i with
      | zero => exact ⟨rfl,(Option.some.inj hi).symm⟩
      | succ i => simp at hi
    exact ⟨hkey 0 (by omega),setAt_same _⟩
  · rw [hkey i hx, if_neg (by have : 1 ≤ i := hi; omega)]
    exact h.blank i (Nat.zero_le _) hx
  · rw [hmeta.1, header_setNumKeys _ _ (by decide), ← hn]
    exact (meta_congr n _ (fun i hi => setAt_other _ (by simp only [keyOffset]; omega))).1

def rootOnly (pages : ℕ → Node) : PageTree :=
  ⟨update pages 1 (PageTree.clear (pages 1) 0 1),minSize,2,0,0,0⟩

theorem newNode_first {pages : ℕ → Node} :
    PageTree.newNode 0 ⟨pages,minSize,1,0,0,0⟩ = .ok (rootOnly pages,1) := by
  have hsize : max minSize (1*pageSize+pageSize) = minSize := by decide
  have hroom : pageSize*1+pageSize ≤ minSize := by decide
  simp only [PageTree.newNode, lt_irrefl, if_false, PageTree.node, hsize, hroom, if_true, bind, Except.bind]
  rfl

theorem rootOnly_pool (pages : ℕ → Node) : Pool (rootOnly pages) [] [] :=
  ⟨rfl,List.Perm.nil,le_rfl,show pageSize*2 ≤ minSize by decide,rfl⟩

theorem newTree_stored (pages : ℕ → Node) : ∃ t l, newTree pages = .ok t ∧ Stored t [l] ∧
    l.entries = [(absoluteMax,0)] ∧ t.numLeafKeys = 1 := by
  have hm : maxKeys = 255 := rfl
  obtain ⟨hc,hch⟩ := clear_shows (pages 1) 0 1 rfl
  have hroot : (rootOnly pages).pages 1 = PageTree.clear (pages 1) 0 1 := by
    simp only [rootOnly, update_self]
  generalize hn0 : PageTree.clear (pages 1) 0 1 = n0 at hc hch hroot
  have hval : val n0 0 = 0 := by
    rw [← hn0]
    rfl
  have hinner : isLeaf n0 = false := congrArg Prod.snd hch
  have hnum : numKeys (setAt n0 (keyOffset 0) absoluteMax) = 0 := by
    exact hc.count
  generalize hnamed : setNumKeys (setAt n0 (keyOffset 0) absoluteMax) 1 = named
  have hnval : val named 0 = 0 := by
    rw [← hnamed]
    exact hval
  have hpool := (rootOnly_pool pages).write 1 named (by simp)
  obtain ⟨t1,q,hnew,⟨fl,hpool1⟩,hpages,hkeys⟩ := newNode_page bitLeaf hpool
  have hq := hpool1.bounds q (by simp)
  have hp1 : t1.pages 1 = named := by
    rw [hpages, update_of_ne (by omega), write_pages, if_pos rfl]
  obtain ⟨hl,hlh⟩ := clear_shows (((rootOnly pages).write 1 named).pages q) bitLeaf q
    (show bitLeaf &&& maskNumKeys = 0 by decide)
  have hpq : t1.pages q = PageTree.clear (((rootOnly pages).write 1 named).pages q) bitLeaf q := by
    rw [hpages, update_self]
  rw [← hpq] at hl hlh
  obtain ⟨n,e1,s1,g1⟩ := enter_shows absoluteMax 0 hl List.Pairwise.nil (by decide)
    (show 1 ≤ maxKeys by omega)
  have hleaf : header (t1.pages q) = (q,true) := hlh
  rw [hleaf] at g1
  obtain ⟨r1,r2⟩ := first_row absoluteMax q hc hch
  rw [hnamed] at r1 r2
  have hpool2 := hpool1.write 1 (setAt named (valOffset 0) q) hpool1.root_not_free
  have hq2 : (t1.write 1 (setAt named (valOffset 0) q)).pages q = t1.pages q := by
    rw [write_pages, if_neg (by omega)]
  have hr2 : (t1.write 1 (setAt named (valOffset 0) q)).pages 1 = setAt named (valOffset 0) q := by
    rw [write_pages, if_pos rfl]
  have hkeys2 : (t1.write 1 (setAt named (valOffset 0) q)).numLeafKeys = 0 := hkeys
  generalize hT : t1.write 1 (setAt named (valOffset 0) q) = t2 at hpool2 hq2 hr2 hkeys2
  have hloop : t2.setLoop (0+1) q absoluteMax 0 = .ok (entered t2 q n 1) := by
    rw [PageTree.setLoop, hpool2.node q (.inr (by simp)), hq2]
    simp only [bind, Except.bind, show isLeaf (t1.pages q) = true from congrArg Prod.snd hleaf, if_true, e1]
    rfl
  have hpool3 : Pool (entered t2 q n 1) [q] fl :=
    (hpool2.write q n (hpool2.used_not_free q (by simp))).counters _
  have h1 : (entered t2 q n 1).pages 1 = setAt named (valOffset 0) q := by
    rw [entered_pages, if_neg (by omega), hr2]
  have hq3 : (entered t2 q n 1).pages q = n := by rw [entered_pages, if_pos rfl]
  let l : Leaf := ⟨q,[(absoluteMax,0)],pairwise_singleton _ _,by simp,show 1 < maxKeys by omega,
    fun e he => by rw [mem_singleton.mp he]; decide⟩
  refine ⟨entered t2 q n 1,l,?_,⟨⟨fl,hpool3⟩,?_,?_,?_,pairwise_singleton _ _,⟨l,rfl,rfl⟩⟩,rfl,?_⟩
  · have hset : setNumKeys (setAt n0 (keyOffset 0) absoluteMax) (0+1) = named := hnamed
    have hfull : isFull n = false := by
      rw [isFull, s1.count]
      rfl
    have hfull1 : isFull (setAt named (valOffset 0) q) = false := by
      rw [isFull, r1.count]
      rfl
    have hzero : ¬maxKeys ≤ 0 := by omega
    rw [newTree, newNode_first]
    change PageTree.setLoop (0+1+1) 1 absoluteMax 0 (rootOnly pages) >>= _ = _
    rw [PageTree.setLoop, (rootOnly_pool pages).node 1 (.inl rfl), hroot]
    simp only [bind, Except.bind, hinner, Bool.false_eq_true, if_false, hc.search List.Pairwise.nil, rank,
      hc.blank 0 le_rfl (by omega), if_true, hnum, hset, PageTree.ensureChild, hnval, hnew,
      hpool1.node 1 (.inl rfl), hpool1.node q (.inr (by simp)), hp1,
      show pid (t1.pages q) = q from congrArg Prod.fst hleaf, hT, hpool2.node q (.inr (by simp)), hq2,
      hloop, hpool3.node q (.inr (by simp)), hpool3.node 1 (.inl rfl), hq3, h1, hfull, hfull1, hzero]
  · rw [h1, r2]
  · rw [h1]
    exact r1
  · intro m hm
    rw [mem_singleton.mp hm]
    rw [hq3]
    exact ⟨g1,s1⟩
  · rw [entered, hkeys2]
    rfl

end GoCommon.BTreeStore
