import GoCommon.StepRuns
import GoCommon.BTreeRefinement

/-!
# Deleting below a bound

A pass over the leaves removes the entries whose value is below a bound. A leaf
whose largest key is below the bound goes as a whole, a leaf that stays keeps
its largest key, and one in which no other entry is left goes unless it is the
last. So the pass removes exactly the expired entries only when keys and values
are related in the right way, and the counter of the keys is wrong once a leaf
has gone as a whole.
-/

set_option autoImplicit false

namespace GoCommon.BTreeExpiry
open List StepRuns SortedEntries BTreeNode BTree BTreePages BTreeStore BTreeRefinement

/-! ## What the pass does to one leaf -/

variable (n : Node) (ts : ℕ) (ls : List Leaf) (l : Leaf)

theorem entries_split : ∃ ds v, l.entries = ds++[(l.top,v)] ∧ ∀ e ∈ ds, e.1 < l.top := by
  have hd := dropLast_append_getLast l.nonempty
  have hs := l.sorted
  refine ⟨l.entries.dropLast,(l.entries.getLast l.nonempty).2,hd.symm,fun e he => ?_⟩
  rw [Increasing, ← hd, pairwise_append] at hs
  exact hs.2.2 e he _ (by simp)

theorem kept_split {ds : List (ℕ × ℕ)} {v : ℕ} (h : l.entries = ds++[(l.top,v)])
    (hd : ∀ e ∈ ds, e.1 < l.top) :
    l.entries.filter (keeps ts l.top) = ds.filter (fun e => ts ≤ e.2)++[(l.top,v)] := by
  have hlast : keeps ts l.top (l.top,v) = true := by simp [keeps]
  have hfirst : ds.filter (keeps ts l.top) = ds.filter (fun e => ts ≤ e.2) := by
    refine filter_congr (fun e he => ?_)
    have := hd e he
    simp only [keeps, decide_eq_decide]
    omega
  rw [h, filter_append, hfirst, filter_cons_of_pos hlast, filter_nil]

def trim (ts : ℕ) (l : Leaf) : Leaf where
  page := l.page
  entries := l.entries.filter (keeps ts l.top)
  sorted := l.sorted.filter _
  nonempty := by
    obtain ⟨ds,v,h,hd⟩ := entries_split l
    rw [kept_split ts l h hd]
    simp
  short := lt_of_le_of_lt (length_filter_le _ _) l.short
  positive := fun e he => l.positive e (mem_of_mem_filter he)

theorem trim_top : (trim ts l).top = l.top := by
  obtain ⟨ds,v,h,hd⟩ := entries_split l
  refine (trim ts l).top_eq ?_
  change (l.entries.filter (keeps ts l.top)).getLast?.map Prod.fst = _
  rw [kept_split ts l h hd, List.getLast?_concat]
  rfl

theorem trim_row : (trim ts l).row = l.row := by
  rw [Leaf.row, trim_top]
  rfl

theorem trim_page : (trim ts l).page = l.page := rfl

theorem mem_trim (e : ℕ × ℕ) :
    e ∈ (trim ts l).entries ↔ e ∈ l.entries ∧ (ts ≤ e.2 ∨ e.1 = l.top) := by
  rw [trim, mem_filter]
  refine and_congr_right (fun he => ?_)
  have := l.le_top he
  rw [keeps, decide_eq_true_eq]
  omega

def Spent (ts : ℕ) (l : Leaf) : Prop := ∀ e ∈ l.entries, e.2 < ts

instance (ts : ℕ) (l : Leaf) : Decidable (Spent ts l) := inferInstanceAs (Decidable (∀ e ∈ l.entries, e.2 < ts))

theorem remaining_zero :
    remaining ts l.top (l.entries.filter (keeps ts l.top)) = 0 ↔ Spent ts l := by
  obtain ⟨ds,v,h,hd⟩ := entries_split l
  rw [kept_split ts l h hd]
  rcases hf : ds.filter (fun e => ts ≤ e.2) with _ | ⟨e,es⟩
  · have hall : ∀ e ∈ ds, e.2 < ts := by
      intro e he
      have := filter_eq_nil_iff.mp hf e he
      simpa using this
    rw [hf, nil_append, remaining, Spent, h]
    by_cases hv : v < ts
    · rw [if_pos ⟨rfl,hv⟩]
      refine iff_of_true rfl (fun e he => ?_)
      rcases mem_append.mp he with he | he
      · exact hall e he
      · rw [mem_singleton.mp he]
        exact hv
    · rw [if_neg (fun hc => hv hc.2)]
      exact iff_of_false (by omega) (fun hc => hv (hc (l.top,v) (by simp)))
  have hmem : e ∈ ds.filter (fun e => ts ≤ e.2) := by rw [hf]; simp
  rw [mem_filter, decide_eq_true_eq] at hmem
  refine iff_of_false ?_ (fun hc => ?_)
  · rw [hf]
    cases es <;> simp [remaining]
  · have := hc e (by rw [h]; simp [hmem.1])
    omega

/-! ## The pass over the leaves -/

def Gone (ts : ℕ) (l : Leaf) (rest : List Leaf) : Prop := l.top < ts ∨ (Spent ts l ∧ rest ≠ [])

instance (ts : ℕ) (l : Leaf) (rest : List Leaf) : Decidable (Gone ts l rest) := by
  unfold Gone
  have : Decidable (rest ≠ []) := decidable_of_iff (rest.isEmpty = false) (by cases rest <;> simp)
  infer_instance

def survive (ts : ℕ) : List Leaf → List Leaf
  | [] => []
  | l::ls => if Gone ts l ls then survive ts ls else trim ts l::survive ts ls

def swept (ts : ℕ) : List Leaf → List (ℕ × ℕ)
  | [] => []
  | l::ls => (if Gone ts l ls then (l.top,0) else l.row)::swept ts ls

def balance (ts : ℕ) : List Leaf → ℤ
  | [] => 0
  | l::ls => (if l.top < ts then -(l.entries.length : ℤ) else if Gone ts l ls then 0
      else (trim ts l).entries.length)+balance ts ls

theorem setVal_shows {rs es : List (ℕ × ℕ)} {k v : ℕ} (w : ℕ) (h : Shows n (rs++(k,v)::es))
    (hl : (rs++(k,v)::es).length ≤ maxKeys) :
    Shows (setAt n (valOffset rs.length) w) (rs++(k,w)::es) ∧
      header (setAt n (valOffset rs.length) w) = header n := by
  have hlen : (rs++(k,w)::es).length = (rs++(k,v)::es).length := by simp
  have hmeta := meta_congr n (setAt n (valOffset rs.length) w)
    (fun i hi => setAt_other _ (by simp only [valOffset]; omega))
  have hkey : ∀ i < maxKeys, key (setAt n (valOffset rs.length) w) i = key n i := fun i hi =>
    setAt_other _ (by simp only [keyOffset, valOffset]; omega)
  refine ⟨⟨by rw [hmeta.2, h.count, hlen],fun i e hi => ?_,fun i hi hx => ?_⟩,hmeta.1⟩
  · have hlt := (List.getElem?_eq_some_iff.mp hi).1
    rw [Nat.zero_add, hkey i (by omega), val]
    by_cases he : i = rs.length
    · subst he
      rw [List.getElem?_append_right le_rfl, Nat.sub_self] at hi
      cases hi
      have := h.entry rs.length (k,v) (by rw [List.getElem?_append_right le_rfl, Nat.sub_self]; rfl)
      exact ⟨this.1,setAt_same _⟩
    rw [setAt_other _ (by simp only [valOffset]; omega)]
    refine h.entry i e ?_
    rw [← hi]
    by_cases hlo : i < rs.length
    · rw [List.getElem?_append_left hlo, List.getElem?_append_left hlo]
    · rw [List.getElem?_append_right (by omega), List.getElem?_append_right (by omega),
        show i-rs.length = i-rs.length-1+1 by omega]
      rfl
  · rw [hkey i hx]
    exact h.blank i (by omega) hx

structure Swept (ts : ℕ) (us : List ℕ) (rs : List (ℕ × ℕ)) (ms : List Leaf) (t t' : PageTree) : Prop where
  pool : ∃ fl, Pool t' (us++(survive ts ms).map Leaf.page) fl
  root : header (t'.pages 1) = (1,false)
  rows : Shows (t'.pages 1) (rs++swept ts ms)
  leaf : ∀ l ∈ survive ts ms, header (t'.pages l.page) = (l.page,true) ∧ Shows (t'.pages l.page) l.entries
  others : ∀ p ∈ us, t'.pages p = t.pages p
  keys : t'.numLeafKeys = t.numLeafKeys+balance ts ms

structure Facing (us : List ℕ) (rs : List (ℕ × ℕ)) (ms : List Leaf) (t : PageTree) : Prop where
  pool : ∃ fl, Pool t (us++ms.map Leaf.page) fl
  root : header (t.pages 1) = (1,false)
  rows : Shows (t.pages 1) (rs++ms.map Leaf.row)
  room : rs.length+ms.length ≤ maxKeys
  leaf : ∀ l ∈ ms, header (t.pages l.page) = (l.page,true) ∧ Shows (t.pages l.page) l.entries

section Passing
variable {us : List ℕ} {rs : List (ℕ × ℕ)} {l : Leaf} {ms : List Leaf} {t : PageTree}

theorem Facing.node (h : Facing us rs (l::ms) t) :
    t.node 1 = .ok (t.pages 1) ∧ t.node l.page = .ok (t.pages l.page) := by
  obtain ⟨fl,hp⟩ := h.pool
  exact ⟨hp.node 1 (.inl rfl),hp.node l.page (.inr (by simp))⟩

theorem Facing.row (h : Facing us rs (l::ms) t) : key (t.pages 1) rs.length = l.top ∧
    t.pages 1 (valOffset rs.length) = l.page := by
  refine h.rows.entry rs.length l.row ?_
  rw [List.getElem?_append_right le_rfl, Nat.sub_self]
  rfl

theorem Facing.apart (h : Facing us rs (l::ms) t) :
    l.page ≠ 1 ∧ l.page ∉ us ∧ ∀ m ∈ ms, m.page ≠ l.page := by
  obtain ⟨fl,hp⟩ := h.pool
  have hb := hp.bounds l.page (by simp)
  have hnd := (nodup_append.mp hp.nodup).1
  rw [map_cons, nodup_append, nodup_cons] at hnd
  refine ⟨by omega,fun hu => hnd.2.2 _ hu _ (by simp) rfl,fun m hm he => hnd.2.1.1 ?_⟩
  exact he ▸ mem_map_of_mem hm

theorem Facing.drop (h : Facing us rs (l::ms) t) (keys : ℤ) : ∃ t', ({ t with numLeafKeys := keys }).free l.page = .ok t' ∧
    t'.node 1 = .ok (t.pages 1) ∧
    Facing us (rs++[(l.top,0)]) ms (t'.write 1 (setAt (t.pages 1) (valOffset rs.length) 0)) ∧
    (∀ p ∈ us, (t'.write 1 (setAt (t.pages 1) (valOffset rs.length) 0)).pages p = t.pages p) ∧
    t'.numLeafKeys = keys := by
  obtain ⟨fl,hp⟩ := h.pool
  obtain ⟨h1,h2,h3⟩ := h.apart
  have hpool : Pool t (l.page::(us++ms.map Leaf.page)) fl := hp.reorder perm_middle.symm
  obtain ⟨t',e1,hp1,hpages,hkeys⟩ := free_page (hpool.counters keys)
  have hpg : ∀ p, p ≠ l.page → t'.pages p = t.pages p := fun p hpl => by
    rw [hpages, Function.update_of_ne hpl]
  have hb : ∀ p ∈ us++ms.map Leaf.page, p ≠ 1 := fun p hm => by
    have := hp1.bounds p (mem_append_left _ hm)
    omega
  have hroom := h.room
  rw [length_cons] at hroom
  obtain ⟨s1,s2⟩ := setVal_shows (t.pages 1) 0 h.rows (by
    simp
    omega)
  refine ⟨t',e1,?_,⟨⟨_,hp1.write 1 _ hp1.root_not_free⟩,?_,?_,?_,fun m hm => ?_⟩,fun p hm => ?_,hkeys⟩
  · rw [hp1.node 1 (.inl rfl), hpg 1 (Ne.symm h1)]
  · rw [write_pages, if_pos rfl, s2, h.root]
  · rw [write_pages]
    simpa using s1
  · simp
    omega
  · rw [write_pages, if_neg (hb _ (by simp [mem_map_of_mem hm])), hpg _ (h3 m hm)]
    exact h.leaf m (by simp [hm])
  · rw [write_pages, if_neg (hb p (by simp [hm])), hpg p (by rintro rfl; exact h2 hm)]

theorem Facing.trim (h : Facing us rs (l::ms) t) (ts : ℕ) (keys : ℤ) :
    Shows (compactNode ts (t.pages l.page)).1 (trim ts l).entries ∧
    ((compactNode ts (t.pages l.page)).2 = 0 ↔ Spent ts l) ∧
    Facing us rs (BTreeExpiry.trim ts l::ms)
      { t.write l.page (compactNode ts (t.pages l.page)).1 with numLeafKeys := keys } := by
  obtain ⟨h1,h2,h3⟩ := h.apart
  obtain ⟨hh,hs⟩ := h.leaf l (by simp)
  obtain ⟨c1,c2,c3⟩ := compactNode_shows ts hs (le_of_lt l.short)
  rw [l.maxKey hs] at c1 c2
  rw [hh] at c3
  obtain ⟨fl,hp⟩ := h.pool
  refine ⟨c1,by rw [c2, remaining_zero],⟨fl,?_⟩,?_,?_,h.room,fun m hm => ?_⟩
  · exact (hp.write l.page _ (hp.used_not_free _ (by simp))).counters keys
  · rw [write_pages, if_neg (Ne.symm h1), h.root]
  · rw [write_pages, if_neg (Ne.symm h1), map_cons, Leaf.row, trim_top]
    exact h.rows
  rcases mem_cons.mp hm with rfl | hm
  · have hpage : (BTreeExpiry.trim ts l).page = l.page := rfl
    rw [hpage, write_pages, if_pos rfl]
    exact ⟨c3,c1⟩
  · rw [write_pages, if_neg (h3 m hm)]
    exact h.leaf m (by simp [hm])

theorem Facing.pass (h : Facing us rs (l::ms) t) : Facing (us++[l.page]) (rs++[l.row]) ms t := by
  refine ⟨?_,h.root,?_,?_,fun m hm => h.leaf m (by simp [hm])⟩
  · obtain ⟨fl,hp⟩ := h.pool
    exact ⟨fl,by simpa using hp⟩
  · simpa using h.rows
  · have := h.room
    simp at this ⊢
    omega

theorem Swept.dropped {ts : ℕ} {t1 t' : PageTree} (hg : Gone ts l ms)
    (h : Swept ts us (rs++[(l.top,0)]) ms t1 t') (ho : ∀ p ∈ us, t1.pages p = t.pages p)
    (hk : t1.numLeafKeys = t.numLeafKeys+if l.top < ts then -(l.entries.length : ℤ) else 0) :
    Swept ts us rs (l::ms) t t' := by
  have hs : survive ts (l::ms) = survive ts ms := by rw [survive, if_pos hg]
  refine ⟨by rw [hs]; exact h.pool,h.root,?_,by rw [hs]; exact h.leaf,
    fun p hp => (h.others p hp).trans (ho p hp),?_⟩
  · have := h.rows
    rw [swept, if_pos hg]
    simpa using this
  · rw [h.keys, balance, if_pos hg]
    omega

theorem Swept.stayed {ts : ℕ} {t1 t' : PageTree} (hg : ¬Gone ts l ms)
    (h : Swept ts (us++[l.page]) (rs++[l.row]) ms t1 t') (ho : ∀ p ∈ us, t1.pages p = t.pages p)
    (hl : header (t1.pages l.page) = (l.page,true) ∧ Shows (t1.pages l.page) (trim ts l).entries)
    (hk : t1.numLeafKeys = t.numLeafKeys+(trim ts l).entries.length) :
    Swept ts us rs (l::ms) t t' := by
  have hs : survive ts (l::ms) = trim ts l::survive ts ms := by rw [survive, if_neg hg]
  have htop : ¬l.top < ts := fun hc => hg (.inl hc)
  refine ⟨?_,h.root,?_,?_,fun p hp => (h.others p (by simp [hp])).trans (ho p hp),?_⟩
  · obtain ⟨fl,hp⟩ := h.pool
    refine ⟨fl,?_⟩
    rw [hs]
    simpa [trim_page] using hp
  · have := h.rows
    rw [swept, if_neg hg]
    simpa using this
  · intro m hm
    rw [hs] at hm
    rcases mem_cons.mp hm with rfl | hm
    · rw [trim_page, h.others l.page (by simp)]
      exact hl
    · exact h.leaf m hm
  · rw [h.keys, balance, if_neg hg]
    omega

end Passing

theorem compactChildren_swept (ts fuel : ℕ) (ms : List Leaf) (us : List ℕ) (rs : List (ℕ × ℕ)) (t : PageTree)
    (h : Facing us rs ms t) : ∃ t', t.compactChildren (PageTree.recursiveFree (fuel+1))
      (PageTree.compactLoop ts (fuel+1)) 1 ts (rs.length+ms.length) ms.length rs.length = .ok t' ∧
      Swept ts us rs ms t t' := by
  induction ms generalizing us rs t with
  | nil =>
    refine ⟨t,rfl,⟨?_,h.root,?_,by simp [survive],fun _ _ => rfl,by simp [balance]⟩⟩
    · exact h.pool
    · exact h.rows
  | cons l ms ih =>
    obtain ⟨hn1,hnl⟩ := h.node
    obtain ⟨hkey,hval⟩ := h.row
    obtain ⟨hh,hs⟩ := h.leaf l (by simp)
    have htop : l.top ≠ 0 := ne_of_gt l.top_pos
    have hleaf : isLeaf (t.pages l.page) = true := congrArg Prod.snd hh
    rw [length_cons, PageTree.compactChildren, hn1]
    simp only [bind, Except.bind, hkey, htop, if_false, hval]
    by_cases hlt : l.top < ts
    · obtain ⟨t1,e1,e2,e3,e4,e5⟩ := h.drop (t.numLeafKeys-numKeys (t.pages l.page))
      obtain ⟨t',r1,r2⟩ := ih us (rs++[(l.top,0)]) _ e3
      refine ⟨t',?_,r2.dropped (.inl hlt) e4 ?_⟩
      · rw [length_append, length_singleton] at r1
        have hfree : t.recursiveFree (fuel+1) l.page = .ok t1 := by
          rw [PageTree.recursiveFree, hnl]
          simp only [bind, Except.bind, hleaf, if_true, e1]
        simp only [hlt, if_true, hfree, e2]
        rw [← r1, show rs.length+(ms.length+1) = rs.length+1+ms.length by omega]
      · change t1.numLeafKeys = _
        rw [e5, hs.count]
        omega
    obtain ⟨c1,c2,c3⟩ := h.trim ts (t.numLeafKeys+numKeys (compactNode ts (t.pages l.page)).1)
    have hloop : t.compactLoop ts (fuel+1) l.page = .ok
        ({ t.write l.page (compactNode ts (t.pages l.page)).1 with
          numLeafKeys := t.numLeafKeys+numKeys (compactNode ts (t.pages l.page)).1 },
          (compactNode ts (t.pages l.page)).2) := by
      rw [PageTree.compactLoop, hnl]
      simp only [bind, Except.bind, hleaf, if_true]
    obtain ⟨hap1,hap2,_⟩ := h.apart
    have hpages : ∀ p, ({ t.write l.page (compactNode ts (t.pages l.page)).1 with
        numLeafKeys := t.numLeafKeys+numKeys (compactNode ts (t.pages l.page)).1 : PageTree }).pages p =
        if p = l.page then (compactNode ts (t.pages l.page)).1 else t.pages p := write_pages t l.page _
    generalize hx : { t.write l.page (compactNode ts (t.pages l.page)).1 with
        numLeafKeys := t.numLeafKeys+numKeys (compactNode ts (t.pages l.page)).1 : PageTree } = x
      at c3 hloop hpages
    have hxk : x.numLeafKeys = t.numLeafKeys+(trim ts l).entries.length := by
      rw [← hx, c1.count]
    simp only [hlt, if_false, hloop]
    have hmore : rs.length+1 < rs.length+(ms.length+1) ↔ ms ≠ [] := by
      rw [← length_pos_iff]
      omega
    by_cases hg : Gone ts l ms
    · have hsp : Spent ts l ∧ ms ≠ [] := hg.resolve_left hlt
      obtain ⟨t1,e1,e2,e3,e4,e5⟩ := c3.drop (x.numLeafKeys-numKeys (x.pages l.page))
      rw [trim_page] at e1
      obtain ⟨t',r1,r2⟩ := ih us (rs++[((trim ts l).top,0)]) _ e3
      rw [trim_top] at r2
      refine ⟨t',?_,r2.dropped hg (fun p hp => ?_) ?_⟩
      · rw [if_pos ⟨c2.mpr hsp.1,hmore.mpr hsp.2⟩]
        have hxn : x.node l.page = .ok (x.pages l.page) := c3.node.2
        rw [length_append, length_singleton] at r1
        simp only [hxn, e1, e2]
        rw [← r1, show rs.length+(ms.length+1) = rs.length+1+ms.length by omega]
      · rw [e4 p hp, hpages, if_neg (by rintro rfl; exact hap2 hp)]
      · change t1.numLeafKeys = _
        rw [e5, hpages, if_pos rfl, c1.count]
        omega
    have hcond : ¬((compactNode ts (t.pages l.page)).2 = 0 ∧ rs.length+1 < rs.length+(ms.length+1)) :=
      fun hc => hg (.inr ⟨c2.mp hc.1,hmore.mp hc.2⟩)
    have hf := c3.pass
    rw [trim_row] at hf
    obtain ⟨t',r1,r2⟩ := ih _ _ _ hf
    refine ⟨t',?_,r2.stayed hg (fun p hp => ?_) (c3.leaf (trim ts l) (by simp)) hxk⟩
    · rw [if_neg hcond]
      rw [length_append, length_singleton] at r1
      rw [← r1, show rs.length+(ms.length+1) = rs.length+1+ms.length by omega]
    · rw [hpages, if_neg (by rintro rfl; exact hap2 hp)]

/-! ## The tree after the pass -/

theorem swept_keys : (swept ts ls).map Prod.fst = ls.map Leaf.top := by
  induction ls with
  | nil => rfl
  | cons l ls ih =>
    rw [swept, map_cons, ih]
    split <;> rfl

theorem swept_kept (pre : List Leaf) {l : Leaf} (hl : l.top = absoluteMax)
    (hpre : ∀ m ∈ pre, m.top < absoluteMax ∧ 0 < m.page) :
    ∃ xs, survive ts (pre++[l]) = xs++(if l.top < ts then [] else [trim ts l]) ∧
      (swept ts (pre++[l])).filter (keeps 1 absoluteMax) =
        xs.map Leaf.row++[if l.top < ts then (l.top,0) else l.row] ∧ (l.top < ts → xs = []) := by
  induction pre with
  | nil =>
    have hk : ∀ v, keeps 1 absoluteMax (l.top,v) = true := fun v => by simp [keeps, hl]
    refine ⟨[],?_,?_,fun _ => rfl⟩
    · rw [nil_append, survive]
      by_cases h : l.top < ts
      · rw [if_pos (.inl h), if_pos h]
        rfl
      · rw [if_neg (fun hc => hc.elim h (fun hs => hs.2 rfl)), if_neg h]
        rfl
    rw [nil_append, swept]
    by_cases h : l.top < ts
    · rw [if_pos (.inl h), if_pos h, filter_cons_of_pos (hk 0)]
      rfl
    · rw [if_neg (fun hc => hc.elim h (fun hs => hs.2 rfl)), if_neg h,
        filter_cons_of_pos (show keeps 1 absoluteMax l.row = true from hk l.page)]
      rfl
  | cons m pre ih =>
    obtain ⟨xs,h1,h2,h3⟩ := ih (fun x hx => hpre x (by simp [hx]))
    obtain ⟨hm,hmp⟩ := hpre m (by simp)
    by_cases hg : Gone ts m (pre++[l])
    · have hk : keeps 1 absoluteMax (m.top,0) = false := by simp [keeps]; omega
      refine ⟨xs,?_,?_,h3⟩
      · rw [cons_append, survive, if_pos hg, h1]
      · rw [cons_append, swept, if_pos hg, filter_cons_of_neg (by simp [hk]), h2]
    have hk : keeps 1 absoluteMax m.row = true := by
      rw [keeps, decide_eq_true_eq]
      exact .inl hmp
    refine ⟨trim ts m::xs,?_,?_,fun hlt => (hg (.inl (by omega))).elim⟩
    · rw [cons_append, survive, if_neg hg, h1]
      rfl
    · rw [cons_append, swept, if_neg hg, filter_cons_of_pos hk, h2, map_cons, trim_row]
      rfl

theorem survive_contents : (contents (survive ts ls)).Sublist (contents ls) := by
  induction ls with
  | nil => exact List.Sublist.refl _
  | cons l ls ih =>
    rw [survive]
    split
    · exact ih.trans (sublist_append_right _ _)
    · exact filter_sublist.append ih

theorem survive_length : (survive ts ls).length ≤ ls.length := by
  induction ls with
  | nil => exact le_rfl
  | cons l ls ih =>
    rw [survive]
    split
    · exact ih.trans (Nat.le_succ _)
    · exact Nat.succ_le_succ ih

section Below
variable {t : PageTree} {ls : List Leaf}

theorem Stored.ending (h : Stored t ls) : ∃ pre l, ls = pre++[l] ∧ l.top = absoluteMax ∧
    ∀ m ∈ pre, m.top < absoluteMax ∧ 0 < m.page := by
  obtain ⟨l,hl,htop⟩ := h.ends
  obtain ⟨pre,rfl⟩ := List.getLast?_eq_some_iff.mp hl
  have hrows := rows_increasing h.ordered
  rw [map_append, Increasing, pairwise_append] at hrows
  refine ⟨pre,l,rfl,htop,fun m hm => ⟨?_,?_⟩⟩
  · have : m.top < l.top := hrows.2.2 m.row (mem_map_of_mem hm) l.row (by simp)
    omega
  · have := h.page_pos m (by simp [hm])
    omega

theorem deleteBelow_swept (h : Stored t ls) (hlen : ls.length ≤ maxKeys) (ts : ℕ) :
    ∃ t1, Swept ts [] [] ls { t with numLeafKeys := 0 } t1 ∧
      t.deleteBelow ts = .ok (t1.write 1 (compactNode 1 (t1.pages 1)).1) := by
  obtain ⟨f,hf⟩ := h.fuel
  obtain ⟨fl,hp⟩ := h.pool
  have hface : Facing [] [] ls { t with numLeafKeys := 0 } :=
    ⟨⟨fl,hp.counters 0⟩,h.root,h.rows,by simpa using hlen,h.leaf⟩
  obtain ⟨t1,h1,h2⟩ := compactChildren_swept ts f ls [] [] _ hface
  refine ⟨t1,h2,?_⟩
  obtain ⟨fl1,hp1⟩ := h2.pool
  have hn : ({ t with numLeafKeys := 0 } : PageTree).node 1 = .ok (t.pages 1) := h.node_root
  have hnum : numKeys (t.pages 1) = ls.length := by rw [h.rows.count, length_map]
  rw [length_nil, Nat.zero_add] at h1
  have hloop : ({ t with numLeafKeys := 0 } : PageTree).compactLoop ts (f+1+1) 1 =
      .ok (t1.write 1 (compactNode 1 (t1.pages 1)).1,(compactNode 1 (t1.pages 1)).2) := by
    rw [PageTree.compactLoop, hn]
    simp only [bind, Except.bind, h.root_inner, Bool.false_eq_true, if_false, hnum, h1,
      hp1.node 1 (.inl rfl)]
  rw [← hf] at hloop
  rw [PageTree.deleteBelow, hloop]
  rfl

theorem deleteBelow_rows {ts : ℕ} {t0 t1 : PageTree} (h : Stored t ls) (hlen : ls.length ≤ maxKeys)
    (hs : Swept ts [] [] ls t0 t1) :
    Shows (compactNode 1 (t1.pages 1)).1 ((swept ts ls).filter (keeps 1 absoluteMax)) ∧
      header (compactNode 1 (t1.pages 1)).1 = (1,false) := by
  obtain ⟨l,hl,htop⟩ := h.ends
  have hrows : Shows (t1.pages 1) (swept ts ls) := hs.rows
  have hlen' : (swept ts ls).length = ls.length := by
    rw [← length_map Prod.fst, swept_keys, length_map]
  have hlast : (swept ts ls).getLast?.map Prod.fst = some absoluteMax := by
    rw [← List.getLast?_map, swept_keys, List.getLast?_map, hl, ← htop]
    rfl
  obtain ⟨e,he,hk⟩ := Option.map_eq_some_iff.mp hlast
  obtain ⟨c1,_,c3⟩ := compactNode_shows 1 hrows (by omega)
  rw [hrows.maxKey he, hk] at c1
  exact ⟨c1,c3.trans hs.root⟩

theorem deleteBelow_stored (h : Stored t ls) (hlen : ls.length ≤ maxKeys) (ts : ℕ) (hts : ts ≤ absoluteMax) :
    ∃ t', t.deleteBelow ts = .ok t' ∧ Stored t' (survive ts ls) ∧ t'.numLeafKeys = balance ts ls ∧
      (survive ts ls).length ≤ ls.length := by
  obtain ⟨t1,hs,hd⟩ := deleteBelow_swept h hlen ts
  obtain ⟨r1,r2⟩ := deleteBelow_rows h hlen hs
  obtain ⟨pre,l,rfl,htop,hpre⟩ := Stored.ending h
  obtain ⟨xs,k1,k2,_⟩ := swept_kept ts pre htop hpre
  rw [if_neg (by omega)] at k1 k2
  have hrows : (xs++[trim ts l]).map Leaf.row = xs.map Leaf.row++[l.row] := by
    rw [map_append, map_cons, trim_row, map_nil]
  obtain ⟨fl,hp⟩ := hs.pool
  have hpos : ∀ m ∈ survive ts (pre++[l]), m.page ≠ 1 := fun m hm => by
    have := hp.bounds m.page (mem_append_left _ (by simpa using ⟨m,hm,rfl⟩))
    omega
  refine ⟨_,hd,⟨⟨fl,hp.write 1 _ hp.root_not_free⟩,?_,?_,fun m hm => ?_,?_,?_⟩,?_,?_⟩
  · rw [write_pages, if_pos rfl, r2]
  · rw [k1, hrows, ← k2]
    exact r1
  · rw [write_pages, if_neg (hpos m hm)]
    exact hs.leaf m hm
  · exact h.ordered.sublist (survive_contents ts _)
  · rw [k1]
    exact ⟨trim ts l,by simp,by rw [trim_top, htop]⟩
  · exact hs.keys.trans (Int.zero_add _)
  · exact survive_length ts _

theorem deleteBelow_all (h : Stored t ls) (hlen : ls.length ≤ maxKeys) (ts : ℕ) (hts : absoluteMax < ts) :
    ∃ t', t.deleteBelow ts = .ok t' ∧ t'.get 1 = .error .panic := by
  obtain ⟨t1,hs,hd⟩ := deleteBelow_swept h hlen ts
  obtain ⟨r1,r2⟩ := deleteBelow_rows h hlen hs
  obtain ⟨pre,l,rfl,htop,hpre⟩ := Stored.ending h
  obtain ⟨xs,_,k2,k3⟩ := swept_kept ts pre htop hpre
  rw [k2, k3 (by omega), if_pos (by omega), htop] at r1
  change Shows _ [(absoluteMax,0)] at r1
  obtain ⟨fl,hp⟩ := hs.pool
  have hp' := hp.write 1 (compactNode 1 (t1.pages 1)).1 hp.root_not_free
  refine ⟨_,hd,?_⟩
  obtain ⟨f,hf⟩ : ∃ f, t1.nextPage = f+1 := ⟨t1.nextPage-1,by have := hp.start; omega⟩
  have hfuel : (t1.write 1 (compactNode 1 (t1.pages 1)).1).nextPage = f+1 := hf
  have hrank : rank 1 [(absoluteMax,0)] = 0 := by decide
  obtain ⟨hkey,hval⟩ := r1.entry 0 (absoluteMax,0) rfl
  have hval' : (compactNode 1 (t1.pages 1)).1 (valOffset 0) = 0 := hval
  have hinner : isLeaf (compactNode 1 (t1.pages 1)).1 = false := congrArg Prod.snd r2
  have hne : ¬(0 = numKeys (compactNode 1 (t1.pages 1)).1 ∨ absoluteMax = 0) := by
    rw [r1.count]
    decide
  rw [PageTree.get, if_neg (by decide), hfuel, PageTree.getLoop, hp'.node 1 (.inl rfl), write_pages]
  simp only [bind, Except.bind, hinner, Bool.false_eq_true, if_false, r1.search (pairwise_singleton _ _),
    hrank, hkey, hne, hval', if_true]


end Below

/-! ## Which entries survive -/

theorem mem_survive (pre post : List Leaf) (l : Leaf) (ho : Increasing (contents (pre++l::post)))
    (e : ℕ × ℕ) (he : e ∈ l.entries) : e ∈ contents (survive ts (pre++l::post)) ↔
      ¬Gone ts l post ∧ (ts ≤ e.2 ∨ e.1 = l.top) := by
  induction pre with
  | nil =>
    rw [nil_append, contents_cons, Increasing, pairwise_append] at ho
    have hrest : e ∉ contents (survive ts post) := fun hm =>
      lt_irrefl _ (ho.2.2 e he e ((survive_contents ts post).mem hm))
    rw [nil_append, survive]
    by_cases hg : Gone ts l post
    · rw [if_pos hg]
      exact iff_of_false hrest (fun hc => hc.1 hg)
    · rw [if_neg hg, contents_cons, mem_append, mem_trim]
      simp only [he, hrest, hg, true_and, or_false, not_false_eq_true]
  | cons m pre ih =>
    rw [cons_append, contents_cons, Increasing, pairwise_append] at ho
    have hm : e ∉ (trim ts m).entries := fun hm =>
      lt_irrefl _ (ho.2.2 e ((mem_trim ts m e).mp hm).1 e (mem_flatMap.mpr ⟨l,by simp,he⟩))
    rw [cons_append, survive]
    by_cases hg : Gone ts m (pre++l::post)
    · rw [if_pos hg]
      exact ih ho.2.1
    · rw [if_neg hg, contents_cons, mem_append]
      simp only [hm, false_or]
      exact ih ho.2.1

def Valued (ls : List Leaf) : Prop := ∀ e ∈ contents ls, e.2 = 0 ↔ e.1 = absoluteMax

def Decided (ts : ℕ) (l : Leaf) (post : List Leaf) : Prop :=
  Spent ts l ∨ (ts ≤ l.top ∧ (post = [] ∨ ∀ v, (l.top,v) ∈ l.entries → ts ≤ v))

section Exactness
variable {t : PageTree} {ls : List Leaf}

theorem top_last (h : Stored t ls) (pre post : List Leaf) (l : Leaf) (hs : ls = pre++l::post) :
    post = [] ↔ l.top = absoluteMax := by
  obtain ⟨m,hm,htop⟩ := h.ends
  subst hs
  refine ⟨?_,fun hl => ?_⟩
  · rintro rfl
    rw [List.getLast?_concat, Option.some.injEq] at hm
    rw [hm, htop]
  by_contra hne
  have hmem : m ∈ post := by
    rw [getLast_middle, Option.some.injEq] at hm
    rcases hp : post.getLast? with _ | x
    · exact absurd (List.getLast?_eq_none_iff.mp hp) hne
    · rw [hp] at hm
      exact hm ▸ mem_of_getLast? hp
  have hrows := rows_increasing h.ordered
  rw [map_append, map_cons, Increasing, pairwise_append, pairwise_cons] at hrows
  have : l.top < m.top := hrows.2.1.1 m.row (mem_map_of_mem hmem)
  omega

/-- The entries with a value that survive are those that should, if and only if
the pass does right by every leaf. -/
theorem survive_exact_iff (h : Stored t ls) (hv : Valued ls) (ts : ℕ) :
    (∀ e ∈ contents ls, e.2 ≠ 0 → (e ∈ contents (survive ts ls) ↔ ts ≤ e.2)) ↔
      ∀ pre l post, ls = pre++l::post → Decided ts l post := by
  constructor
  · intro ha pre l post hs
    have hin : ∀ e ∈ l.entries, e ∈ contents ls := fun e he =>
      mem_flatMap.mpr ⟨l,by rw [hs]; simp,he⟩
    have hmem : ∀ e ∈ l.entries, e ∈ contents (survive ts ls) ↔
        ¬Gone ts l post ∧ (ts ≤ e.2 ∨ e.1 = l.top) := fun e he => by
      rw [hs]
      exact mem_survive ts pre post l (hs ▸ h.ordered) e he
    by_contra hn
    rw [Decided, not_or] at hn
    obtain ⟨hsp,hn⟩ := hn
    have hex : ∃ e ∈ l.entries, ts ≤ e.2 := by
      by_contra hc
      exact hsp (fun e he => by_contra fun hlt => hc ⟨e,he,by omega⟩)
    obtain ⟨e,he,hle⟩ := hex
    by_cases hlt : l.top < ts
    · have := ((hmem e he).mp ((ha e (hin e he) (by omega)).mpr hle)).1
      exact this (.inl hlt)
    rw [not_and_or, not_or, not_forall] at hn
    obtain ⟨hne,v,hvn⟩ := hn.resolve_left (by omega)
    rw [Classical.not_imp] at hvn
    have hg : ¬Gone ts l post := fun hg => hg.elim hlt (fun hc => hsp hc.1)
    have hv0 : v ≠ 0 := fun h0 =>
      hne ((top_last h pre post l hs).mpr ((hv _ (hin _ hvn.1)).mp h0))
    exact hvn.2 ((ha _ (hin _ hvn.1) hv0).mp ((hmem _ hvn.1).mpr ⟨hg,.inr rfl⟩))
  intro hsound e he h0
  obtain ⟨l,hl,hel⟩ := mem_flatMap.mp he
  obtain ⟨pre,post,hs⟩ := append_of_mem hl
  have hmem := mem_survive ts pre post l (hs ▸ h.ordered) e hel
  rw [← hs] at hmem
  have hlast : e.1 = l.top → post ≠ [] := fun ht hp =>
    h0 ((hv e he).mpr (ht.trans ((top_last h pre post l hs).mp hp)))
  rw [hmem]
  rcases hsound pre l post hs with hsp | ⟨hts,hor⟩
  · have := hsp e hel
    refine iff_of_false (fun hc => ?_) (by omega)
    rcases hc.2 with hc2 | hc2
    · omega
    · exact hc.1 (.inr ⟨hsp,hlast hc2⟩)
  refine ⟨fun hc => ?_,fun hle => ⟨fun hg => ?_,.inl hle⟩⟩
  · rcases hc.2 with hc2 | hc2
    · exact hc2
    · exact (hor.resolve_left (hlast hc2)) e.2 (by rw [← hc2]; exact hel)
  rcases hg with hg | hg
  · omega
  · have := hg.1 e hel
    omega

def Exact (t : PageTree) (ts : ℕ) : Prop := ∃ t', t.deleteBelow ts = .ok t' ∧
  ∀ k, 0 < k → k ≤ absoluteMax → ∃ v, t.get k = .ok v ∧ t'.get k = .ok (if ts ≤ v then v else 0)

theorem find_sublist {es ds : List (ℕ × ℕ)} (h : es.Sublist ds) (ho : Increasing ds) {k v : ℕ}
    (hf : find k es = some v) : find k ds = some v :=
  find_of_mem k v ds ho (h.mem (find_mem k v es hf))

theorem exact_entries_iff (h : Stored t ls) (hlen : ls.length ≤ maxKeys) {ts : ℕ} (hts : ts ≤ absoluteMax) :
    Exact t ts ↔ ∀ e ∈ contents ls, e.2 ≠ 0 → (e ∈ contents (survive ts ls) ↔ ts ≤ e.2) := by
  obtain ⟨t',hd,hs,_,_⟩ := deleteBelow_stored h hlen ts hts
  have hsub := survive_contents ts ls
  constructor
  · rintro ⟨t2,h2,hall⟩ e he h0
    rw [hd, Except.ok.injEq] at h2
    subst h2
    have hb : 0 < e.1 ∧ e.1 ≤ absoluteMax := by
      obtain ⟨l,hl,hel⟩ := mem_flatMap.mp he
      obtain ⟨pre,m,rfl,htop,hpre⟩ := Stored.ending h
      have hle := l.le_top hel
      refine ⟨l.positive e hel,?_⟩
      rcases mem_append.mp hl with hl | hl
      · have := (hpre l hl).1
        omega
      · rw [mem_singleton.mp hl] at hle
        omega
    obtain ⟨v,h3,h4⟩ := hall e.1 hb.1 hb.2
    rw [h.get e.1 hb.1 hb.2, find_of_mem e.1 e.2 _ h.ordered he, Except.ok.injEq] at h3
    rw [hs.get e.1 hb.1 hb.2, Except.ok.injEq, ← h3] at h4
    change (find e.1 (contents (survive ts ls))).getD 0 = if ts ≤ e.2 then e.2 else 0 at h4
    constructor
    · intro hm
      rw [find_of_mem e.1 e.2 _ hs.ordered hm] at h4
      by_contra hlt
      rw [if_neg hlt] at h4
      exact h0 h4
    intro hle
    rw [if_pos hle] at h4
    rcases hf : find e.1 (contents (survive ts ls)) with _ | w
    · rw [hf] at h4
      exact absurd h4.symm h0
    · rw [hf] at h4
      exact find_mem e.1 e.2 _ (hf.trans (congrArg some h4))
  intro ha
  refine ⟨t',hd,fun k hk hm => ⟨_,h.get k hk hm,?_⟩⟩
  rw [hs.get k hk hm]
  rcases hf : find k (contents ls) with _ | v
  · have hn : find k (contents (survive ts ls)) = none := by
      by_contra hc
      obtain ⟨w,hw⟩ := Option.ne_none_iff_exists'.mp hc
      rw [find_sublist hsub h.ordered hw] at hf
      cases hf
    rw [hn]
    simp
  have hmem := find_mem k v _ hf
  rcases hg : find k (contents (survive ts ls)) with _ | w
  · have hno : v ≠ 0 → ¬ts ≤ v := fun h0 hle => by
      have := find_of_mem k v _ hs.ordered ((ha (k,v) hmem h0).mpr hle)
      rw [hg] at this
      cases this
    simp only [Option.getD_none, Option.getD_some]
    by_cases h0 : v = 0
    · simp [h0]
    · rw [if_neg (hno h0)]
  have hvw := find_sublist hsub h.ordered hg
  rw [hf, Option.some.injEq] at hvw
  subst hvw
  simp only [Option.getD_some]
  by_cases h0 : v = 0
  · simp [h0]
  · rw [if_pos ((ha (k,v) hmem h0).mp (find_mem k v _ hg))]

/-- The bound fits the pages: in every leaf all values are below it, or the largest
key is not and its value is not, where the value of the last leaf does not count. -/
def Expirable (t : PageTree) (ts : ℕ) : Prop := ts ≤ absoluteMax ∧ ∀ i < numKeys (t.pages 1),
  (∀ j < numKeys (t.pages (val (t.pages 1) i)), val (t.pages (val (t.pages 1) i)) j < ts) ∨
  (ts ≤ key (t.pages 1) i ∧ (i+1 = numKeys (t.pages 1) ∨
    ts ≤ val (t.pages (val (t.pages 1) i)) (numKeys (t.pages (val (t.pages 1) i))-1)))

theorem spent_pages (hs : Shows n l.entries) (ts : ℕ) :
    (∀ j < numKeys n, val n j < ts) ↔ Spent ts l := by
  constructor
  · intro h e he
    obtain ⟨j,hj,rfl⟩ := getElem_of_mem he
    have := h j (by rw [hs.count]; exact hj)
    rwa [(hs.entry j _ (List.getElem?_eq_getElem hj)).2] at this
  intro h j hj
  rw [hs.count] at hj
  rw [(hs.entry j _ (List.getElem?_eq_getElem hj)).2]
  exact h _ (getElem_mem hj)

theorem top_value (hs : Shows n l.entries) (ts : ℕ) :
    ts ≤ val n (numKeys n-1) ↔ ∀ v, (l.top,v) ∈ l.entries → ts ≤ v := by
  have hlast := List.getLast?_eq_some_getLast l.nonempty
  have hmem := getLast_mem l.nonempty
  rw [List.getLast?_eq_getElem?] at hlast
  rw [hs.count, (hs.entry _ _ hlast).2]
  refine ⟨fun h v hv => ?_,fun h => h _ hmem⟩
  have h1 := find_of_mem l.top _ _ l.sorted hv
  have h2 := find_of_mem l.top (l.entries.getLast l.nonempty).2 _ l.sorted hmem
  rw [h1, Option.some.injEq] at h2
  rwa [h2]

theorem expirable_iff (h : Stored t ls) (ts : ℕ) : Expirable t ts ↔
    ts ≤ absoluteMax ∧ ∀ pre l post, ls = pre++l::post → Decided ts l post := by
  refine and_congr_right (fun _ => ?_)
  have hcount : numKeys (t.pages 1) = ls.length := by rw [h.rows.count, length_map]
  have hat : ∀ pre l post, ls = pre++l::post → key (t.pages 1) pre.length = l.top ∧
      val (t.pages 1) pre.length = l.page := by
    intro pre l post hs
    refine h.rows.entry pre.length l.row ?_
    rw [hs]
    simp
  have hend : ∀ (pre : List Leaf) (l : Leaf) (post : List Leaf), ls = pre++l::post →
      (pre.length+1 = numKeys (t.pages 1) ↔ post = []) := by
    intro pre l post hs
    rw [hcount, hs, length_append, length_cons, ← length_eq_zero_iff]
    omega
  constructor
  · intro hi pre l post hs
    have hlt : pre.length < numKeys (t.pages 1) := by rw [hcount, hs]; simp
    obtain ⟨h1,h2⟩ := hat pre l post hs
    have hleaf := (h.leaf l (by rw [hs]; simp)).2
    have := hi pre.length hlt
    rwa [h1, h2, spent_pages _ l hleaf, top_value _ l hleaf, hend pre l post hs] at this
  intro hs i hi
  rw [hcount] at hi
  have hsplit : ls = ls.take i++ls[i]::ls.drop (i+1) := by
    rw [← drop_eq_getElem_cons hi, take_append_drop]
  have hlen : (ls.take i).length = i := by rw [length_take]; omega
  obtain ⟨h1,h2⟩ := hat _ _ _ hsplit
  have hleaf := (h.leaf ls[i] (getElem_mem hi)).2
  have hend' := hend _ _ _ hsplit
  rw [hlen] at h1 h2 hend'
  rw [h1, h2, spent_pages _ _ hleaf, top_value _ _ hleaf, hend']
  exact hs _ _ _ hsplit

theorem exact_iff (h : Stored t ls) (hlen : ls.length ≤ maxKeys) (hv : Valued ls) (ts : ℕ) :
    Exact t ts ↔ Expirable t ts := by
  rw [expirable_iff h]
  by_cases hts : ts ≤ absoluteMax
  · rw [exact_entries_iff h hlen hts, survive_exact_iff h hv]
    simp only [hts, true_and]
  refine iff_of_false ?_ (fun hc => hts hc.1)
  rintro ⟨t2,h2,hall⟩
  obtain ⟨t',hd,hp⟩ := deleteBelow_all h hlen ts (by omega)
  rw [hd, Except.ok.injEq] at h2
  subst h2
  obtain ⟨v,_,h4⟩ := hall 1 (by decide) (by decide)
  rw [hp] at h4
  cases h4

end Exactness

/-! ## Runs of sets and deletions -/

inductive Op where
  | set (k v : ℕ)
  | deleteBelow (ts : ℕ)

def Op.run : Op → PageTree → Except Halt PageTree
  | .set k v, t => t.set k v
  | .deleteBelow ts, t => t.deleteBelow ts

/-- Sets with keys as the tree accepts them and with a value, that do not fill the
root, and deletions below a bound that is not above the largest key. -/
def Usual : Op → PageTree → Prop
  | .set k v, t => 1 ≤ k ∧ k ≤ maxUint64-2 ∧ v ≠ 0 ∧ ¬Fills t k
  | .deleteBelow ts, _ => ts ≤ absoluteMax

structure Standing (t : PageTree) : Prop where
  leaves : ∃ ls, Stored t ls ∧ ls.length < maxKeys ∧ Valued ls

theorem newTree_standing {pages : ℕ → Node} {t : PageTree} (h : newTree pages = .ok t) : Standing t := by
  obtain ⟨t',l,h1,h2,h3,_⟩ := newTree_stored pages
  rw [h, Except.ok.injEq] at h1
  subst h1
  refine ⟨[l],h2,show 1 < 255 by decide,fun e he => ?_⟩
  rw [contents_cons, h3] at he
  have heq : e = (absoluteMax,0) := by simpa [contents] using he
  rw [heq]
  exact iff_of_true rfl rfl

theorem step_standing (op : Op) (t u : PageTree) (h : Standing t) (hg : Usual op t)
    (hs : op.run t = .ok u) : Standing u := by
  obtain ⟨ls,h1,h2,h3⟩ := h
  cases op with
  | set k v =>
    obtain ⟨hk,hm,hv,hf⟩ := hg
    have hle : maxUint64-2 < absoluteMax := by decide
    obtain ⟨t',ls',e1,e2,e3,e4,_⟩ := h1.set h2 hk (by omega) v hf
    change t.set k v = .ok u at hs
    rw [e1, Except.ok.injEq] at hs
    subst hs
    refine ⟨ls',e2,e4,fun e he => ?_⟩
    rw [grown_contents e3] at he
    rcases mem_put _ _ _ he with rfl | he
    · exact iff_of_false hv (by omega)
    · exact h3 e he
  | deleteBelow ts =>
    obtain ⟨t',e1,e2,_,e4⟩ := deleteBelow_stored h1 (le_of_lt h2) ts hg
    change t.deleteBelow ts = .ok u at hs
    rw [e1, Except.ok.injEq] at hs
    subst hs
    exact ⟨_,e2,by omega,fun e he => h3 e ((survive_contents ts ls).mem he)⟩

/-- In every tree that plain sets and deletions lead to, a deletion removes exactly
the expired entries if and only if the bound fits the pages. -/
theorem deleteBelow_exact_iff (pages : ℕ → Node) (t0 t : PageTree) (h0 : newTree pages = .ok t0)
    (h : Reaches (fun op t u => Op.run op t = .ok u) Usual t0 t) (ts : ℕ) :
    Exact t ts ↔ Expirable t ts := by
  obtain ⟨ls,h1,h2,h3⟩ := h.invariant Standing (newTree_standing h0) step_standing
  exact exact_iff h1 (le_of_lt h2) h3 ts

theorem ascending_reaches {G : Op → PageTree → Prop} {v n : ℕ} (hn : n ≤ 32384)
    (hg : ∀ k t, 1 ≤ k → k ≤ 32384 → ¬Fills t k → G (.set k v) t) :
    ∃ t0 t pre l, newTree (fun _ _ => 0) = .ok t0 ∧ build (fun _ _ => 0) (ascending v n) = .ok t ∧
      Ascended v n t pre l ∧ Reaches (fun op t u => Op.run op t = .ok u) G t0 t := by
  induction n with
  | zero =>
    obtain ⟨t,pre,l,h1,h2⟩ := ascending_build v 0 hn
    obtain ⟨t0,_,h3,_⟩ := newTree_stores (fun _ _ => 0)
    obtain rfl : t0 = t := by
      rw [build, h3] at h1
      exact Except.ok.inj h1
    exact ⟨t0,t0,pre,l,h3,h1,h2,.start⟩
  | succ n ih =>
    obtain ⟨t0,t,pre,l,h0,h1,h2,h3⟩ := ih (by omega)
    obtain ⟨t',pre',l',h4,h5⟩ := h2.step (by omega)
    refine ⟨t0,t',pre',l',h0,?_,h5,h3.next (Op.set (n+1) v) t t' ?_ h4⟩
    · rw [ascending_succ]
      exact (build_concat _ _ (n+1,v) t h1).trans h4
    · exact hg (n+1) t (by omega) hn (h2.unfilled (by omega))

section Pair
variable {v : ℕ} {t : PageTree} {a l : Leaf} (h : Ascended v 254 t [a] l)
include h

theorem pair_value {e : ℕ × ℕ} (he : e ∈ contents ([a]++[l])) :
    e.2 = if 1 ≤ e.1 ∧ e.1 ≤ 254 then v else 0 := by
  have hv := h.holds.values e.1
  rw [find_of_mem e.1 e.2 _ h.holds.stored.ordered he, latest_ascending] at hv
  exact hv

theorem pair_tops : 2 ≤ a.top ∧ a.top ≤ 254 ∧ l.top = absoluteMax := by
  have hlt := (h.around (by decide)).before a (by simp)
  refine ⟨?_,by omega,(top_last h.holds.stored [a] [] l rfl).mp rfl⟩
  obtain ⟨ds,v',hd,hbelow⟩ := entries_split a
  have hlen := h.halves a (by simp)
  rw [hd, length_append, length_singleton] at hlen
  obtain ⟨e,es,rfl⟩ := exists_cons_of_length_pos (show 0 < ds.length by omega)
  have hpos := a.positive e (by rw [hd]; simp)
  have := hbelow e (by simp)
  omega

end Pair

/-- Two leaves outlast a deletion, and the next one drops one of them. -/
theorem one_of_two_leaves_dropped : ∃ t t1 t2, build (fun _ _ => 0) (ascending 1 254) = .ok t ∧
    t.deleteBelow 1 = .ok t1 ∧ numKeys (t1.pages 1) = 2 ∧ t1.deleteBelow 255 = .ok t2 ∧
    numKeys (t2.pages 1) = 1 ∧ Exact t1 255 := by
  obtain ⟨t0,t,pre,l,h0,h1,h2,h3⟩ := ascending_reaches (G := Usual) (v := 1) (n := 254) (by decide)
    (fun k _ hk hm hf => ⟨hk,hm.trans (by decide),one_ne_zero,hf⟩)
  obtain ⟨a,rfl⟩ := length_eq_one_iff.mp (h2.later le_rfl).1
  obtain ⟨hlow,hhigh,htop⟩ := pair_tops h2
  have hroom : ([a]++[l]).length ≤ maxKeys := show 2 ≤ 255 by decide
  obtain ⟨t1,e1,e2,_,_⟩ := deleteBelow_stored h2.holds.stored hroom 1 (by decide)
  have hstays : ¬Gone 1 a [l] := by
    rintro (hlt | ⟨hspent,_⟩)
    · omega
    · obtain ⟨w,hw⟩ := a.top_mem
      have hval := pair_value h2 (e := (a.top,w)) (mem_flatMap.mpr ⟨a,by simp,hw⟩)
      have := hspent _ hw
      rw [if_pos ⟨by omega,hhigh⟩] at hval
      omega
  have hlast : ∀ ts ≤ absoluteMax, ∀ m : Leaf, m.top = absoluteMax → ¬Gone ts m [] := by
    rintro ts hts m hm (hlt | ⟨_,hne⟩)
    · omega
    · exact hne rfl
  have hsurv : survive 1 ([a]++[l]) = [trim 1 a,trim 1 l] := by
    change survive 1 [a,l] = _
    rw [survive, survive, survive, if_neg hstays, if_neg (hlast 1 (by decide) l htop)]
  rw [hsurv] at e2
  have hvalues : ∀ e ∈ contents [trim 1 a,trim 1 l], e.2 < 255 := by
    intro e he
    rw [pair_value h2 ((survive_contents 1 ([a]++[l])).mem (by rw [hsurv]; exact he))]
    split <;> decide
  obtain ⟨t2,e3,e4,_,_⟩ := deleteBelow_stored e2 (show 2 ≤ 255 by decide) 255 (by decide)
  have hgone : Gone 255 (trim 1 a) [trim 1 l] := .inl (by rw [trim_top]; omega)
  refine ⟨t,t1,t2,h1,e1,e2.rows.count,e3,?_,?_⟩
  · rw [e4.rows.count, survive, survive, if_pos hgone,
      if_neg (hlast 255 (by decide) _ ((trim_top 1 l).trans htop))]
    rfl
  · refine (deleteBelow_exact_iff _ t0 t1 h0 (h3.next (Op.deleteBelow 1) t t1
      (show 1 ≤ absoluteMax by decide) e1) 255).mpr ?_
    refine (expirable_iff e2 255).mpr ⟨by decide,fun m m' post hs => .inl fun e he => ?_⟩
    exact hvalues e (mem_flatMap.mpr ⟨m',by rw [hs]; simp,he⟩)

/-- A leaf with keys below the bound is dropped although its values are not. -/
theorem small_keys_dropped : ∃ t t', build (fun _ _ => 0) (ascending 1000 254) = .ok t ∧
    t.get 1 = .ok 1000 ∧ t.deleteBelow 500 = .ok t' ∧ t'.get 1 = .ok 0 ∧ ¬Exact t 500 := by
  obtain ⟨t,pre,l,h1,h2⟩ := ascending_build 1000 254 (by decide)
  obtain ⟨hlen,_⟩ := h2.later le_rfl
  obtain ⟨a,rfl⟩ := length_eq_one_iff.mp hlen
  have hs := h2.holds.stored
  have hget : t.get 1 = .ok 1000 := by
    rw [hs.get 1 (by decide) (by decide), h2.holds.values]
    exact congrArg Except.ok (by decide +kernel)
  obtain ⟨t',e1,e2,_,_⟩ := deleteBelow_stored hs (le_of_lt h2.holds.room) 500 (by decide)
  have hnone : find 1 (contents (survive 500 ([a]++[l]))) = none := by
    refine find_none _ _ (fun e he hk => ?_)
    have hmem := (survive_contents 500 _).mem he
    have ha : a.top < 500 := lt_of_le_of_lt (pair_tops h2).2.1 (by decide)
    obtain ⟨m,hm,hem⟩ := mem_flatMap.mp hmem
    rcases mem_append.mp hm with hm | hm
    · rw [mem_singleton.mp hm] at hem
      exact ((mem_survive 500 [] [l] a hs.ordered e hem).mp he).1 (.inl ha)
    rw [mem_singleton.mp hm] at hem
    have ho := hs.ordered
    rw [contents_append, Increasing, pairwise_append] at ho
    obtain ⟨v,hv⟩ := a.top_mem
    have hlt := ho.2.2 (a.top,v) (mem_flatMap.mpr ⟨a,by simp,hv⟩) e
      (mem_flatMap.mpr ⟨l,by simp,hem⟩)
    have := a.top_pos
    simp only at hlt
    omega
  have hget' : t'.get 1 = .ok 0 := by
    rw [e2.get 1 (by decide) (by decide), hnone]
    rfl
  refine ⟨t,t',h1,hget,e1,hget',?_⟩
  rintro ⟨u,hu,hall⟩
  rw [e1, Except.ok.injEq] at hu
  subst hu
  obtain ⟨v,h3,h4⟩ := hall 1 (by decide) (by decide)
  rw [hget, Except.ok.injEq] at h3
  rw [hget', ← h3] at h4
  cases h4

end GoCommon.BTreeExpiry
