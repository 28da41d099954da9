import GoCommon.BTreeExpiry

/-!
# Pages and keys of the tree

Every page is either reached from the root or a member of the free list, and the
counters say how many free pages and how many keys in leaves there are, as long
as no set fills the root and no deletion drops a leaf for its largest key.
-/

set_option autoImplicit false

namespace GoCommon.BTreeAccounting
open List StepRuns SortedEntries BTreeNode BTree BTreePages BTreeStore BTreeRefinement BTreeExpiry

inductive Reachable (t : PageTree) : ℕ → Prop where
  | root : Reachable t 1
  | child (p i : ℕ) : Reachable t p → isLeaf (t.pages p) = false → i < numKeys (t.pages p) →
      val (t.pages p) i ≠ 0 → Reachable t (val (t.pages p) i)

structure Accounted (t : PageTree) : Prop where
  pages : ∃ fl, Linked t.pages t.freePage fl ∧ fl.Nodup ∧ t.numPagesFree = fl.length ∧
    (∀ p, Reachable t p → p ∉ fl) ∧ ∀ p, (Reachable t p ∨ p ∈ fl) ↔ 1 ≤ p ∧ p < t.nextPage
  keys : ∃ ps : List ℕ, ps.Nodup ∧ (∀ p, p ∈ ps ↔ Reachable t p ∧ isLeaf (t.pages p) = true) ∧
    t.numLeafKeys = (ps.map (fun p => numKeys (t.pages p))).sum

section Levels
variable {t : PageTree} {ls : List Leaf}

theorem reachable_iff (h : Stored t ls) (p : ℕ) : Reachable t p ↔ p = 1 ∨ p ∈ ls.map Leaf.page := by
  have hval : ∀ i (hi : i < ls.length), val (t.pages 1) i = (ls.get ⟨i,hi⟩).page := by
    intro i hi
    refine (h.rows.entry i (ls.get ⟨i,hi⟩).row ?_).2
    rw [List.getElem?_map, List.getElem?_eq_getElem hi]
    rfl
  have hcount : numKeys (t.pages 1) = ls.length := by rw [h.rows.count, length_map]
  constructor
  · intro hr
    induction hr with
    | root => exact .inl rfl
    | child p i _ hin hi _ ih =>
      rcases ih with rfl | hp
      · rw [hcount] at hi
        rw [hval i hi]
        exact .inr (mem_map_of_mem (get_mem ..))
      · obtain ⟨l,hl,rfl⟩ := mem_map.mp hp
        rw [h.leaf_leaf hl] at hin
        cases hin
  rintro (rfl | hp)
  · exact .root
  obtain ⟨l,hl,rfl⟩ := mem_map.mp hp
  obtain ⟨i,hi,rfl⟩ := getElem_of_mem hl
  have hpos := h.page_pos _ hl
  have := Reachable.child 1 i .root h.root_inner (by rw [hcount]; exact hi) (by
    rw [hval i hi]
    change ls[i].page ≠ 0
    omega)
  rwa [hval i hi] at this

theorem sum_keys (h : Stored t ls) :
    ((ls.map Leaf.page).map (fun p => numKeys (t.pages p))).sum = (contents ls).length := by
  rw [contents, length_flatMap, map_map]
  refine congrArg List.sum (map_congr_left (fun l hl => ?_))
  exact (h.leaf l hl).2.count

theorem stored_accounted (h : Stored t ls) (hk : t.numLeafKeys = (contents ls).length) : Accounted t := by
  obtain ⟨fl,hp⟩ := h.pool
  have hnd := nodup_append.mp hp.nodup
  have hstart := hp.start
  refine ⟨⟨fl,hp.linked,hnd.2.1,hp.count,fun p hr hm => ?_,fun p => ?_⟩,
    ⟨ls.map Leaf.page,hnd.1,fun p => ?_,by rw [hk, sum_keys h]⟩⟩
  · rcases (reachable_iff h p).mp hr with rfl | hr
    · exact hp.root_not_free hm
    · exact hp.used_not_free p hr hm
  · have hall := hp.pages.mem_iff (a := p)
    rw [mem_append, mem_range'_1] at hall
    rw [reachable_iff h, or_assoc, hall]
    omega
  rw [reachable_iff h]
  refine ⟨fun hm => ?_,fun ⟨hr,hl⟩ => ?_⟩
  · obtain ⟨l,hl,rfl⟩ := mem_map.mp hm
    exact ⟨.inr hm,h.leaf_leaf hl⟩
  rcases hr with rfl | hr
  · rw [h.root_inner] at hl
    cases hl
  · exact hr

theorem balance_contents (ts : ℕ) (ls : List Leaf) (h : ∀ l ∈ ls, ts ≤ l.top) :
    balance ts ls = (contents (survive ts ls)).length := by
  induction ls with
  | nil => rfl
  | cons l ls ih =>
    have htop := h l (by simp)
    rw [balance, survive, if_neg (by omega), ih (fun m hm => h m (by simp [hm]))]
    split
    · rw [Int.zero_add]
    · rw [contents_cons, length_append]
      rfl

end Levels

/-- Sets that do not fill the root, and deletions below a bound that no leaf's
largest key is below. -/
def Tidy : Op → PageTree → Prop
  | .set k _, t => k ≤ maxUint64 ∧ ¬Fills t k
  | .deleteBelow ts, t => ∀ i < numKeys (t.pages 1), ts ≤ key (t.pages 1) i

structure Balanced (t : PageTree) : Prop where
  leaves : ∃ ls, Stored t ls ∧ ls.length < maxKeys ∧ t.numLeafKeys = (contents ls).length

theorem newTree_balanced {pages : ℕ → Node} {t : PageTree} (h : newTree pages = .ok t) : Balanced t := by
  obtain ⟨t',l,h1,h2,h3,h4⟩ := newTree_stored pages
  rw [h, Except.ok.injEq] at h1
  subst h1
  refine ⟨[l],h2,show 1 < 255 by decide,?_⟩
  rw [h4, contents_cons, h3]
  rfl

theorem step_balanced (op : Op) (t u : PageTree) (h : Balanced t) (hg : Tidy op t)
    (hs : op.run t = .ok u) : Balanced u := by
  obtain ⟨ls,h1,h2,h3⟩ := h
  cases op with
  | set k v =>
    change t.set k v = .ok u at hs
    have hmax : absoluteMax = maxUint64-1 := rfl
    have hk : ¬(k = maxUint64 ∨ k = 0) := by
      intro hc
      rw [PageTree.set, if_pos hc] at hs
      cases hs
    have hle := hg.1
    obtain ⟨t',ls',e1,e2,e3,e4,e5⟩ := h1.set h2 (by omega) (by omega) v hg.2
    rw [e1, Except.ok.injEq] at hs
    subst hs
    refine ⟨ls',e2,e4,?_⟩
    rw [e5, h3, grown_contents e3, length_put _ _ _ h1.ordered]
    rfl
  | deleteBelow ts =>
    change t.deleteBelow ts = .ok u at hs
    have htops : ∀ l ∈ ls, ts ≤ l.top := by
      intro l hl
      obtain ⟨i,hi,rfl⟩ := getElem_of_mem hl
      have := hg i (by rw [h1.rows.count, length_map]; exact hi)
      rwa [(h1.rows.entry i ls[i].row (by rw [List.getElem?_map, List.getElem?_eq_getElem hi]; rfl)).1]
        at this
    have hts : ts ≤ absoluteMax := by
      obtain ⟨l,hl,htop⟩ := h1.ends
      rw [← htop]
      exact htops l (mem_of_getLast? hl)
    obtain ⟨t',e1,e2,e3,e4⟩ := deleteBelow_stored h1 (le_of_lt h2) ts hts
    rw [e1, Except.ok.injEq] at hs
    subst hs
    exact ⟨_,e2,by omega,by rw [e3, balance_contents ts ls htops]⟩

/-- In every tree that tidy sets and deletions lead to, the pages and the keys are
accounted for. -/
theorem pages_accounted (pages : ℕ → Node) (t0 t : PageTree) (h0 : newTree pages = .ok t0)
    (h : Reaches (fun op t u => Op.run op t = .ok u) Tidy t0 t) : Accounted t := by
  obtain ⟨ls,h1,_,h3⟩ := h.invariant Balanced (newTree_balanced h0) step_balanced
  exact stored_accounted h1 h3

/-- The keys of one of two leaves are expired and its page is freed. -/
theorem freed_leaf_accounted : ∃ t0 t u, newTree (fun _ _ => 0) = .ok t0 ∧
    build (fun _ _ => 0) (ascending 1 254) = .ok t ∧ numKeys (t.pages 1) = 2 ∧
    t.deleteBelow 2 = .ok u ∧ numKeys (u.pages 1) = 1 ∧ Accounted u := by
  obtain ⟨t0,t,pre,l,h0,h1,h2,h3⟩ := ascending_reaches (G := Tidy) (v := 1) (n := 254) (by decide)
    (fun k _ _ hm hf => ⟨hm.trans (by decide),hf⟩)
  obtain ⟨a,rfl⟩ := length_eq_one_iff.mp (h2.later le_rfl).1
  obtain ⟨hlow,_,htop⟩ := pair_tops h2
  have hs : Stored t [a,l] := h2.holds.stored
  have htidy : Tidy (.deleteBelow 2) t := by
    intro i hi
    rw [hs.rows.count] at hi
    change i < 2 at hi
    interval_cases i
    · rw [(hs.rows.entry 0 a.row rfl).1]
      exact hlow
    · rw [(hs.rows.entry 1 l.row rfl).1]
      change 2 ≤ l.top
      rw [htop]
      decide
  have hspent : Gone 2 a [l] := .inr ⟨fun e he => by
    rw [pair_value h2 (mem_flatMap.mpr ⟨a,by simp,he⟩)]
    split <;> decide,by simp⟩
  have hlast : ¬Gone 2 l [] := by
    rintro (hlt | ⟨_,hne⟩)
    · rw [htop] at hlt
      exact absurd hlt (by decide)
    · exact hne rfl
  obtain ⟨u,h4,h5,_⟩ := deleteBelow_stored hs (show 2 ≤ 255 by decide) 2 (by decide)
  refine ⟨t0,t,u,h0,h1,hs.rows.count,h4,?_,
    pages_accounted _ t0 u h0 (h3.next (Op.deleteBelow 2) t u htidy h4)⟩
  rw [h5.rows.count, survive, survive, if_pos hspent, if_neg hlast]
  rfl

/-- A deletion that drops a leaf for its largest key makes the counter of keys
negative. -/
theorem dropped_leaf_miscounted : ∃ t t', build (fun _ _ => 0) (ascending 1 254) = .ok t ∧
    t.deleteBelow 500 = .ok t' ∧ t'.numLeafKeys = -126 ∧ ¬Accounted t' := by
  obtain ⟨t,pre,l,h1,h2⟩ := ascending_build 1 254 (by decide)
  obtain ⟨hlen,_⟩ := h2.later le_rfl
  obtain ⟨a,rfl⟩ := length_eq_one_iff.mp hlen
  have hs := h2.holds.stored
  obtain ⟨t',e1,_,e3,_⟩ := deleteBelow_stored hs (le_of_lt h2.holds.room) 500 (by decide)
  obtain ⟨_,hhigh,htop⟩ := pair_tops h2
  have ha : a.top < 500 := by omega
  have hl : ¬l.top < 500 := by
    rw [htop]
    decide
  have hlow : ∀ e ∈ l.entries, e.2 < 500 := by
    intro e he
    rw [pair_value h2 (mem_flatMap.mpr ⟨l,by simp,he⟩)]
    split <;> decide
  have htrim : (trim 500 l).entries.length = 1 := by
    obtain ⟨ds,v,hd,hk⟩ := entries_split l
    change (l.entries.filter (keeps 500 l.top)).length = 1
    rw [kept_split 500 l hd hk, filter_eq_nil_iff.mpr (fun e he => ?_)]
    · rfl
    · have := hlow e (by rw [hd]; simp [he])
      simpa using this
  have hkeys : t'.numLeafKeys = -126 := by
    rw [e3]
    change balance 500 [a,l] = -126
    rw [balance, balance, if_pos ha, if_neg hl, if_neg (fun hg => hg.elim hl (fun hc => hc.2 rfl)),
      htrim, h2.halves a (by simp)]
    rfl
  refine ⟨t,t',h1,e1,hkeys,fun hacc => ?_⟩
  obtain ⟨ps,_,_,hsum⟩ := hacc.keys
  omega

end GoCommon.BTreeAccounting
