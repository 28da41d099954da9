import GoCommon.SkipListInsert

/-!
# Deleting from the skip list and moving elements

A node is taken out of every level behind the path, the levels above it count one
node less, and empty levels on top are given up. A new score is written into the
node if the neighbours stay in order; otherwise the node is deleted and inserted.
-/

set_option autoImplicit false

namespace GoCommon.SkipListDelete
open List hiding Chain elem
open SpannedChain SkipLists SkipListShape SkipListInsert

section Levels
variable {S K : Type}

def cut (u x : ℕ) (L : Links ℕ) : Links ℕ :=
  if L.next u = some x then L.set u (L.next x) (L.span u+(L.span x-1)) else L.set u (L.next u) (L.span u-1)

theorem cut_ne {u x a : ℕ} {L : Links ℕ} (h : a ≠ u) :
    (cut u x L).next a = L.next a ∧ (cut u x L).span a = L.span a := by
  rw [cut]
  split <;> exact Links.set_ne h

def unlinked (path : Path) (x : ℕ) (sl : SkipList S K) : SkipList S K :=
  sl.forLevels 0 sl.level (SkipList.unlink path x)

theorem unlinked_spec (sl : SkipList S K) (path : Path) (x : ℕ) : Frame sl (unlinked path x sl) ∧
    ∀ j, (unlinked path x sl).links j =
      if 0 ≤ j ∧ j < sl.level then cut (path j).1 x (sl.links j) else sl.links j := by
  refine forLevels_spec sl _ (fun i => cut (path i).1 x) (fun i t _ => ?_) 0 sl.level
  have hunlink : SkipList.unlink path x i t = if (t.links i).next (path i).1 = some x then
      t.setLevel (path i).1 i (t.forward x i) (t.span (path i).1 i+(t.span x i-1))
      else t.setLevel (path i).1 i (t.forward (path i).1 i) (t.span (path i).1 i-1) := rfl
  rw [hunlink, cut]
  split
  · exact ⟨setLevel_frame ..,fun j => links_setLevel ..⟩
  · exact ⟨setLevel_frame ..,fun j => links_setLevel ..⟩

theorem getLast?_remove (as bs : List ℕ) (x : ℕ) : (as++bs).getLast? =
    if bs.head? = none then as.getLast? else (as++x::bs).getLast? := by
  cases bs with
  | nil => simp
  | cons b bs => simp [List.getLast?_append, List.getLast?_cons]

variable {sl : SkipList S K}

theorem back_remove (t : SkipList S K) {as bs : List ℕ} {x : ℕ} (h : Back sl none (as++x::bs))
    (hnodup : (as++x::bs).Nodup) (hback : ∀ a, (t.nodes a).backward =
      if bs.head? = some a then as.getLast? else (sl.nodes a).backward) : Back t none (as++bs) := by
  have hapart := nodup_append.mp hnodup
  rw [back_append, Option.or_none] at h ⊢
  refine ⟨h.1.congr (fun a ha => ?_),?_⟩
  · refine (hback a).trans (if_neg (fun hb => ?_))
    exact hapart.2.2 a ha a (mem_cons_of_mem _ (mem_of_head? hb)) rfl
  cases bs with
  | nil => trivial
  | cons b bs =>
    refine ⟨(hback b).trans (if_pos rfl),h.2.2.2.congr (fun a ha => ?_)⟩
    refine (hback a).trans (if_neg (fun hb => ?_))
    have hnot := (nodup_cons.mp (nodup_cons.mp hapart.2.1).2).1
    exact hnot (Option.some.inj hb ▸ ha)

theorem shrink_spec (sl : SkipList S K) (l : ℕ) (hl : 0 < l) : 0 < sl.shrink l ∧ sl.shrink l ≤ l ∧
    ∀ i, sl.shrink l ≤ i → i < l → sl.forward 0 i = none := by
  induction l with
  | zero => omega
  | succ l ih => cases l with
    | zero => exact ⟨Nat.one_pos,le_rfl,fun i h1 h2 => by rw [SkipList.shrink] at h1; omega⟩
    | succ l =>
      rw [SkipList.shrink]
      split
      · rename_i hnone
        obtain ⟨hpos,hle,hempty⟩ := ih (Nat.succ_pos l)
        refine ⟨hpos,by omega,fun i h1 h2 => ?_⟩
        by_cases hi : i = l+1
        · rw [hi]
          exact hnone
        · exact hempty i h1 (by omega)
      · exact ⟨by omega,le_rfl,fun i h1 h2 => by omega⟩

theorem deleteNode_eq (sl : SkipList S K) (x : ℕ) (path : Path) : sl.deleteNode x path =
    let t := pointBack ((unlinked path x sl).forward x 0) ((unlinked path x sl).nodes x).backward
      (unlinked path x sl)
    { t with level := t.shrink t.level, length := t.length-1 } := by
  rw [SkipList.deleteNode, ← unlinked]
  cases (unlinked path x sl).forward x 0 <;> rfl

theorem nodes_setScore {y a : ℕ} {score : S} : (sl.setScore y score).nodes a =
    if a = y then { sl.nodes y with score := score } else sl.nodes a := Function.update_apply ..

theorem elem_setScore {y a : ℕ} {score : S} : elem (sl.setScore y score) a =
    if a = y then toLex (score,(sl.nodes y).key) else elem sl a := by
  rw [elem, nodes_setScore]
  split <;> rfl

theorem same_setScore (sl : SkipList S K) (y a : ℕ) (score : S) :
    ((sl.setScore y score).nodes a).backward = (sl.nodes a).backward ∧
      ((sl.setScore y score).nodes a).height = (sl.nodes a).height ∧
        ((sl.setScore y score).nodes a).levels = (sl.nodes a).levels := by
  rw [nodes_setScore]
  split
  · rename_i ha
    subst ha
    exact ⟨rfl,rfl,rfl⟩
  · exact ⟨rfl,rfl,rfl⟩

end Levels

variable {S K : Type} [LinearOrder S] [LinearOrder K]

/-! ## Taking out a node -/

variable {sl : SkipList S K} {xs : List ℕ}

theorem unlinked_chain {as bs : List ℕ} {x : ℕ} (h : Rep sl (as++x::bs)) {path : Path}
    (hpath : OnPath sl as path) (i : ℕ) :
    Chain ((unlinked path x sl).links i) (tall sl i) 0 0 (as++bs) := by
  rw [(unlinked_spec sl path x).2 i]
  by_cases hi : i < sl.level
  · have hu : (path i).1 = (stop (tall sl i) 0 [] as).1 := by rw [hpath i hi, place]
    rw [if_pos ⟨Nat.zero_le i,hi⟩, hu]
    have hold := ((chain_append 0 [] as (x::bs)).mp (h.chains i)).2
    rw [Chain] at hold
    by_cases hx : tall sl i x = true
    · rw [if_pos hx] at hold
      rw [cut, if_pos hold.1]
      exact (h.chains i).remove_tall h.nodup hx (Links.set_self ..).1 (Links.set_self ..).2
        (fun b hb => Links.set_ne hb)
    rw [if_neg hx] at hold
    -- a node that is linked instead comes after the one that is taken out
    have hother : (sl.links i).next (stop (tall sl i) 0 [] as).1 ≠ some x := by
      rcases hold.next_cases with ⟨hn,_⟩ | ⟨k,y,hy,_,hn,_⟩
      · rw [hn]
        exact (Option.some_ne_none x).symm
      rw [hn]
      rintro ⟨rfl⟩
      have hnodup := (nodup_append.mp (nodup_cons.mp h.nodup).2).2.1
      exact (nodup_cons.mp hnodup).1 (mem_of_getElem? hy)
    rw [cut, if_neg hother]
    exact (h.chains i).remove_short h.nodup (Bool.eq_false_iff.mpr hx) (Links.set_self ..).1
      (Links.set_self ..).2 (fun b hb => Links.set_ne hb)
  rw [if_neg (fun hno => hi hno.2)]
  have hshort := h.short i (not_lt.mp hi)
  have hend := (chain_of_short 0 0 hshort).mp (h.chains i)
  refine (chain_of_short 0 0 (fun a ha => hshort a ?_)).mpr hend
  exact mem_append.mpr ((mem_append.mp ha).imp id (mem_cons_of_mem _))

theorem rep_deleteNode {as bs : List ℕ} {x : ℕ} (h : Rep sl (as++x::bs)) {path : Path}
    (hpath : OnPath sl as path) : Rep (sl.deleteNode x path) (as++bs) ∧
      (∀ a, elem (sl.deleteNode x path) a = elem sl a) ∧ (sl.deleteNode x path).fresh = sl.fresh := by
  obtain ⟨hframe,hlinks⟩ := unlinked_spec sl path x
  have hforward : (unlinked path x sl).forward x 0 = bs.head? := by
    have hu : x ≠ (path 0).1 := by
      rw [hpath 0 h.level.1]
      exact stop_ne h.nodup (mem_cons_self ..)
    change ((unlinked path x sl).links 0).next x = _
    rw [hlinks 0, if_pos ⟨le_rfl,h.level.1⟩, (cut_ne hu).1]
    exact h.neighbours.2
  have hbackward : ((unlinked path x sl).nodes x).backward = as.getLast? :=
    (hframe.backward x).trans h.neighbours.1
  have heq := deleteNode_eq sl x path
  rw [hforward, hbackward] at heq
  obtain ⟨hrel,hback,htail⟩ := pointBack_spec bs.head? as.getLast? (unlinked path x sl)
  generalize pointBack bs.head? as.getLast? (unlinked path x sl) = t at heq hrel hback htail
  have hlevel : t.level = sl.level := hrel.level.trans hframe.level
  have hchain : ∀ i, Chain (t.links i) (tall t i) 0 0 (as++bs) := by
    intro i
    rw [hrel.links_eq]
    refine (unlinked_chain h hpath i).congr_tall (fun a _ => ?_)
    rw [hrel.tall_eq, hframe.tall_eq]
  obtain ⟨hpos,hle,hempty⟩ := shrink_spec t t.level (by rw [hlevel]; exact h.level.1)
  have hmem : ∀ a ∈ as++bs, a ∈ as++x::bs := fun a ha =>
    mem_append.mpr ((mem_append.mp ha).imp id (mem_cons_of_mem _))
  have helem : ∀ a, elem t a = elem sl a := fun a => (hrel.elem_eq a).trans (hframe.elem_eq a)
  have hheight : ∀ a, (t.nodes a).height = (sl.nodes a).height :=
    fun a => (hrel.height a).trans (hframe.height a)
  rw [heq]
  refine ⟨⟨?_,fun a ha => ?_,?_,fun a ha => ?_,?_,hchain,?_,?_,?_⟩,helem,hrel.fresh.trans hframe.fresh⟩
  · refine (h.sorted.sublist ?_).imp (fun {a b} hlt => ?_)
    · exact (sublist_cons_self x bs).append_left as
    · change elem t a < elem t b
      rw [helem, helem]
      exact hlt
  · rw [hrel.fresh, hframe.fresh]
    exact h.addrs a (hmem a ha)
  · rw [hrel.fresh, hframe.fresh]
    exact h.fresh
  · change 0 < (t.nodes a).height ∧ (t.nodes a).height ≤ t.shrink t.level
    have hbounds := h.heights a (hmem a ha)
    rw [← hheight] at hbounds
    refine ⟨hbounds.1,not_lt.mp (fun hhigh => ?_)⟩
    -- a node above the shrunk level would be linked from the head
    have hnone := hempty ((t.nodes a).height-1) (by omega) (by omega)
    rcases (hchain ((t.nodes a).height-1)).next_cases with ⟨_,hshort⟩ | ⟨_,_,_,_,hn,_⟩
    · have hno := hshort a ha
      rw [tall, decide_eq_false_iff_not] at hno
      omega
    · cases hnone.symm.trans hn
  · change 0 < t.shrink t.level ∧ t.shrink t.level ≤ maxLevel
    have := h.level.2
    exact ⟨hpos,by omega⟩
  · refine @Back.congr _ _ _ t _ _ ?_ (fun _ _ => rfl)
    refine back_remove t h.backs (nodup_cons.mp h.nodup).2 (fun a => ?_)
    rw [hback, hframe.backward]
  · rw [htail, getLast?_remove as bs x, hframe.tail, h.tail]
  change t.length-1 = _
  rw [hrel.length, hframe.length, h.length, length_append, length_append, length_cons]
  push_cast
  ring

/-! ## Finding the element -/

theorem exactly_spec {as bs : List ℕ} (h : Rep sl (as++bs)) (score : S) (key : K)
    (has : ∀ a ∈ as, elem sl a < toLex (score,key)) (hbs : ∀ b ∈ bs, toLex (score,key) ≤ elem sl b) :
    (∃ y cs, bs = y::cs ∧ elem sl y = toLex (score,key) ∧
      sl.exactly score key (place sl as 0).1 = some y) ∨
      (sl.exactly score key (place sl as 0).1 = none ∧ ∀ a ∈ as++bs, elem sl a ≠ toLex (score,key)) := by
  have hfollow : sl.exactly score key (place sl as 0).1 = bs.head?.filter
      (fun y => (sl.nodes y).score = score ∧ (sl.nodes y).key = key) := by
    rw [SkipList.exactly, h.follower]
  have hmatch : ∀ y, ((sl.nodes y).score = score ∧ (sl.nodes y).key = key) ↔ elem sl y = toLex (score,key) := by
    intro y
    rw [elem, toLex_inj, Prod.mk.injEq]
  rw [hfollow]
  cases bs with
  | nil => exact Or.inr ⟨rfl,fun a ha => (has a (by rwa [append_nil] at ha)).ne⟩
  | cons y cs =>
    by_cases hy : elem sl y = toLex (score,key)
    · refine Or.inl ⟨y,cs,rfl,hy,if_pos ?_⟩
      rw [decide_eq_true_eq, hmatch]
      exact hy
    refine Or.inr ⟨if_neg ?_,fun a ha => ?_⟩
    · rw [decide_eq_true_eq, hmatch]
      exact hy
    rcases mem_append.mp ha with ha | ha
    · exact (has a ha).ne
    have hlt := lt_of_le_of_ne (hbs y (mem_cons_self ..)) (Ne.symm hy)
    rcases mem_cons.mp ha with rfl | ha
    · exact hy
    · have hsorted := (pairwise_append.mp h.sorted).2.1
      exact (hlt.trans ((pairwise_cons.mp hsorted).1 a ha)).ne'

theorem search_exactly (h : Rep sl xs) (score : S) (key : K) :
    ∃ x path, sl.search score key = some (x,path) ∧
      ((∃ as y bs, xs = as++y::bs ∧ elem sl y = toLex (score,key) ∧ sl.exactly score key x = some y ∧
        OnPath sl as path) ∨
        (sl.exactly score key x = none ∧ ∀ a ∈ xs, elem sl a ≠ toLex (score,key))) := by
  obtain ⟨as,bs,path,rfl,has,hbs,hsearch,hpath⟩ := search_spec h score key
  refine ⟨_,path,hsearch,?_⟩
  rcases exactly_spec h score key has hbs with ⟨y,cs,rfl,hy,hfound⟩ | hnone
  · exact Or.inl ⟨as,y,cs,rfl,hy,hfound,hpath⟩
  · exact Or.inr hnone

theorem mem_remove {as bs : List ℕ} {y : ℕ} (hnodup : (as++y::bs).Nodup) (a : ℕ) :
    a ∈ as++bs ↔ a ∈ as++y::bs ∧ a ≠ y := by
  have hy : y ∉ as++bs := (nodup_middle.mp hnodup).notMem
  have hperm : a ∈ as++y::bs ↔ a = y ∨ a ∈ as++bs := by
    rw [perm_middle.mem_iff, mem_cons]
  rw [hperm]
  constructor
  · intro ha
    exact ⟨Or.inr ha,fun heq => hy (heq ▸ ha)⟩
  · rintro ⟨rfl | ha,hne⟩
    · exact absurd rfl hne
    · exact ha

theorem delete_spec (h : Rep sl xs) (score : S) (key : K) :
    (∃ t y ys, sl.delete score key = some (t,true) ∧ y ∈ xs ∧ elem sl y = toLex (score,key) ∧ Rep t ys ∧
      (∀ a, a ∈ ys ↔ a ∈ xs ∧ a ≠ y) ∧ ∀ a, elem t a = elem sl a) ∨
      (sl.delete score key = some (sl,false) ∧ ∀ a ∈ xs, elem sl a ≠ toLex (score,key)) := by
  obtain ⟨x,path,hsearch,⟨as,y,bs,rfl,hy,hfound,hpath⟩ | ⟨hnone,hno⟩⟩ := search_exactly h score key
  · obtain ⟨hrep,helem,_⟩ := rep_deleteNode h hpath
    refine Or.inl ⟨_,y,as++bs,?_,mem_append_right _ (mem_cons_self ..),hy,hrep,
      mem_remove (nodup_cons.mp h.nodup).2,helem⟩
    simp only [SkipList.delete, hsearch, Option.bind_eq_bind, Option.bind_some, hfound]
  · refine Or.inr ⟨?_,hno⟩
    simp only [SkipList.delete, hsearch, Option.bind_eq_bind, Option.bind_some, hnone]

/-! ## A new score -/

theorem staysBetween_spec {as bs : List ℕ} {y : ℕ} (h : Rep sl (as++y::bs)) {score : S}
    (hstays : sl.staysBetween score y = true) :
    (∀ a ∈ as, (sl.nodes a).score < score) ∧ ∀ b ∈ bs, score < (sl.nodes b).score := by
  rw [SkipList.staysBetween, Bool.and_eq_true, h.neighbours.1, h.neighbours.2] at hstays
  have hsorted := pairwise_append.mp h.sorted
  constructor
  · intro a ha
    rcases eq_nil_or_concat as with rfl | ⟨front,l,rfl⟩
    · cases ha
    rw [concat_eq_append, List.getLast?_concat, Option.all_some, decide_eq_true_eq] at hstays
    rw [concat_eq_append] at ha hsorted
    rcases mem_append.mp ha with ha | ha
    · have hlt := (pairwise_append.mp hsorted.1).2.2 a ha l (mem_singleton_self l)
      exact lt_of_le_of_lt (score_le_of_lt hlt) hstays.1
    · rw [mem_singleton.mp ha]
      exact hstays.1
  intro b hb
  cases bs with
  | nil => cases hb
  | cons c bs =>
    rw [List.head?_cons, Option.all_some, decide_eq_true_eq] at hstays
    rcases mem_cons.mp hb with rfl | hb
    · exact hstays.2
    · have hlt := (pairwise_cons.mp (pairwise_cons.mp hsorted.2.1).2).1 b hb
      exact lt_of_lt_of_le hstays.2 (score_le_of_lt hlt)

theorem rep_setScore {as bs : List ℕ} {y : ℕ} (h : Rep sl (as++y::bs)) {score : S}
    (hstays : sl.staysBetween score y = true) : Rep (sl.setScore y score) (as++y::bs) := by
  obtain ⟨hbefore,hafter⟩ := staysBetween_spec h hstays
  have hnodup := nodup_middle.mp (nodup_cons.mp h.nodup).2
  have hsame := fun a => same_setScore sl y a score
  refine ⟨?_,h.addrs,h.fresh,fun a ha => ?_,h.level,fun i => ?_,
    h.backs.congr (fun a _ => (hsame a).1),h.tail,h.length⟩
  · refine sorted_put (e := toLex (score,(sl.nodes y).key))
      (h.sorted.sublist ((sublist_cons_self y bs).append_left as)) (fun a ha => ?_) (fun b hb => ?_)
      (by rw [elem_setScore, if_pos rfl]) (fun a ha => ?_)
    · exact Prod.Lex.toLex_lt_toLex.mpr (Or.inl (hbefore a ha))
    · exact Prod.Lex.toLex_lt_toLex.mpr (Or.inl (hafter b hb))
    · have hne : a ≠ y := fun heq => hnodup.notMem (heq ▸ ha)
      rw [elem_setScore, if_neg hne]
  · rw [(hsame a).2.1]
    exact h.heights a ha
  · rw [links_congr (fun a => (hsame a).2.2) i]
    refine (h.chains i).congr_tall (fun a _ => ?_)
    rw [tall, (hsame a).2.1, ← tall]

theorem updateScore_spec (h : Rep sl xs) (flips : ℕ → Bool) (cur : S)
    (key : K) (new : S) (hnew : ∀ y ∈ xs, elem sl y = toLex (cur,key) → ∀ a ∈ xs, a ≠ y →
      elem sl a ≠ toLex (new,key)) :
    (∃ t y n ys, sl.updateScore flips cur key new = some (t,some n) ∧ y ∈ xs ∧
      elem sl y = toLex (cur,key) ∧ Rep t ys ∧ (∀ a, a ∈ ys ↔ a = n ∨ a ∈ xs ∧ a ≠ y) ∧
        (n = y ∨ n = sl.fresh) ∧ ∀ a, elem t a = if a = n then toLex (new,key) else elem sl a) ∨
      (sl.updateScore flips cur key new = some (sl,none) ∧ ∀ a ∈ xs, elem sl a ≠ toLex (cur,key)) := by
  obtain ⟨x,path,hsearch,⟨as,y,bs,rfl,hy,hfound,hpath⟩ | ⟨hnone,hno⟩⟩ := search_exactly h cur key
  · have hmem := mem_remove (nodup_cons.mp h.nodup).2
    have hyin : y ∈ as++y::bs := mem_append_right _ (mem_cons_self ..)
    by_cases hstays : sl.staysBetween new y = true
    · refine Or.inl ⟨_,y,y,as++y::bs,?_,hyin,hy,rep_setScore h hstays,fun a => ?_,Or.inl rfl,fun a => ?_⟩
      · rw [SkipList.updateScore, hsearch]
        simp only [Option.bind_eq_bind, Option.bind_some, hfound, if_pos hstays]
      · by_cases ha : a = y
        · subst ha
          exact ⟨fun _ => Or.inl rfl,fun _ => hyin⟩
        · exact ⟨fun hin => Or.inr ⟨hin,ha⟩,fun hin => (hin.resolve_left ha).1⟩
      · have hkey : (sl.nodes y).key = key := (Prod.ext_iff.mp (toLex_inj.mp hy)).2
        rw [elem_setScore, hkey]
    obtain ⟨hrep,helem,hfresh⟩ := rep_deleteNode h hpath
    have hother : ∀ a ∈ as++bs, elem (sl.deleteNode y path) a ≠ toLex (new,key) := by
      intro a ha
      rw [helem]
      obtain ⟨hin,hne⟩ := (hmem a).mp ha
      exact hnew y hyin hy a hin hne
    obtain ⟨t,ys,hinsert,hrep',hys,helem'⟩ := insert_spec hrep flips new key hother
    refine Or.inl ⟨t,y,sl.fresh,ys,?_,hyin,hy,hrep',fun a => ?_,Or.inr rfl,fun a => ?_⟩
    · rw [SkipList.updateScore, hsearch]
      simp only [Option.bind_eq_bind, Option.bind_some, hfound, if_neg hstays, hinsert, hfresh]
    · rw [hys, hmem, hfresh]
    · rw [helem', helem, hfresh]
  · refine Or.inr ⟨?_,hno⟩
    rw [SkipList.updateScore, hsearch]
    simp only [Option.bind_eq_bind, Option.bind_some, hnone]

end GoCommon.SkipListDelete
