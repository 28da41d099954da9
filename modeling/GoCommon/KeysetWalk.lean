import Mathlib.Data.List.Sort
import Mathlib.Data.List.Perm.Subperm
import Mathlib.Tactic

/-!
# Walks over the pages of a sorted list

A walk asks for a page, takes the key of its last row as the cursor of the next
one, and ends at the first empty page. Every page is the head of what its cursor
selects. A walk that finds, at each border between two pages, the rows behind the
border selected visits every row once, and no other walk does so when the selections
are nested.
-/

set_option autoImplicit false

namespace GoCommon.KeysetWalk
open List

variable {ρ κ : Type}

/-! ## Sorting what a filter keeps -/

section Sorting
variable (r : ρ → ρ → Prop) [DecidableRel r] [IsTrans ρ r]

theorem filter_orderedInsert (q : ρ → Bool) (a : ρ) {l : List ρ} (hl : l.Pairwise r) :
    (l.orderedInsert r a).filter q =
      if q a then (l.filter q).orderedInsert r a else l.filter q := by
  induction l with
  | nil => cases hq : q a <;> simp [hq]
  | cons b l ih =>
    obtain ⟨hb,hl⟩ := pairwise_cons.mp hl
    by_cases hab : r a b
    · rw [orderedInsert_cons_of_le r l hab]
      cases hq : q a with
      | false => rw [filter_cons_of_neg (by simp [hq]), if_neg (by simp)]
      | true =>
        -- everything that is kept comes after the new row
        rw [filter_cons_of_pos hq, if_pos rfl]
        cases hkeep : (b::l).filter q with
        | nil => rfl
        | cons c m =>
          have hc : c ∈ b::l := mem_of_mem_filter (hkeep ▸ mem_cons_self)
          have hac : r a c := by
            rcases mem_cons.mp hc with rfl | hc
            · exact hab
            · exact IsTrans.trans a b c hab (hb c hc)
          rw [orderedInsert_cons_of_le r m hac]
    rw [orderedInsert_of_not_le r l hab]
    cases hq : q b with
    | false => rw [filter_cons_of_neg (by simp [hq]), filter_cons_of_neg (by simp [hq]), ih hl]
    | true =>
      rw [filter_cons_of_pos hq, filter_cons_of_pos hq, ih hl]
      split
      · rw [orderedInsert_of_not_le r _ hab]
      · rfl

theorem insertionSort_filter [Std.Total r] (q : ρ → Bool) (l : List ρ) :
    (l.filter q).insertionSort r = (l.insertionSort r).filter q := by
  induction l with
  | nil => rfl
  | cons a l ih =>
    rw [insertionSort_cons, filter_orderedInsert r q a (pairwise_insertionSort r l), ← ih]
    cases hq : q a with
    | false => rw [filter_cons_of_neg (by simp [hq]), if_neg (by simp)]
    | true => rw [filter_cons_of_pos hq, if_pos rfl, insertionSort_cons]

end Sorting

/-! ## Walks -/

variable {n : ℕ} {c : κ} {pages : List (List ρ)}

section Walks
variable (page : κ → List ρ) (key : ρ → κ)

def walk : ℕ → κ → Option (List (List ρ))
  | 0, _ => none
  | n+1, c => match (page c).getLast? with
    | none => some []
    | some r => (walk n (key r)).map (fun pages => page c::pages)

def Border (size : ℕ) (pre post : List ρ) : Prop := size ∣ pre.length ∨ post = []

variable {page key} {rows : List ρ} {size : ℕ}

theorem walk_nil (h : page c = []) : walk page key (n+1) c = some [] := by
  rw [walk, h]
  rfl

theorem walk_cons {r : ρ} (h : (page c).getLast? = some r) :
    walk page key (n+1) c = (walk page key n (key r)).map (fun pages => page c::pages) := by
  rw [walk, h]

theorem first_page_subset (h : walk page key n c = some pages) : page c ⊆ pages.flatten := by
  cases n with
  | zero => cases h
  | succ n =>
    rw [walk] at h
    split at h
    · rename_i hnone
      rw [List.getLast?_eq_none_iff.mp hnone]
      exact nil_subset _
    · obtain ⟨rest,_,rfl⟩ := Option.map_eq_some_iff.mp h
      exact subset_append_left ..

theorem next_border (hsize : 0 < size) {pre post : List ρ} (hb : Border size pre post) (hpost : post ≠ []) :
    ∃ init r, post.take size = init++[r] ∧ post = init++[r]++post.drop size ∧
      Border size (pre++init++[r]) (post.drop size) := by
  obtain ⟨init,r,hir⟩ : ∃ init r, post.take size = init++[r] := by
    refine (eq_nil_or_concat' (post.take size)).resolve_left (fun hnil => ?_)
    rcases take_eq_nil_iff.mp hnil with h | h
    · omega
    · exact hpost h
  refine ⟨init,r,hir,by rw [← hir, take_append_drop],?_⟩
  have hlen : init.length+1 = min size post.length := by
    rw [← length_take, hir, length_append, length_singleton]
  rcases le_or_gt post.length size with hle | hlt
  · exact Or.inr (drop_eq_nil_of_le hle)
  left
  rw [append_assoc, length_append, length_append, length_singleton,
    show init.length+1 = size by omega]
  exact (Nat.dvd_add_right (hb.resolve_right hpost)).mpr dvd_rfl

end Walks

/-! ## Cursors that select -/

section Selections
variable {select : κ → List ρ} {key : ρ → κ} {rows : List ρ} {size : ℕ}

def pageOf (size : ℕ) (select : κ → List ρ) (c : κ) : List ρ := (select c).take size

theorem walk_subset (first : ρ) (hfirst : first ∈ rows.take size)
    (hnested : ∀ c, ∀ r ∈ select c, select (key r) = rows ∨ select (key r) ⊆ select c) :
    ∀ (n : ℕ) (c : κ) (pages : List (List ρ)), walk (pageOf size select) key n c = some pages →
      first ∉ pages.flatten → pages.flatten ⊆ select c := by
  intro n
  induction n with
  | zero =>
    intro c pages hwalk
    cases hwalk
  | succ n ih =>
    intro c pages hwalk hno
    cases hlast : (pageOf size select c).getLast? with
    | none =>
      rw [walk_nil (List.getLast?_eq_none_iff.mp hlast)] at hwalk
      cases hwalk
      exact nil_subset _
    | some r =>
      rw [walk_cons hlast] at hwalk
      obtain ⟨rest,hrest,rfl⟩ := Option.map_eq_some_iff.mp hwalk
      rw [flatten_cons, mem_append, not_or] at hno
      have hr : r ∈ select c := mem_of_mem_take (mem_of_getLast? hlast)
      have hsub := ih (key r) rest hrest hno.2
      refine append_subset.mpr ⟨take_subset _ _,?_⟩
      rcases hnested c r hr with hall | hin
      · -- the next page would be the first one again
        refine absurd (first_page_subset hrest ?_) hno.2
        rw [pageOf, hall]
        exact hfirst
      · exact fun x hx => hin (hsub hx)

theorem mem_take_cons (hsize : 0 < size) {a : ρ} {l : List ρ} : a ∈ (a::l).take size := by
  obtain ⟨k,rfl⟩ : ∃ k, size = k+1 := ⟨size-1,by omega⟩
  exact mem_cons_self

theorem select_eq_rest (hsize : 0 < size) (hnd : rows.Nodup) (hsub : ∀ c, (select c).Sublist rows)
    (hnested : ∀ c, ∀ r ∈ select c, select (key r) = rows ∨ select (key r) ⊆ select c)
    {c : κ} {pre post : List ρ} (hrows : rows = pre++post)
    (hpre : pre ≠ []) (hwalk : walk (pageOf size select) key n c = some pages)
    (hperm : pages.flatten.Perm post) : select c = post := by
  obtain ⟨first,more,rfl⟩ := exists_cons_of_ne_nil hpre
  rw [hrows] at hnd
  have hdisjoint := (nodup_append.mp hnd).2.2
  have hfirst : first ∈ rows.take size := by
    rw [hrows]
    exact mem_take_cons hsize
  have hfind : pages.flatten ⊆ select c := walk_subset first hfirst hnested n c pages hwalk
    (fun hmem => hdisjoint first mem_cons_self first (hperm.subset hmem) rfl)
  have hrest : (select c).Sublist post := by
    obtain ⟨front,back,hsplit,hfront,hback⟩ := sublist_append_iff.mp (hrows ▸ hsub c)
    rcases front with - | ⟨a,front⟩
    · rw [hsplit]
      exact hback
    -- the first row that is selected would be visited twice
    have hhead : a ∈ pageOf size select c := by
      rw [pageOf, hsplit]
      exact mem_take_cons hsize
    exact absurd rfl (hdisjoint a (hfront.subset mem_cons_self) a
      (hperm.subset (first_page_subset hwalk hhead)))
  refine hrest.eq_of_length_le ?_
  have hpostnd : post.Nodup := (nodup_append.mp hnd).2.1
  exact (hpostnd.subperm (fun x hx => hfind (hperm.symm.subset hx))).length_le

theorem walk_borders (hsize : 0 < size) (hnd : rows.Nodup) (hsub : ∀ c, (select c).Sublist rows)
    (hnested : ∀ c, ∀ r ∈ select c, select (key r) = rows ∨ select (key r) ⊆ select c) :
    ∀ (n : ℕ) (c : κ) (pages : List (List ρ)) (pre post : List ρ), rows = pre++post →
      Border size pre post → select c = post →
        walk (pageOf size select) key n c = some pages → pages.flatten.Perm post →
          ∀ more r rest, post = more++[r]++rest → Border size (pre++more++[r]) rest → select (key r) = rest := by
  intro n
  induction n with
  | zero =>
    intro c pages pre post _ _ _ hwalk
    cases hwalk
  | succ n ih =>
    intro c pages pre post hrows hb hsel hwalk hperm more r rest hpost hborder
    have hne : post ≠ [] := by
      rw [hpost]
      simp
    obtain ⟨init,last,htake,hsplit,hnext⟩ := next_border hsize hb hne
    have hpage : (pageOf size select c).getLast? = some last := by
      rw [pageOf, hsel, htake, List.getLast?_concat]
    rw [walk_cons hpage] at hwalk
    obtain ⟨pages',hwalk',rfl⟩ := Option.map_eq_some_iff.mp hwalk
    have hrows' : rows = pre++init++[last]++post.drop size := by
      rw [hrows]
      nth_rewrite 1 [hsplit]
      simp only [append_assoc]
    have hperm' : pages'.flatten.Perm (post.drop size) := by
      rw [pageOf, hsel] at hperm
      nth_rewrite 2 [← take_append_drop size post] at hperm
      exact (perm_append_left_iff _).mp hperm
    have hsel' : select (key last) = post.drop size :=
      select_eq_rest hsize hnd hsub hnested hrows' (by simp) hwalk' hperm'
    rw [hsplit] at hpost
    rcases append_eq_append_iff.mp hpost with ⟨mid,hmid,hdrop⟩ | ⟨mid,hmid,hdrop⟩
    · rcases eq_nil_or_concat' mid with rfl | ⟨mid',x,rfl⟩
      · rw [append_nil] at hmid
        obtain ⟨-,hr⟩ := append_inj' hmid rfl
        rw [List.cons.inj hr |>.1, hsel', hdrop, nil_append]
      -- a border on a later page
      rw [← append_assoc] at hmid
      obtain ⟨hmore,hr⟩ := append_inj' hmid rfl
      rw [← (List.cons.inj hr).1] at hdrop
      refine ih (key last) pages' _ _ hrows' hnext hsel' hwalk' hperm' mid' r rest hdrop ?_
      rw [hmore] at hborder
      simpa only [append_assoc] using hborder
    rcases eq_nil_or_concat' mid with rfl | ⟨mid',x,rfl⟩
    · rw [append_nil] at hmid
      obtain ⟨-,hr⟩ := append_inj' hmid rfl
      rw [← (List.cons.inj hr).1, hsel', hdrop, nil_append]
    -- a border inside the first page
    have hlen : init.length+1 = min size post.length := by
      rw [← length_take, htake, length_append, length_singleton]
    have hsum := congrArg List.length hmid
    simp only [length_append, length_singleton] at hsum
    rcases hborder with hdvd | hnil
    · rw [append_assoc, length_append] at hdvd
      have hsmall := Nat.le_of_dvd (by simp) ((Nat.dvd_add_right (hb.resolve_right hne)).mp hdvd)
      rw [length_append, length_singleton] at hsmall
      omega
    · rw [hnil] at hdrop
      simp at hdrop

def Follows (size : ℕ) (select : κ → List ρ) (key : ρ → κ) (rows : List ρ) : Prop :=
  ∀ pre r post, rows = pre++[r]++post → Border size (pre++[r]) post → select (key r) = post

/-- What is found behind a border may come in another order than before, as long as it comes
in a valid one. -/
theorem complete_of_valid (hsize : 0 < size) (Valid : List ρ → Prop)
    (hnext : ∀ pre r post, Valid (pre++[r]++post) → Border size (pre++[r]) post →
      (select (key r)).length = post.length ∧ Valid (pre++[r]++select (key r))) :
    ∀ (n : ℕ) (c : κ) (pre : List ρ), (select c).length ≤ n → Valid (pre++select c) →
      Border size pre (select c) →
        ∃ pages, walk (pageOf size select) key (n+1) c = some pages ∧ Valid (pre++pages.flatten) := by
  intro n
  induction n with
  | zero =>
    intro c pre hlen hvalid _
    have hnil := length_eq_zero_iff.mp (Nat.le_zero.mp hlen)
    exact ⟨[],walk_nil (by rw [pageOf, hnil, take_nil]),by rw [hnil] at hvalid; exact hvalid⟩
  | succ n ih =>
    intro c pre hlen hvalid hb
    by_cases hnil : select c = []
    · exact ⟨[],walk_nil (by rw [pageOf, hnil, take_nil]),by rw [hnil] at hvalid; exact hvalid⟩
    obtain ⟨init,r,htake,hsplit,hborder⟩ := next_border hsize hb hnil
    rw [hsplit, ← append_assoc, ← append_assoc] at hvalid
    obtain ⟨hsame,hvalid'⟩ := hnext _ r _ hvalid hborder
    rw [length_drop] at hsame
    have hborder' : Border size (pre++init++[r]) (select (key r)) := by
      apply hborder.imp_right
      intro hdrop
      rw [← length_drop, hdrop] at hsame
      exact length_eq_zero_iff.mp hsame
    obtain ⟨pages,hwalk,hpages⟩ := ih (key r) _ (by omega) hvalid' hborder'
    refine ⟨pageOf size select c::pages,?_,?_⟩
    · rw [walk_cons (by rw [pageOf, htake, List.getLast?_concat]), hwalk]
      rfl
    · rw [flatten_cons, pageOf, htake]
      simpa only [append_assoc] using hpages

theorem complete_of_follows (hsize : 0 < size) {start : κ} (hstart : select start = rows)
    (h : Follows size select key rows) :
    ∃ n pages, walk (pageOf size select) key n start = some pages ∧ pages.flatten = rows := by
  obtain ⟨pages,hwalk,hflat⟩ := complete_of_valid hsize (· = rows)
    (fun pre r post hrows hb => by
      rw [h pre r post hrows.symm hb]
      exact ⟨rfl,hrows⟩)
    (select start).length start [] le_rfl hstart (Or.inl (dvd_zero size))
  exact ⟨_,pages,hwalk,hflat⟩

theorem follows_of_complete (hsize : 0 < size) (hnd : rows.Nodup) (hsub : ∀ c, (select c).Sublist rows)
    (hnested : ∀ c, ∀ r ∈ select c, select (key r) = rows ∨ select (key r) ⊆ select c) {start : κ}
    (hstart : select start = rows)
    (hwalk : walk (pageOf size select) key n start = some pages) (hperm : pages.flatten.Perm rows) :
    Follows size select key rows := fun pre r post hrows hborder =>
  walk_borders hsize hnd hsub hnested n start pages [] rows rfl (Or.inl (dvd_zero size)) hstart
    hwalk hperm pre r post hrows hborder

end Selections

end GoCommon.KeysetWalk
