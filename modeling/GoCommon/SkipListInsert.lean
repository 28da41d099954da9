import GoCommon.SkipListShape

/-!
# Inserting into the skip list

New levels are opened at the head, the new node is linked behind the path on its
levels and the other levels count it in their spans. The node is put where the
search by score and key ends.
-/

set_option autoImplicit false

namespace GoCommon.SkipListInsert
open List hiding Chain elem
open Function SpannedChain SkipLists SkipListShape

section Levels
variable {S K : Type}

def wired (u n : ℕ) (d : ℤ) (L : Links ℕ) : Links ℕ :=
  (L.set n (L.next u) (L.span u-d)).set u (some n) (d+1)

theorem links_create {sl : SkipList S K} {key : K} {score : S} {height j : ℕ} :
    (sl.create key score height).links j = (sl.links j).set sl.fresh none 0 := by
  have hnode : ∀ a, (sl.create key score height).nodes a = if a = sl.fresh then
      ⟨key,score,none,height,fun _ => ⟨none,0⟩⟩ else sl.nodes a := fun a => update_apply ..
  have hnext : ((sl.create key score height).links j).next = ((sl.links j).set sl.fresh none 0).next := by
    funext a
    change (((sl.create key score height).nodes a).levels j).forward = update (sl.links j).next sl.fresh none a
    rw [hnode, update_apply]
    split <;> rfl
  have hspan : ((sl.create key score height).links j).span = ((sl.links j).set sl.fresh none 0).span := by
    funext a
    change (((sl.create key score height).nodes a).levels j).span = update (sl.links j).span sl.fresh 0 a
    rw [hnode, update_apply]
    split <;> rfl
  exact congrArg₂ Links.mk hnext hspan

def linked (path : Path) (newLevel : ℕ) (key : K) (score : S) (sl : SkipList S K) : SkipList S K :=
  let t := (sl.create key score newLevel).forLevels 0 newLevel (SkipList.wire path sl.fresh)
  t.forLevels newLevel t.level (SkipList.bump path)

theorem linked_spec (sl : SkipList S K) (path : Path) (newLevel : ℕ) (key : K) (score : S) :
    Frame (sl.create key score newLevel) (linked path newLevel key score sl) ∧
      ∀ j, (linked path newLevel key score sl).links j =
        let L := (sl.links j).set sl.fresh none 0
        if j < newLevel then wired (path j).1 sl.fresh ((path 0).2-(path j).2) L
        else if j < sl.level then L.set (path j).1 (L.next (path j).1) (L.span (path j).1+1) else L := by
  obtain ⟨hframe,hlinks⟩ := forLevels_spec (sl.create key score newLevel) (SkipList.wire path sl.fresh)
    (fun i L => wired (path i).1 sl.fresh ((path 0).2-(path i).2) L) (by
      intro i t _
      refine ⟨(setLevel_frame t _ _ _ _).trans (setLevel_frame _ _ _ _ _),fun j => ?_⟩
      rw [SkipList.wire, links_setLevel, links_setLevel, links_setLevel]
      by_cases hj : j = i
      · rw [if_pos hj, if_pos rfl, if_pos hj]
        rfl
      · rw [if_neg hj, if_neg hj, if_neg hj]) 0 newLevel
  obtain ⟨hframe',hlinks'⟩ := forLevels_spec
    ((sl.create key score newLevel).forLevels 0 newLevel (SkipList.wire path sl.fresh)) (SkipList.bump path)
    (fun i L => L.set (path i).1 (L.next (path i).1) (L.span (path i).1+1)) (by
      intro i t _
      exact ⟨setLevel_frame t _ _ _ _,fun j => by rw [SkipList.bump, links_setLevel]; rfl⟩) newLevel sl.level
  have hlevel : ((sl.create key score newLevel).forLevels 0 newLevel (SkipList.wire path sl.fresh)).level =
      sl.level := hframe.level
  refine ⟨?_,fun j => ?_⟩
  · rw [linked, hlevel]
    exact hframe.trans hframe'
  rw [linked, hlevel, hlinks', hlinks, links_create]
  by_cases hlow : j < newLevel
  · rw [if_neg (by omega), if_pos ⟨Nat.zero_le j,hlow⟩, if_pos hlow]
  rw [if_neg hlow]
  by_cases hhigh : j < sl.level
  · rw [if_pos ⟨by omega,hhigh⟩, if_neg (by omega), if_pos hhigh]
  · rw [if_neg (by omega), if_neg (by omega), if_neg hhigh]

theorem mirror_eq (sl : SkipList S K) (u n : ℕ) : sl.mirror u n =
    pointBack (sl.forward n 0) (some n) (sl.setBackward n (if u = 0 then none else some u)) := by
  have hforward : (sl.setBackward n (if u = 0 then none else some u)).forward n 0 = sl.forward n 0 := by
    rw [SkipList.forward, levels_setBackward]
    rfl
  rw [SkipList.mirror, hforward]
  cases sl.forward n 0 <;> rfl

theorem mirror_relinked (sl : SkipList S K) (u n : ℕ) : Relinked sl (sl.mirror u n) := by
  exact (setBackward_relinked sl n _).trans (pointBack_spec _ _ _).1

theorem getLast?_insert {as bs : List ℕ} {n : ℕ} :
    (as++n::bs).getLast? = if bs.head? = none then some n else (as++bs).getLast? := by
  cases bs with
  | nil => simp
  | cons b bs => simp [List.getLast?_append, List.getLast?_cons]

theorem back_insert {sl : SkipList S K} (t : SkipList S K) {as bs : List ℕ} (n : ℕ) (h : Back sl none (as++bs))
    (hnodup : (as++bs).Nodup) (hn : n ∉ as++bs)
    (hback : ∀ a, (t.nodes a).backward = if bs.head? = some a then some n
      else if a = n then as.getLast? else (sl.nodes a).backward) : Back t none (as++n::bs) := by
  have hhead : ∀ a ∈ as, bs.head? ≠ some a := by
    intro a ha hb
    exact (nodup_append.mp hnodup).2.2 a ha a (mem_of_head? hb) rfl
  rw [back_append, Option.or_none] at h ⊢
  refine ⟨h.1.congr (fun a ha => ?_),?_,?_⟩
  · have hne : a ≠ n := fun heq => hn (heq ▸ mem_append_left _ ha)
    rw [hback, if_neg (hhead a ha), if_neg hne]
  · rw [hback, if_neg (fun hb => hn (mem_append_right _ (mem_of_head? hb))), if_pos rfl]
  cases bs with
  | nil => trivial
  | cons b bs =>
    refine ⟨(hback b).trans (if_pos rfl),h.2.2.congr (fun a ha => ?_)⟩
    have hb : b ≠ a := by
      rintro rfl
      exact (nodup_cons.mp (nodup_append.mp hnodup).2.1).1 ha
    have hne : a ≠ n := by
      rintro rfl
      exact hn (mem_append_right _ (mem_cons_of_mem _ ha))
    exact ((hback a).trans (if_neg (fun hsome => hb (Option.some.inj hsome)))).trans (if_neg hne)

theorem expand_spec (sl : SkipList S K) (newLevel : ℕ) :
    let t := sl.forLevels sl.level newLevel (fun i sl => sl.setLevel 0 i (sl.forward 0 i) sl.length)
    Frame sl t ∧ ∀ j, t.links j = if sl.level ≤ j ∧ j < newLevel
      then (sl.links j).set 0 ((sl.links j).next 0) sl.length else sl.links j :=
  forLevels_spec sl _ (fun _ L => L.set 0 (L.next 0) sl.length)
    (fun i t ht => ⟨setLevel_frame t 0 i _ _,fun j => by rw [links_setLevel, ht.length]; rfl⟩) _ _

structure Put (sl t : SkipList S K) (newLevel : ℕ) (e : S ×ₗ K) : Prop where
  elem_eq : ∀ a, elem t a = if a = sl.fresh then e else elem sl a
  height : ∀ a, (t.nodes a).height = if a = sl.fresh then newLevel else (sl.nodes a).height
  fresh : t.fresh = sl.fresh+1
  length : t.length = sl.length
  level : t.level = sl.level

theorem linked_put (sl : SkipList S K) (path : Path) (newLevel : ℕ) (key : K) (score : S) (u : ℕ) :
    Put sl ((linked path newLevel key score sl).mirror u sl.fresh) newLevel (toLex (score,key)) := by
  have hframe := (linked_spec sl path newLevel key score).1
  have hnode : ∀ a, (sl.create key score newLevel).nodes a = if a = sl.fresh then
      ⟨key,score,none,newLevel,fun _ => ⟨none,0⟩⟩ else sl.nodes a := fun a => update_apply ..
  have hrel := mirror_relinked (linked path newLevel key score sl) u sl.fresh
  refine ⟨fun a => ?_,fun a => ?_,hrel.fresh.trans hframe.fresh,hrel.length.trans hframe.length,
    hrel.level.trans hframe.level⟩
  · rw [hrel.elem_eq, hframe.elem_eq, elem, hnode]
    split <;> rfl
  · rw [hrel.height, hframe.height, hnode]
    split <;> rfl

end Levels

variable {S K : Type} [LinearOrder S] [LinearOrder K]

/-! ## New levels -/

variable {newLevel : ℕ} {path : Path}

theorem rep_expand {sl : SkipList S K} {xs : List ℕ} (h : Rep sl xs)
    (hlt : sl.level < newLevel) (hmax : newLevel ≤ maxLevel) : Rep (sl.expand newLevel) xs := by
  obtain ⟨hframe,hlinks⟩ := expand_spec sl newLevel
  have hrep := h.frame hframe (fun i => ?_)
  · refine ⟨hrep.sorted,hrep.addrs,hrep.fresh,fun a ha => ?_,⟨Nat.zero_lt_of_lt hlt,hmax⟩,hrep.chains,
      hrep.backs.congr (fun _ _ => rfl),hrep.tail,hrep.length⟩
    have hheight := hrep.heights a ha
    rw [hframe.level] at hheight
    exact ⟨hheight.1,le_trans hheight.2 (le_of_lt hlt)⟩
  rw [hlinks]
  split
  · rename_i hin
    have hshort := h.short i hin.1
    rw [chain_of_short _ _ hshort, (Links.set_self ..).1]
    exact (chain_of_short _ _ hshort).mp (h.chains i)
  · exact h.chains i

theorem onPath_expand {sl : SkipList S K} {as bs : List ℕ} (h : Rep sl (as++bs)) (newLevel : ℕ) (hpath : OnPath sl as path) :
    OnPath (sl.expand newLevel) as (SkipList.expandPath sl.level newLevel path) := by
  intro i hi
  change i < newLevel at hi
  have htall : ∀ a, tall (sl.expand newLevel) i a = tall sl i a := (expand_spec sl newLevel).1.tall_eq i
  rw [place, stop_congr 0 [] as (fun a _ => htall a), ← place, SkipList.expandPath]
  split
  · rename_i hin
    have hshort : ∀ a ∈ as, tall sl i a = false := fun a ha => h.short i hin.1 a (mem_append_left _ ha)
    rw [place, stop_of_short 0 [] as hshort]
    simp
  · exact hpath i (by omega)

/-! ## Inserting a node -/

theorem linked_chain {sl : SkipList S K} {as bs : List ℕ} (h : Rep sl (as++bs))
    (hpath : OnPath sl as path) (hlvl : newLevel ≤ sl.level) (key : K) (score : S) (i : ℕ) :
    Chain ((linked path newLevel key score sl).links i) (fun a => if a = sl.fresh then decide (i < newLevel)
      else tall sl i a) 0 0 (as++sl.fresh::bs) := by
  have hold : ∀ a ∈ 0::(as++bs), a ≠ sl.fresh := by
    intro a ha
    rcases mem_cons.mp ha with rfl | ha
    · exact h.fresh.ne
    · exact (h.addrs a ha).2.ne
  have htall : ∀ a ∈ as++bs, (if a = sl.fresh then decide (i < newLevel) else tall sl i a) = tall sl i a :=
    fun a ha => if_neg (hold a (mem_cons_of_mem _ ha))
  have hu : (stop (tall sl i) 0 [] as).1 ≠ sl.fresh := by
    refine hold _ ?_
    rcases @stop_mem _ (tall sl i) 0 [] as with heq | hmem
    · rw [heq]
      exact mem_cons_self ..
    · exact mem_cons_of_mem _ (mem_append_left _ hmem)
  rw [(linked_spec sl path newLevel key score).2 i]
  by_cases hhigh : i < sl.level
  · have hplace := hpath i hhigh
    have hpos : (path i).1 = (stop (tall sl i) 0 [] as).1 := by rw [hplace, place]
    have hzero : (path 0).2 = as.length := by
      have hall : ∀ a ∈ as, tall sl 0 a = true := fun a ha => h.lowest a (mem_append_left _ ha)
      rw [hpath 0 h.level.1, place, stop_of_tall 0 as hall]
      simp
    have hd : (path 0).2-(path i).2 = (stop (tall sl i) 0 [] as).2.length := by
      rw [hzero, hplace, place]
      ring
    rw [hpos, hd]
    by_cases hlow : i < newLevel
    · rw [if_pos hlow, wired]
      refine (h.chains i).insert_tall h.nodup sl.fresh htall ?_ ?_ ?_ ?_ ?_ ?_
      · rw [if_pos rfl, decide_eq_true_eq]
        exact hlow
      · exact (Links.set_self ..).1
      · exact (Links.set_self ..).2
      · rw [(Links.set_ne hu.symm).1, (Links.set_self ..).1, (Links.set_ne hu).1]
      · rw [(Links.set_ne hu.symm).2, (Links.set_self ..).2, (Links.set_ne hu).2]
      intro b hb hne
      have hbn := hold b hb
      rw [(Links.set_ne hne).1, (Links.set_ne hne).2,
        (Links.set_ne hbn).1, (Links.set_ne hbn).2]
      exact Links.set_ne hbn
    rw [if_neg hlow, if_pos hhigh]
    refine (h.chains i).insert_short h.nodup sl.fresh htall ?_ ?_ ?_ ?_
    · rw [if_pos rfl, decide_eq_false_iff_not]
      exact hlow
    · rw [(Links.set_self ..).1, (Links.set_ne hu).1]
    · rw [(Links.set_self ..).2, (Links.set_ne hu).2]
    · intro b hb hne
      rw [(Links.set_ne hne).1, (Links.set_ne hne).2]
      exact Links.set_ne (hold b hb)
  rw [if_neg (by omega), if_neg hhigh]
  have hshort := h.short i (by omega)
  refine (chain_of_short _ _ ?_).mpr ?_
  · intro a ha
    rcases mem_append.mp ha with ha | ha
    · rw [htall a (mem_append_left _ ha)]
      exact hshort a (mem_append_left _ ha)
    rcases mem_cons.mp ha with rfl | ha
    · rw [if_pos rfl, decide_eq_false_iff_not]
      omega
    · rw [htall a (mem_append_right _ ha)]
      exact hshort a (mem_append_right _ ha)
  · rw [(Links.set_ne h.fresh.ne).1]
    exact (chain_of_short _ _ hshort).mp (h.chains i)

theorem sorted_put {sl t : SkipList S K} {as bs : List ℕ} {n : ℕ} {e : S ×ₗ K}
    (h : (as++bs).Pairwise (fun a b => elem sl a < elem sl b)) (has : ∀ a ∈ as, elem sl a < e) (hbs : ∀ b ∈ bs, e < elem sl b) (hn : elem t n = e)
    (hsame : ∀ a ∈ as++bs, elem t a = elem sl a) :
    (as++n::bs).Pairwise (fun a b => elem t a < elem t b) := by
  have hleft : ∀ a ∈ as, elem t a = elem sl a := fun a ha => hsame a (mem_append_left _ ha)
  have hright : ∀ b ∈ bs, elem t b = elem sl b := fun b hb => hsame b (mem_append_right _ hb)
  have hsorted := pairwise_append.mp h
  refine pairwise_append.mpr ⟨?_,pairwise_cons.mpr ⟨?_,?_⟩,?_⟩
  · refine hsorted.1.imp_of_mem (fun ha hb hlt => ?_)
    rw [hleft _ ha, hleft _ hb]
    exact hlt
  · intro b hb
    rw [hn, hright b hb]
    exact hbs b hb
  · refine hsorted.2.1.imp_of_mem (fun ha hb hlt => ?_)
    rw [hright _ ha, hright _ hb]
    exact hlt
  intro a ha b hb
  rw [hleft a ha]
  rcases mem_cons.mp hb with rfl | hb
  · rw [hn]
    exact has a ha
  · rw [hright b hb]
    exact hsorted.2.2 a ha b hb

theorem linked_follower {sl : SkipList S K} {as bs : List ℕ} (h : Rep sl (as++bs))
    (hpath : OnPath sl as path) (hpos : 0 < newLevel) (hlvl : newLevel ≤ sl.level) (key : K)
    (score : S) : (linked path newLevel key score sl).forward sl.fresh 0 = bs.head? := by
  have hchain := linked_chain h hpath hlvl key score 0
  have hzero := ((chain_append 0 [] as (sl.fresh::bs)).mp hchain).2
  rw [Chain, if_pos (by rw [if_pos rfl, decide_eq_true_eq]; exact hpos)] at hzero
  cases bs with
  | nil => exact hzero.2.2
  | cons b bs =>
    have hmem : b ∈ as++b::bs := mem_append_right _ (mem_cons_self ..)
    have htail := hzero.2.2
    rw [Chain, if_neg (h.addrs b hmem).2.ne, if_pos (h.lowest b hmem)] at htail
    exact htail.1

theorem rep_put {sl : SkipList S K} {as bs : List ℕ} (h : Rep sl (as++bs))
    (hpath : OnPath sl as path) (hpos : 0 < newLevel) (hlvl : newLevel ≤ sl.level) (key : K)
    (score : S) (has : ∀ a ∈ as, elem sl a < toLex (score,key))
    (hbs : ∀ b ∈ bs, toLex (score,key) < elem sl b) :
    let t := (linked path newLevel key score sl).mirror (path 0).1 sl.fresh
    Rep { t with length := t.length+1 } (as++sl.fresh::bs) := by
  intro t
  have hput : Put sl t newLevel (toLex (score,key)) := linked_put sl path newLevel key score (path 0).1
  have hframe := (linked_spec sl path newLevel key score).1
  have hpointer : (if (path 0).1 = 0 then none else some (path 0).1) = as.getLast? := by
    rw [hpath 0 h.level.1]
    exact h.pointer
  have ht : t = pointBack bs.head? (some sl.fresh)
      ((linked path newLevel key score sl).setBackward sl.fresh as.getLast?) := by
    rw [← linked_follower h hpath hpos hlvl key score, ← hpointer]
    exact mirror_eq ..
  obtain ⟨_,hback,htail⟩ := pointBack_spec bs.head? (some sl.fresh)
    ((linked path newLevel key score sl).setBackward sl.fresh as.getLast?)
  rw [← ht] at hback htail
  have hmem : ∀ a ∈ as++sl.fresh::bs, a = sl.fresh ∨ a ∈ as++bs := by
    intro a ha
    rw [mem_append, mem_cons] at ha
    rw [mem_append]
    tauto
  refine ⟨?_,fun a ha => ?_,?_,fun a ha => ?_,?_,fun i => ?_,?_,?_,?_⟩
  · refine sorted_put h.sorted has hbs ((hput.elem_eq _).trans (if_pos rfl)) (fun a ha => ?_)
    exact (hput.elem_eq a).trans (if_neg (h.addrs a ha).2.ne)
  · rw [hput.fresh]
    rcases hmem a ha with rfl | ha
    · exact ⟨h.fresh,Nat.lt_succ_self _⟩
    · exact ⟨(h.addrs a ha).1,Nat.lt_succ_of_lt (h.addrs a ha).2⟩
  · rw [hput.fresh]
    exact Nat.succ_pos _
  · rw [hput.height, hput.level]
    split
    · exact ⟨hpos,hlvl⟩
    · exact h.heights a ((hmem a ha).resolve_left ‹_›)
  · rw [hput.level]
    exact h.level
  · change Chain (t.links i) (tall t i) 0 0 _
    rw [(mirror_relinked ..).links_eq]
    refine (linked_chain h hpath hlvl key score i).congr_tall (fun a _ => ?_)
    rw [tall, hput.height]
    split <;> rfl
  · refine @Back.congr _ _ _ t _ _ ?_ (fun _ _ => rfl)
    refine back_insert t sl.fresh h.backs (nodup_cons.mp h.nodup).2
      (fun hin => absurd (h.addrs _ hin).2 (lt_irrefl _)) (fun a => ?_)
    rw [hback, backward_setBackward, hframe.backward]
    refine if_congr Iff.rfl rfl (ite_congr rfl (fun _ => rfl) (fun hne => ?_))
    exact congrArg Node.backward (update_of_ne hne ..)
  · rw [htail, getLast?_insert, ← h.tail]
    exact if_congr Iff.rfl rfl hframe.tail
  rw [hput.length, h.length, length_append, length_append, length_cons]
  push_cast
  ring

theorem rep_insertAt {sl : SkipList S K} {as bs : List ℕ} (h : Rep sl (as++bs))
    (hpath : OnPath sl as path) (hpos : 0 < newLevel) (hmax : newLevel ≤ maxLevel) (key : K)
    (score : S) (has : ∀ a ∈ as, elem sl a < toLex (score,key))
    (hbs : ∀ b ∈ bs, toLex (score,key) < elem sl b) :
    Rep (sl.insertAt path newLevel score key).1 (as++sl.fresh::bs) ∧
      (sl.insertAt path newLevel score key).2 = sl.fresh ∧
        ∀ a, elem (sl.insertAt path newLevel score key).1 a =
          if a = sl.fresh then toLex (score,key) else elem sl a := by
  by_cases hlt : sl.level < newLevel
  · have hframe := (expand_spec sl newLevel).1
    have hfresh : (sl.expand newLevel).fresh = sl.fresh := hframe.fresh
    have helem : ∀ a, elem (sl.expand newLevel) a = elem sl a := hframe.elem_eq
    have hrep := rep_put (rep_expand h hlt hmax) (onPath_expand h newLevel hpath) hpos
      le_rfl key score (fun a ha => by rw [helem]; exact has a ha) (fun b hb => by rw [helem]; exact hbs b hb)
    have hput := linked_put (sl.expand newLevel) (SkipList.expandPath sl.level newLevel path) newLevel key score
      (SkipList.expandPath sl.level newLevel path 0).1
    rw [SkipList.insertAt, if_pos hlt, if_pos hlt, ← hfresh]
    refine ⟨hrep,rfl,fun a => ?_⟩
    rw [← helem]
    exact hput.elem_eq a
  have hrep := rep_put h hpath hpos (by omega) key score has hbs
  have hput := linked_put sl path newLevel key score (path 0).1
  rw [SkipList.insertAt, if_neg hlt, if_neg hlt]
  exact ⟨hrep,rfl,hput.elem_eq⟩

/-! ## The level of a new node -/

theorem levelLoop_bounds (flips : ℕ → Bool) (fuel level : ℕ) (hpos : 0 < level) (hmax : level ≤ maxLevel) :
    0 < levelLoop flips fuel level ∧ levelLoop flips fuel level ≤ maxLevel := by
  induction fuel generalizing level with
  | zero => exact ⟨hpos,hmax⟩
  | succ fuel ih =>
    rw [levelLoop]
    split
    · rename_i hgo
      exact ih (level+1) (Nat.succ_pos _) hgo.2
    · exact ⟨hpos,hmax⟩

theorem randomLevel_bounds (flips : ℕ → Bool) : 0 < randomLevel flips ∧ randomLevel flips ≤ maxLevel :=
  levelLoop_bounds flips maxLevel 1 Nat.one_pos (by decide)

/-! ## Searching a score and key -/

theorem precedes_iff (sl : SkipList S K) (score : S) (key : K) (a : ℕ) :
    sl.precedes score key a = true ↔ elem sl a < toLex (score,key) := by
  rw [SkipList.precedes, decide_eq_true_eq, elem, Prod.Lex.toLex_lt_toLex]

theorem search_spec {sl : SkipList S K} {xs : List ℕ} (h : Rep sl xs) (score : S) (key : K) :
    ∃ as bs path, xs = as++bs ∧ (∀ a ∈ as, elem sl a < toLex (score,key)) ∧
      (∀ b ∈ bs, toLex (score,key) ≤ elem sl b) ∧
        sl.search score key = some ((place sl as 0).1,path) ∧ OnPath sl as path := by
  obtain ⟨path,hway,hpath,hno⟩ := descend_to h (sl.precedes score key) (fun a b hlt hb => by
    rw [precedes_iff] at *
    exact hlt.trans hb)
  refine ⟨_,_,path,takeWhile_append_dropWhile.symm,fun a ha => ?_,fun b hb => ?_,hway,hpath⟩
  · exact (precedes_iff sl score key a).mp (mem_takeWhile_imp ha)
  · refine not_lt.mp (fun hlt => ?_)
    exact Bool.false_ne_true ((hno b hb).symm.trans ((precedes_iff sl score key b).mpr hlt))

theorem insert_spec {sl : SkipList S K} {xs : List ℕ} (h : Rep sl xs) (flips : ℕ → Bool) (score : S)
    (key : K) (hnew : ∀ a ∈ xs, elem sl a ≠ toLex (score,key)) :
    ∃ t ys, sl.insert flips score key = some (t,sl.fresh) ∧ Rep t ys ∧
      (∀ a, a ∈ ys ↔ a = sl.fresh ∨ a ∈ xs) ∧
        ∀ a, elem t a = if a = sl.fresh then toLex (score,key) else elem sl a := by
  obtain ⟨as,bs,path,rfl,has,hbs,hsearch,hpath⟩ := search_spec h score key
  obtain ⟨hpos,hmax⟩ := randomLevel_bounds flips
  obtain ⟨hrep,hn,helem⟩ := rep_insertAt h hpath hpos hmax key score has
    (fun b hb => lt_of_le_of_ne (hbs b hb) (hnew b (mem_append_right _ hb)).symm)
  refine ⟨_,as++sl.fresh::bs,?_,hrep,fun a => ?_,helem⟩
  · rw [SkipList.insert, hsearch]
    exact congrArg some (Prod.ext rfl hn)
  · rw [mem_append, mem_cons, mem_append]
    exact or_left_comm

end GoCommon.SkipListInsert
