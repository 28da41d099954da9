import Mathlib.Data.List.TakeWhile
import GoCommon.SkipLists

/-!
# The shape of a skip list

A skip list is given by the list of its nodes in order. On every level the links are
a chain through the nodes that are high enough, with the spans that the list gives.
The way down the levels finds on every level the last node before a place.
-/

set_option autoImplicit false

namespace GoCommon.SkipListShape
open List hiding Chain
open Function SpannedChain SkipLists

section Levels
variable {S K : Type}

def tall (sl : SkipList S K) (i a : ℕ) : Bool := decide (i < (sl.nodes a).height)

theorem tall_mono (sl : SkipList S K) (i a : ℕ) (h : tall sl (i+1) a = true) : tall sl i a = true := by
  rw [tall, decide_eq_true_eq] at *
  omega

def elem (sl : SkipList S K) (a : ℕ) : S ×ₗ K := toLex ((sl.nodes a).score,(sl.nodes a).key)

def Back (sl : SkipList S K) : Option ℕ → List ℕ → Prop
  | _, [] => True
  | p, x::xs => (sl.nodes x).backward = p ∧ Back sl (some x) xs

theorem back_append (sl : SkipList S K) (p : Option ℕ) (xs ys : List ℕ) :
    Back sl p (xs++ys) ↔ Back sl p xs ∧ Back sl (xs.getLast?.or p) ys := by
  induction xs generalizing p with
  | nil => exact (and_iff_right trivial).symm
  | cons x xs ih =>
    rw [cons_append, Back, Back, ih, and_assoc, List.getLast?_cons]
    cases xs.getLast? <;> rfl

variable {p : Option ℕ}

theorem Back.congr {sl t : SkipList S K} {xs : List ℕ} (h : Back sl p xs)
    (hsame : ∀ x ∈ xs, (t.nodes x).backward = (sl.nodes x).backward) : Back t p xs := by
  induction xs generalizing p with
  | nil => trivial
  | cons x xs ih =>
    exact ⟨(hsame x (mem_cons_self ..)).trans h.1,
      ih h.2 (fun y hy => hsame y (mem_cons_of_mem _ hy))⟩

theorem back_at {sl : SkipList S K} {xs : List ℕ} (h : Back sl p xs) (k a : ℕ)
    (ha : xs[k]? = some a) : (sl.nodes a).backward = if k = 0 then p else xs[k-1]? := by
  induction xs generalizing p k with
  | nil => cases ha
  | cons x xs ih => cases k with
    | zero =>
      obtain rfl : x = a := Option.some.inj ha
      exact h.1
    | succ k =>
      rw [ih h.2 k ha]
      cases k <;> rfl

structure Frame (sl t : SkipList S K) : Prop where
  key : ∀ a, (t.nodes a).key = (sl.nodes a).key
  score : ∀ a, (t.nodes a).score = (sl.nodes a).score
  backward : ∀ a, (t.nodes a).backward = (sl.nodes a).backward
  height : ∀ a, (t.nodes a).height = (sl.nodes a).height
  fresh : t.fresh = sl.fresh
  tail : t.tail = sl.tail
  length : t.length = sl.length
  level : t.level = sl.level

theorem Frame.refl (sl : SkipList S K) : Frame sl sl :=
  ⟨fun _ => rfl,fun _ => rfl,fun _ => rfl,fun _ => rfl,rfl,rfl,rfl,rfl⟩

theorem Frame.trans {sl t u : SkipList S K} (h : Frame sl t) (h' : Frame t u) : Frame sl u :=
  ⟨fun a => (h'.key a).trans (h.key a),fun a => (h'.score a).trans (h.score a),
    fun a => (h'.backward a).trans (h.backward a),fun a => (h'.height a).trans (h.height a),
    h'.fresh.trans h.fresh,h'.tail.trans h.tail,h'.length.trans h.length,h'.level.trans h.level⟩

theorem Frame.tall_eq {sl t : SkipList S K} (h : Frame sl t) (i a : ℕ) : tall t i a = tall sl i a := by
  rw [tall, tall, h.height]

theorem Frame.elem_eq {sl t : SkipList S K} (h : Frame sl t) (a : ℕ) : elem t a = elem sl a := by
  rw [elem, elem, h.key, h.score]

theorem nodes_setLevel {sl : SkipList S K} {a i b : ℕ} {f : Option ℕ} {s : ℤ} :
    (sl.setLevel a i f s).nodes b = if b = a then { sl.nodes a with
      levels := update (sl.nodes a).levels i ⟨f,s⟩ } else sl.nodes b := update_apply ..

theorem setLevel_frame (sl : SkipList S K) (a i : ℕ) (f : Option ℕ) (s : ℤ) :
    Frame sl (sl.setLevel a i f s) := by
  refine ⟨?_,?_,?_,?_,rfl,rfl,rfl,rfl⟩ <;> intro b <;> rw [nodes_setLevel] <;> split <;>
    simp_all

theorem links_setLevel (sl : SkipList S K) (a i j : ℕ) (f : Option ℕ) (s : ℤ) :
    (sl.setLevel a i f s).links j = if j = i then (sl.links i).set a f s else sl.links j := by
  have hlevel : ∀ b, ((sl.setLevel a i f s).nodes b).levels j =
      if b = a ∧ j = i then ⟨f,s⟩ else (sl.nodes b).levels j := by
    intro b
    rw [nodes_setLevel]
    by_cases hb : b = a
    · subst hb
      rw [if_pos rfl]
      change update (sl.nodes b).levels i ⟨f,s⟩ j = _
      rw [update_apply]
      simp
    · rw [if_neg hb, if_neg (fun hno => hb hno.1)]
  have hnext : ((sl.setLevel a i f s).links j).next =
      fun b => if b = a ∧ j = i then f else (sl.links j).next b := by
    funext b
    change (((sl.setLevel a i f s).nodes b).levels j).forward = _
    rw [hlevel]
    split <;> rfl
  have hspan : ((sl.setLevel a i f s).links j).span =
      fun b => if b = a ∧ j = i then s else (sl.links j).span b := by
    funext b
    change (((sl.setLevel a i f s).nodes b).levels j).span = _
    rw [hlevel]
    split <;> rfl
  have hwhole : (sl.setLevel a i f s).links j =
      ⟨((sl.setLevel a i f s).links j).next,((sl.setLevel a i f s).links j).span⟩ := rfl
  rw [hwhole, hnext, hspan]
  by_cases hj : j = i
  · subst hj
    simp only [and_true, if_true]
    congr 1 <;> funext b <;> rw [update_apply]
  · simp only [hj, and_false, if_false]

theorem forLevels_spec (sl : SkipList S K) (body : ℕ → SkipList S K → SkipList S K)
    (f : ℕ → Links ℕ → Links ℕ) (hbody : ∀ i t, Frame sl t → Frame t (body i t) ∧
      ∀ j, (body i t).links j = if j = i then f i (t.links i) else t.links j) (lo hi : ℕ) :
    Frame sl (sl.forLevels lo hi body) ∧ ∀ j, (sl.forLevels lo hi body).links j =
      if lo ≤ j ∧ j < hi then f j (sl.links j) else sl.links j := by
  have hloop : ∀ (k lo : ℕ) (t : SkipList S K), Frame sl t →
      Frame sl ((List.range' lo k).foldl (fun t i => body i t) t) ∧
        ∀ j, ((List.range' lo k).foldl (fun t i => body i t) t).links j =
          if lo ≤ j ∧ j < lo+k then f j (t.links j) else t.links j := by
    intro k
    induction k with
    | zero =>
      intro lo t ht
      exact ⟨ht,fun j => (if_neg (by omega)).symm⟩
    | succ k ih =>
      intro lo t ht
      obtain ⟨hframe,hlinks⟩ := hbody lo t ht
      obtain ⟨hframe',hlinks'⟩ := ih (lo+1) (body lo t) (ht.trans hframe)
      rw [range'_succ, foldl_cons]
      refine ⟨hframe',fun j => ?_⟩
      rw [hlinks', hlinks]
      by_cases hj : j = lo
      · subst hj
        rw [if_neg (by omega), if_pos rfl, if_pos (by omega)]
      rw [if_neg hj]
      by_cases hin : lo+1 ≤ j ∧ j < lo+1+k
      · rw [if_pos hin, if_pos (by omega)]
      · rw [if_neg hin, if_neg (by omega)]
  obtain ⟨hframe,hlinks⟩ := hloop (hi-lo) lo sl (Frame.refl sl)
  refine ⟨hframe,fun j => (hlinks j).trans ?_⟩
  by_cases hin : lo ≤ j ∧ j < hi
  · rw [if_pos hin, if_pos (by omega)]
  · rw [if_neg hin, if_neg (by omega)]

def place (sl : SkipList S K) (as : List ℕ) (i : ℕ) : ℕ × ℤ :=
  ((stop (tall sl i) 0 [] as).1,as.length-(stop (tall sl i) 0 [] as).2.length)

def OnPath (sl : SkipList S K) (as : List ℕ) (path : Path) : Prop :=
  ∀ i < sl.level, path i = place sl as i

theorem nodes_setBackward {sl : SkipList S K} {a b : ℕ} :
    (sl.setBackward a p).nodes b = if b = a then { sl.nodes a with backward := p } else sl.nodes b :=
  update_apply ..

theorem levels_setBackward (sl : SkipList S K) (a b : ℕ) (p : Option ℕ) :
    ((sl.setBackward a p).nodes b).levels = (sl.nodes b).levels := by
  rw [nodes_setBackward]
  split
  · rename_i h
    rw [h]
  · rfl

theorem backward_setBackward {sl : SkipList S K} {a b : ℕ} :
    ((sl.setBackward a p).nodes b).backward = if b = a then p else (sl.nodes b).backward := by
  rw [nodes_setBackward]
  split <;> rfl

structure Relinked (sl t : SkipList S K) : Prop where
  key : ∀ a, (t.nodes a).key = (sl.nodes a).key
  score : ∀ a, (t.nodes a).score = (sl.nodes a).score
  height : ∀ a, (t.nodes a).height = (sl.nodes a).height
  levels : ∀ a, (t.nodes a).levels = (sl.nodes a).levels
  fresh : t.fresh = sl.fresh
  length : t.length = sl.length
  level : t.level = sl.level

theorem setBackward_relinked (sl : SkipList S K) (a : ℕ) (p : Option ℕ) :
    Relinked sl (sl.setBackward a p) := by
  refine ⟨?_,?_,?_,fun b => levels_setBackward sl a b p,rfl,rfl,rfl⟩ <;> intro b <;>
    rw [nodes_setBackward] <;> split <;> simp_all

theorem Relinked.trans {sl t u : SkipList S K} (h : Relinked sl t) (h' : Relinked t u) : Relinked sl u :=
  ⟨fun a => (h'.key a).trans (h.key a),fun a => (h'.score a).trans (h.score a),
    fun a => (h'.height a).trans (h.height a),fun a => (h'.levels a).trans (h.levels a),
    h'.fresh.trans h.fresh,h'.length.trans h.length,h'.level.trans h.level⟩

theorem links_congr {sl t : SkipList S K} (h : ∀ a, (t.nodes a).levels = (sl.nodes a).levels) (i : ℕ) :
    t.links i = sl.links i := by
  have hnext : (t.links i).next = (sl.links i).next :=
    funext (fun a => congrArg (fun levels => (levels i).forward) (h a))
  have hspan : (t.links i).span = (sl.links i).span :=
    funext (fun a => congrArg (fun levels => (levels i).span) (h a))
  exact congrArg₂ Links.mk hnext hspan

theorem Relinked.links_eq {sl t : SkipList S K} (h : Relinked sl t) (i : ℕ) : t.links i = sl.links i :=
  links_congr h.levels i

theorem Relinked.tall_eq {sl t : SkipList S K} (h : Relinked sl t) (i a : ℕ) : tall t i a = tall sl i a := by
  rw [tall, tall, h.height]

theorem Relinked.elem_eq {sl t : SkipList S K} (h : Relinked sl t) (a : ℕ) : elem t a = elem sl a := by
  rw [elem, elem, h.key, h.score]

def pointBack (f p : Option ℕ) (sl : SkipList S K) : SkipList S K := match f with
  | some f => sl.setBackward f p
  | none => { sl with tail := p }

theorem pointBack_spec (f p : Option ℕ) (sl : SkipList S K) : Relinked sl (pointBack f p sl) ∧
    (∀ a, ((pointBack f p sl).nodes a).backward = if f = some a then p else (sl.nodes a).backward) ∧
      (pointBack f p sl).tail = if f = none then p else sl.tail := by
  cases f with
  | none => exact ⟨⟨fun _ => rfl,fun _ => rfl,fun _ => rfl,fun _ => rfl,rfl,rfl,rfl⟩,fun _ => rfl,rfl⟩
  | some f =>
    refine ⟨setBackward_relinked sl f p,fun a => ?_,rfl⟩
    rw [pointBack, backward_setBackward]
    simp only [Option.some.injEq, eq_comm]

end Levels

theorem dropWhile_false {A : Type} {R : A → A → Prop} {p : A → Bool} {xs : List A} (h : xs.Pairwise R)
    (hdown : ∀ a b, R a b → p b = true → p a = true) : ∀ b ∈ xs.dropWhile p, p b = false := by
  induction xs with
  | nil => intro b hb; cases hb
  | cons x xs ih =>
    obtain ⟨hx,hxs⟩ := pairwise_cons.mp h
    rw [dropWhile_cons]
    split
    · exact ih hxs
    rename_i hno
    intro b hb
    rcases mem_cons.mp hb with rfl | hb
    · exact Bool.eq_false_iff.mpr hno
    · exact Bool.eq_false_iff.mpr (fun hb' => hno (hdown x b (hx b hb) hb'))

variable {S K : Type} [LinearOrder S] [LinearOrder K]

theorem score_le_of_lt {sl : SkipList S K} {a b : ℕ} (h : elem sl a < elem sl b) :
    (sl.nodes a).score ≤ (sl.nodes b).score := by
  rw [elem, elem, Prod.Lex.toLex_lt_toLex] at h
  rcases h with h | h
  · exact le_of_lt h
  · exact le_of_eq h.1

structure Rep (sl : SkipList S K) (xs : List ℕ) : Prop where
  sorted : xs.Pairwise (fun a b => elem sl a < elem sl b)
  addrs : ∀ a ∈ xs, 0 < a ∧ a < sl.fresh
  fresh : 0 < sl.fresh
  heights : ∀ a ∈ xs, 0 < (sl.nodes a).height ∧ (sl.nodes a).height ≤ sl.level
  level : 0 < sl.level ∧ sl.level ≤ maxLevel
  chains : ∀ i, Chain (sl.links i) (tall sl i) 0 0 xs
  backs : Back sl none xs
  tail : sl.tail = xs.getLast?
  length : sl.length = xs.length

namespace Rep
variable {sl : SkipList S K} {xs : List ℕ}

theorem nodup (h : Rep sl xs) : (0::xs).Nodup := by
  refine nodup_cons.mpr ⟨fun hmem => absurd (h.addrs 0 hmem).1 (lt_irrefl 0),?_⟩
  refine h.sorted.imp ?_
  rintro a b hlt rfl
  exact absurd hlt (lt_irrefl _)

theorem nodup_elems (h : Rep sl xs) : (xs.map (elem sl)).Nodup :=
  pairwise_map.mpr (h.sorted.imp (fun hlt => hlt.ne))

theorem eq_of_elem (h : Rep sl xs) {a b : ℕ} (ha : a ∈ xs) (hb : b ∈ xs) (heq : elem sl a = elem sl b) :
    a = b := inj_on_of_nodup_map h.nodup_elems ha hb heq

theorem length_lt_fresh (h : Rep sl xs) : xs.length < sl.fresh := by
  have hsub : (0::xs).toFinset ⊆ Finset.range sl.fresh := by
    intro a ha
    rw [Finset.mem_range]
    rcases mem_cons.mp (mem_toFinset.mp ha) with rfl | ha
    · exact h.fresh
    · exact (h.addrs a ha).2
  have hcard := Finset.card_le_card hsub
  rw [toFinset_card_of_nodup h.nodup, Finset.card_range, length_cons] at hcard
  omega

theorem short (h : Rep sl xs) (i : ℕ) (hi : sl.level ≤ i) : ∀ a ∈ xs, tall sl i a = false := by
  intro a ha
  have := (h.heights a ha).2
  rw [tall, decide_eq_false_iff_not]
  omega

theorem top {as bs : List ℕ} (h : Rep sl (as++bs)) : place sl as sl.level = (0,0) := by
  rw [place, stop_of_short 0 [] as (fun a ha => h.short sl.level le_rfl a (mem_append_left _ ha))]
  simp

theorem lowest (h : Rep sl xs) : ∀ a ∈ xs, tall sl 0 a = true := by
  intro a ha
  rw [tall, decide_eq_true_eq]
  exact (h.heights a ha).1

end Rep

/-! ## The way down -/

theorem walk_place {sl : SkipList S K} {as bs : List ℕ} (h : Rep sl (as++bs)) (go : ℕ → ℤ → Bool)
    (hgo : ∀ (k : ℕ) x, as[k]? = some x → go x (k+1) = true)
    (hno : ∀ (k : ℕ) y, bs[k]? = some y → go y (as.length+k+1) = false) (i : ℕ) :
    walk (sl.links i) go sl.fresh (place sl as (i+1)).1 (place sl as (i+1)).2 = some (place sl as i) := by
  obtain ⟨front,hfront⟩ := @stop_suffix _ (tall sl (i+1)) 0 [] as
  rw [nil_append] at hfront
  have hlen : as.length = front.length+(stop (tall sl (i+1)) 0 [] as).2.length := by
    rw [← length_append, ← hfront]
  have hfuel : as.length < sl.fresh := by
    have := h.length_lt_fresh
    rw [length_append] at this
    omega
  have hchain := @Chain.descend _ (sl.links i) 0 _ _ (tall_mono sl i) [] as bs (h.chains i)
  have hwalk := walk_stops go sl.fresh (place sl as (i+1)).1 (place sl as (i+1)).2 []
    (stop (tall sl (i+1)) 0 [] as).2 bs hchain ?_ ?_ (by omega)
  · have hstop := stop_descend (tall_mono sl i) 0 [] as
    refine hwalk.trans (congrArg some ?_)
    rw [place, place, ← hstop]
    simp
  · intro k x hx
    have hk : as[front.length+k]? = some x := by
      rw [hfront, List.getElem?_append_right (by omega), Nat.add_sub_cancel_left]
      exact hx
    rw [← hgo _ x hk]
    refine congrArg (go x) ?_
    simp only [place, hlen, length_nil]
    push_cast
    ring
  intro k y hy
  rw [← hno k y hy]
  refine congrArg (go y) ?_
  simp only [place, length_nil, Nat.cast_zero]
  ring

theorem descend_spec {sl : SkipList S K} {as bs : List ℕ} (h : Rep sl (as++bs)) (go : ℕ → ℤ → Bool)
    (hgo : ∀ (k : ℕ) x, as[k]? = some x → go x (k+1) = true)
    (hno : ∀ (k : ℕ) y, bs[k]? = some y → go y (as.length+k+1) = false) (i : ℕ) (path : Path) :
    ∃ path', sl.descend go i (place sl as i).1 (place sl as i).2 path = some ((place sl as 0).1,path') ∧
      ∀ j, path' j = if j < i then place sl as j else path j := by
  induction i generalizing path with
  | zero => exact ⟨path,rfl,fun j => (if_neg (Nat.not_lt_zero j)).symm⟩
  | succ i ih =>
    obtain ⟨path',hdown,hpath⟩ := ih (update path i (place sl as i))
    refine ⟨path',?_,fun j => ?_⟩
    · rw [SkipList.descend, walk_place h go hgo hno i]
      exact hdown
    rw [hpath, update_apply]
    by_cases hj : j = i
    · subst hj
      rw [if_neg (lt_irrefl j), if_pos rfl, if_pos (Nat.lt_succ_self j)]
    rw [if_neg hj]
    by_cases hlt : j < i
    · rw [if_pos hlt, if_pos (by omega)]
    · rw [if_neg hlt, if_neg (by omega)]

theorem descend_to {sl : SkipList S K} {xs : List ℕ} (h : Rep sl xs) (go : ℕ → Bool)
    (hdown : ∀ a b, elem sl a < elem sl b → go b = true → go a = true) :
    ∃ path, sl.descend (fun a _ => go a) sl.level 0 0 (fun _ => (0,0)) =
      some ((place sl (xs.takeWhile go) 0).1,path) ∧ OnPath sl (xs.takeWhile go) path ∧
        ∀ b ∈ xs.dropWhile go, go b = false := by
  have hsplit := (@List.takeWhile_append_dropWhile _ go xs).symm
  have hno : ∀ b ∈ xs.dropWhile go, go b = false := dropWhile_false h.sorted hdown
  rw [hsplit] at h
  obtain ⟨path,hway,hpath⟩ := descend_spec h (fun a _ => go a)
    (fun k x hx => mem_takeWhile_imp (mem_of_getElem? hx))
    (fun k y hy => hno y (mem_of_getElem? hy)) sl.level (fun _ => (0,0))
  rw [h.top] at hway
  exact ⟨path,hway,fun i hi => (hpath i).trans (if_pos hi),hno⟩

/-! ## Changes that keep the nodes -/

theorem Rep.frame {sl t : SkipList S K} {xs : List ℕ} (h : Rep sl xs) (hf : Frame sl t)
    (hchains : ∀ i, Chain (t.links i) (tall sl i) 0 0 xs) : Rep t xs where
  sorted := h.sorted.imp (fun {a b} hlt => by rw [hf.elem_eq, hf.elem_eq]; exact hlt)
  addrs := by rw [hf.fresh]; exact h.addrs
  fresh := by rw [hf.fresh]; exact h.fresh
  heights := fun a ha => by rw [hf.height, hf.level]; exact h.heights a ha
  level := by rw [hf.level]; exact h.level
  chains := fun i => (hchains i).congr_tall (fun a _ => hf.tall_eq i a)
  backs := h.backs.congr (fun a _ => hf.backward a)
  tail := hf.tail.trans h.tail
  length := hf.length.trans h.length

theorem Rep.pointer {sl : SkipList S K} {as bs : List ℕ} (h : Rep sl (as++bs)) :
    (if (place sl as 0).1 = 0 then none else some (place sl as 0).1) = as.getLast? := by
  have hall : ∀ a ∈ as, tall sl 0 a = true := fun a ha => h.lowest a (mem_append_left _ ha)
  rw [place, stop_of_tall 0 as hall]
  cases hlast : as.getLast? with
  | none => rfl
  | some a =>
    have ha := (h.addrs a (mem_append_left _ (mem_of_getLast? hlast))).1
    exact if_neg (by change ¬a = 0; omega)

theorem Rep.follower {sl : SkipList S K} {as bs : List ℕ} (h : Rep sl (as++bs)) :
    sl.forward (place sl as 0).1 0 = bs.head? := by
  have hchain := ((chain_append 0 [] as bs).mp (h.chains 0)).2
  cases bs with
  | nil => exact hchain
  | cons b bs =>
    rw [Chain, if_pos (h.lowest b (mem_append_right _ (mem_cons_self ..)))] at hchain
    exact hchain.1

theorem Rep.neighbours {sl : SkipList S K} {as bs : List ℕ} {y : ℕ} (h : Rep sl (as++y::bs)) :
    (sl.nodes y).backward = as.getLast? ∧ sl.forward y 0 = bs.head? := by
  constructor
  · rw [((back_append sl none as (y::bs)).mp h.backs).2.1, Option.or_none]
  have hrep : Rep sl ((as++[y])++bs) := by rw [append_assoc]; exact h
  have hplace : (place sl (as++[y]) 0).1 = y := by
    rw [place, stop_of_tall 0 (as++[y]) (fun a ha => hrep.lowest a (mem_append_left _ ha))]
    simp
  rw [← hrep.follower, hplace]

end GoCommon.SkipListShape
