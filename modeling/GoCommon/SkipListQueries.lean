import GoCommon.SkipListShape

/-!
# Queries of the skip list

Ranks are found by the spans, ranges by following the lowest level from the node at
their start. Positions below zero count from the end.
-/

set_option autoImplicit false

namespace GoCommon.SkipListQueries
open List hiding Chain elem
open SpannedChain SkipLists SkipListShape

def position (n i : ℤ) : ℤ := if i < 0 then n+i else i

def segment {A : Type} (xs : List A) (start stop : ℤ) : List A :=
  (xs.take (position xs.length stop+1).toNat).drop (position xs.length start).toNat

theorem segment_map {A B : Type} {f : A → B} {xs : List A} {start stop : ℤ} :
    (segment xs start stop).map f = segment (xs.map f) start stop := by
  rw [segment, segment, map_drop, map_take, length_map]

theorem takeWhile_eq_filter {A : Type} {R : A → A → Prop} {p : A → Bool} {xs : List A} (h : xs.Pairwise R)
    (hdown : ∀ a b, R a b → p b = true → p a = true) : xs.takeWhile p = xs.filter p := by
  have hno := dropWhile_false h hdown
  nth_rewrite 2 [← @List.takeWhile_append_dropWhile _ p xs]
  rw [filter_append, filter_eq_self.mpr (fun a ha => mem_takeWhile_imp ha),
    filter_eq_nil_iff.mpr (fun a ha => Bool.eq_false_iff.mp (hno a ha)), append_nil]

variable {S K : Type} [LinearOrder S] [LinearOrder K]

/-! ## Ranks -/

variable {sl : SkipList S K} {xs : List ℕ} (sr : SkipList.ScoreRange S)

theorem rankLoop_spec {as bs : List ℕ} (h : Rep sl (as++bs)) (hne : as ≠ []) (i : ℕ) :
    sl.rankLoop as.length (i+1) (place sl as (i+1)).1 (place sl as (i+1)).2 = some as.getLast? := by
  have hstep := walk_place h (fun _ r => decide (r ≤ (as.length : ℤ)))
    (fun k x hx => by
      have := (List.getElem?_eq_some_iff.mp hx).1
      rw [decide_eq_true_eq]
      omega)
    (fun k y hy => by
      rw [decide_eq_false_iff_not]
      omega)
  -- the rank of a place is the length exactly where nothing is passed
  have hlast : ∀ i, (place sl as i).2 = as.length → some (place sl as i).1 = as.getLast? := by
    intro i hi
    rw [place] at hi ⊢
    rw [stop_last 0 [] as (eq_nil_of_length_eq_zero (by omega)),
      List.getLast?_eq_some_getLast hne]
    rfl
  induction i with
  | zero =>
    have hzero : (place sl as 0).2 = as.length := by
      rw [place, stop_of_tall 0 as (fun a ha => h.lowest a (mem_append_left _ ha))]
      simp
    rw [SkipList.rankLoop, hstep 0]
    exact (if_pos hzero).trans (congrArg some (hlast 0 hzero))
  | succ i ih =>
    rw [SkipList.rankLoop, hstep (i+1)]
    by_cases hi : (place sl as (i+1)).2 = as.length
    · exact (if_pos hi).trans (congrArg some (hlast (i+1) hi))
    · exact (if_neg hi).trans ih

theorem getByRank_spec (h : Rep sl xs) (rank : ℤ) :
    sl.getByRank rank = some (if rank ≤ 0 then none else xs[(rank-1).toNat]?) := by
  rw [SkipList.getByRank, h.length]
  by_cases hrank : rank ≤ 0
  · rw [if_pos (Or.inl hrank), if_pos hrank]
  rw [if_neg hrank]
  by_cases hout : (xs.length : ℤ) < rank
  · rw [if_pos (Or.inr hout), List.getElem?_eq_none (by omega)]
  rw [if_neg (by tauto)]
  obtain ⟨k,rfl⟩ : ∃ k : ℕ, rank = k+1 := ⟨(rank-1).toNat,by omega⟩
  have hlen : (xs.take (k+1)).length = k+1 := length_take_of_le (by omega)
  have hrep : Rep sl (xs.take (k+1)++xs.drop (k+1)) := by
    rw [take_append_drop]
    exact h
  obtain ⟨l,hl⟩ := Nat.exists_eq_succ_of_ne_zero h.level.1.ne'
  have hloop := rankLoop_spec hrep (ne_nil_of_length_pos (by omega)) l
  rw [show l+1 = sl.level from hl.symm, hrep.top, hlen] at hloop
  have hlast : (xs.take (k+1)).getLast? = xs[k]? := by
    rw [List.getLast?_eq_getElem?, hlen, Nat.add_sub_cancel, List.getElem?_take_of_lt (Nat.lt_succ_self k)]
  push_cast at hloop
  rw [hloop, hlast, show (k+1-1 : ℤ).toNat = k by omega]

/-! ## Ranks of elements -/

theorem reaches_iff (sl : SkipList S K) (score : S) (key : K) (a : ℕ) :
    sl.reaches score key a = true ↔ elem sl a ≤ toLex (score,key) := by
  rw [SkipList.reaches, decide_eq_true_eq, elem, Prod.Lex.toLex_le_toLex]

def Ahead (sl : SkipList S K) (e : S ×ₗ K) : Prop :=
  ∃ f, sl.forward 0 (sl.level-1) = some f ∧ elem sl f ≤ e

section Places
variable {sl : SkipList S K} {as bs : List ℕ}

theorem head_notMem (h : Rep sl (as++bs)) : 0 ∉ as :=
  fun hmem => absurd (h.addrs 0 (mem_append_left _ hmem)).1 (lt_irrefl 0)

theorem place_head (h : Rep sl (as++bs)) {i : ℕ} (hi : (place sl as i).1 = 0) :
    (place sl as i).2 = 0 ∧ ∀ a ∈ as, tall sl i a = false := by
  have hshort := (stop_start (head_notMem h)).mp hi
  rw [place, stop_of_short 0 [] as hshort]
  exact ⟨sub_self _,hshort⟩

theorem place_mem (h : Rep sl (as++bs)) {i : ℕ} {a : ℕ} (ha : a ∈ as) (htall : tall sl i a = true) :
    (place sl as i).1 ∈ as := by
  refine (stop_mem 0 [] as).resolve_left fun hstop => ?_
  exact Bool.false_ne_true (((stop_start (head_notMem h)).mp hstop a ha).symm.trans htall)

theorem place_last {y : ℕ} (h : Rep sl ((as++[y])++bs)) {i : ℕ} (hi : (place sl (as++[y]) i).1 = y) :
    (place sl (as++[y]) i).2 = as.length+1 := by
  have hy : tall sl i y = true := by
    by_contra hshort
    rw [place, stop_append, stop, if_neg hshort] at hi
    have hnodup : (0::(as++[y])).Nodup :=
      h.nodup.sublist (List.Sublist.cons_cons 0 (sublist_append_left _ bs))
    exact stop_ne hnodup (mem_singleton_self y) hi.symm
  rw [place, stop_append, stop, if_pos hy, stop]
  simp

variable {score : S} {key : K} (h : Rep sl (as++bs)) (has : ∀ a ∈ as, elem sl a ≤ toLex (score,key))
  (hbs : ∀ b ∈ bs, toLex (score,key) < elem sl b)
include h has hbs

theorem getRankLoop_level (i : ℕ) :
    sl.getRankLoop score key (i+1) (place sl as (i+1)).1 (place sl as (i+1)).2 =
      if elem sl (place sl as i).1 = toLex (score,key) then some (place sl as i).2
      else sl.getRankLoop score key i (place sl as i).1 (place sl as i).2 := by
  rw [SkipList.getRankLoop, walk_place h (fun a _ => sl.reaches score key a)
    (fun k x hx => (reaches_iff sl score key x).mpr (has x (mem_of_getElem? hx)))
    (fun k y hy => Bool.eq_false_iff.mpr fun hreach =>
      absurd ((reaches_iff sl score key y).mp hreach) (not_le.mpr (hbs y (mem_of_getElem? hy))))]
  refine if_congr ?_ rfl rfl
  rw [elem, toLex_inj, Prod.mk.injEq]
  exact and_comm

theorem getRankLoop_missing (hno : ∀ a ∈ as, elem sl a ≠ toLex (score,key)) (i : ℕ) :
    sl.getRankLoop score key i (place sl as i).1 (place sl as i).2 = some 0 := by
  induction i with
  | zero => rfl
  | succ i ih =>
    rw [getRankLoop_level h has hbs]
    split
    · rename_i heq
      rcases stop_mem 0 [] as with hstop | hmem
      · exact congrArg some (place_head h hstop).1
      · exact absurd heq (hno _ hmem)
    · exact ih

end Places

section Found
variable {sl : SkipList S K} {as bs : List ℕ} {y : ℕ} {score : S} {key : K} (h : Rep sl ((as++[y])++bs))
  (has : ∀ a ∈ as++[y], elem sl a ≤ toLex (score,key)) (hbs : ∀ b ∈ bs, toLex (score,key) < elem sl b)
  (hy : elem sl y = toLex (score,key))
include h has hbs

theorem getRankLoop_masked (hhead : elem sl 0 = toLex (score,key)) (i : ℕ)
    (hshort : ∀ a ∈ as++[y], tall sl i a = false) :
    sl.getRankLoop score key (i+1) (place sl (as++[y]) (i+1)).1 (place sl (as++[y]) (i+1)).2 = some 0 := by
  have hstop : (place sl (as++[y]) i).1 = 0 := (stop_start (head_notMem h)).mpr hshort
  rw [getRankLoop_level h has hbs, hstop, if_pos hhead, (place_head h hstop).1]

include hy

theorem getRankLoop_found (i : ℕ) (hclear : elem sl 0 = toLex (score,key) →
      ∃ a ∈ as++[y], tall sl i a = true) :
    sl.getRankLoop score key (i+1) (place sl (as++[y]) (i+1)).1 (place sl (as++[y]) (i+1)).2 =
      some (as.length+1 : ℤ) := by
  have hmem : y ∈ as++[y] := mem_append_right _ (mem_singleton_self y)
  induction i with
  | zero =>
    have hlast : (place sl (as++[y]) 0).1 = y := by
      rw [place, stop_of_tall 0 (as++[y]) (fun a ha => h.lowest a (mem_append_left _ ha))]
      simp
    rw [getRankLoop_level h has hbs, if_pos (by rw [hlast, hy]), place_last h hlast]
  | succ i ih =>
    rw [getRankLoop_level h has hbs]
    split
    · rename_i heq
      have hin : (place sl (as++[y]) (i+1)).1 ∈ as++[y] := by
        refine (stop_mem 0 [] (as++[y])).resolve_left fun hstop => ?_
        obtain ⟨a,ha,htall⟩ := hclear ((congrArg (elem sl) hstop).symm.trans heq)
        exact head_notMem h (hstop ▸ place_mem h ha htall)
      have hlast := h.eq_of_elem (mem_append_left _ hin) (mem_append_left _ hmem)
        (heq.trans hy.symm)
      rw [place_last h hlast]
    · refine ih fun hhead => ?_
      obtain ⟨a,ha,htall⟩ := hclear hhead
      exact ⟨a,ha,tall_mono sl i a htall⟩

end Found

theorem ahead_iff {as bs : List ℕ} {e : S ×ₗ K} (h : Rep sl (as++bs))
    (has : ∀ a ∈ as, elem sl a ≤ e) (hbs : ∀ b ∈ bs, e < elem sl b) :
    Ahead sl e ↔ ∃ a ∈ as, tall sl (sl.level-1) a = true := by
  have hnext : sl.forward 0 (sl.level-1) = (as++bs).find? (tall sl (sl.level-1)) :=
    (h.chains (sl.level-1)).next_eq
  constructor
  · rintro ⟨f,hf,hle⟩
    rw [hnext] at hf
    rcases mem_append.mp (mem_of_find?_eq_some hf) with hmem | hmem
    · exact ⟨f,hmem,List.find?_some hf⟩
    · exact absurd hle (not_le.mpr (hbs f hmem))
  rintro ⟨a,ha,htall⟩
  obtain ⟨f,hf⟩ := Option.isSome_iff_exists.mp (List.find?_isSome.mpr ⟨a,ha,htall⟩)
  refine ⟨f,?_,has f (mem_of_find?_eq_some hf)⟩
  rw [hnext, List.find?_append, hf, Option.some_or]

theorem getRank_missing (h : Rep sl xs) {score : S} {key : K}
    (hno : toLex (score,key) ∉ xs.map (elem sl)) : sl.getRank score key = some 0 := by
  have hbehind : ∀ b ∈ xs.dropWhile (sl.reaches score key), sl.reaches score key b = false :=
    dropWhile_false h.sorted fun a b hlt hb =>
      (reaches_iff sl score key a).mpr (hlt.le.trans ((reaches_iff sl score key b).mp hb))
  have hrep : Rep sl (xs.takeWhile (sl.reaches score key)++xs.dropWhile (sl.reaches score key)) := by
    rw [takeWhile_append_dropWhile]
    exact h
  have hloop := getRankLoop_missing hrep
    (fun a ha => (reaches_iff sl score key a).mp (mem_takeWhile_imp ha))
    (fun b hb => not_le.mp fun hle =>
      Bool.false_ne_true ((hbehind b hb).symm.trans ((reaches_iff sl score key b).mpr hle)))
    (fun a ha heq => hno (heq ▸ mem_map_of_mem ((takeWhile_sublist _).subset ha))) sl.level
  rw [hrep.top] at hloop
  exact hloop

theorem getRank_found {as bs : List ℕ} {y : ℕ} (h : Rep sl (as++y::bs)) :
    (elem sl 0 = elem sl y ∧ ¬Ahead sl (elem sl y) →
      sl.getRank (sl.nodes y).score (sl.nodes y).key = some 0) ∧
      ((elem sl 0 = elem sl y → Ahead sl (elem sl y)) →
        sl.getRank (sl.nodes y).score (sl.nodes y).key = some (as.length+1 : ℤ)) := by
  have hrep : Rep sl ((as++[y])++bs) := by
    rw [append_assoc]
    exact h
  obtain ⟨_,hfrom,hbefore⟩ := pairwise_append.mp h.sorted
  have has : ∀ a ∈ as++[y], elem sl a ≤ elem sl y := by
    intro a ha
    rcases mem_append.mp ha with ha | ha
    · exact (hbefore a ha y (mem_cons_self ..)).le
    · rw [mem_singleton.mp ha]
  have hbs : ∀ b ∈ bs, elem sl y < elem sl b := (pairwise_cons.mp hfrom).1
  have hahead := ahead_iff hrep has hbs
  obtain ⟨l,hl⟩ : ∃ l, sl.level = l+1 := Nat.exists_eq_succ_of_ne_zero h.level.1.ne'
  have htop : place sl (as++[y]) (l+1) = (0,0) := hl ▸ hrep.top
  rw [hl] at hahead
  rw [SkipList.getRank, hl]
  constructor
  · rintro ⟨hhead,hno⟩
    have hmasked := getRankLoop_masked hrep has hbs hhead l fun a ha =>
      Bool.eq_false_iff.mpr fun htall => hno (hahead.mpr ⟨a,ha,htall⟩)
    rwa [htop] at hmasked
  · intro hclear
    have hfound := getRankLoop_found hrep has hbs rfl l fun hhead => hahead.mp (hclear hhead)
    rwa [htop] at hfound

def placeIn (e : S ×ₗ K) (es : List (S ×ₗ K)) : ℤ := if e ∈ es then es.idxOf e+1 else 0

theorem placeIn_pos {e : S ×ₗ K} {es : List (S ×ₗ K)} (h : e ∈ es) : 0 < placeIn e es := by
  rw [placeIn, if_pos h]
  omega

def Clear (sl : SkipList S K) (e : S ×ₗ K) (es : List (S ×ₗ K)) : Prop :=
  e ∈ es → elem sl 0 = e → Ahead sl e

theorem getRank_spec (h : Rep sl xs) (score : S) (key : K) :
    Clear sl (toLex (score,key)) (xs.map (elem sl)) ∧
        sl.getRank score key = some (placeIn (toLex (score,key)) (xs.map (elem sl))) ∨
      ¬Clear sl (toLex (score,key)) (xs.map (elem sl)) ∧ sl.getRank score key = some 0 := by
  by_cases hmem : toLex (score,key) ∈ xs.map (elem sl)
  · obtain ⟨y,hy,heq⟩ := mem_map.mp hmem
    obtain ⟨as,bs,rfl⟩ := append_of_mem hy
    obtain ⟨hscore,hkey⟩ := Prod.mk.inj (toLex_inj.mp heq)
    obtain ⟨hmasked,hfound⟩ := getRank_found h
    rw [hscore, hkey, heq] at hmasked hfound
    by_cases hclear : elem sl 0 = toLex (score,key) → Ahead sl (toLex (score,key))
    · have hnodup := h.nodup_elems
      rw [map_append, map_cons, heq] at hnodup ⊢
      have hnot : toLex (score,key) ∉ as.map (elem sl) := fun hin =>
        (nodup_append.mp hnodup).2.2 _ hin _ (mem_cons_self ..) rfl
      refine Or.inl ⟨fun _ => hclear,?_⟩
      rw [hfound hclear, placeIn, if_pos (mem_append_right _ (mem_cons_self ..)),
        idxOf_append, if_neg hnot, idxOf_cons_self, length_map, Nat.zero_add]
    · exact Or.inr ⟨fun hall => hclear (hall hmem),hmasked (Classical.not_imp.mp hclear)⟩
  · refine Or.inl ⟨fun hin => absurd hin hmem,?_⟩
    rw [getRank_missing h hmem, placeIn, if_neg hmem]

/-! ## Ranges of positions -/

theorem takeNodes_spec (k : ℕ) (as bs : List ℕ) (h : Rep sl (as++bs)) :
    sl.takeNodes k bs.head? = bs.take k := by
  induction k generalizing as bs with
  | zero => rw [SkipList.takeNodes, take_zero]
  | succ k ih => cases bs with
    | nil => rfl
    | cons b bs =>
      rw [List.head?_cons, SkipList.takeNodes, h.neighbours.2]
      exact congrArg (b::·) (ih (as++[b]) bs (by rw [append_assoc]; exact h))

theorem range_spec (h : Rep sl xs) (start stop : ℤ) :
    sl.range start stop = some (segment xs start stop) := by
  have hrange : sl.range start stop =
      if (if sl.length ≤ position sl.length stop then sl.length-1 else position sl.length stop) <
        (if position sl.length start < 0 then 0 else position sl.length start) then some []
      else (sl.getByRank ((if position sl.length start < 0 then 0 else position sl.length start)+1)).bind
        (fun node => some (sl.takeNodes ((if sl.length ≤ position sl.length stop then sl.length-1
          else position sl.length stop)-(if position sl.length start < 0 then 0
            else position sl.length start)+1).toNat node)) := rfl
  rw [hrange, segment, h.length]
  generalize position xs.length start = p
  generalize position xs.length stop = q
  have hstart : (if p < 0 then 0 else p) = (p.toNat : ℤ) := by
    split <;> omega
  rw [hstart]
  generalize p.toNat = m
  generalize hend : (if (xs.length : ℤ) ≤ q then (xs.length : ℤ)-1 else q) = e
  have hcases : (xs.length : ℤ) ≤ q ∧ e = (xs.length : ℤ)-1 ∨ q < xs.length ∧ e = q := by
    split at hend <;> omega
  by_cases hempty : e < m
  · rw [if_pos hempty, drop_eq_nil_of_le]
    rw [length_take]
    omega
  have hrep : Rep sl (xs.take m++xs.drop m) := by
    rw [take_append_drop]
    exact h
  rw [if_neg hempty, getByRank_spec h, if_neg (by omega), show (m+1-1 : ℤ).toNat = m by omega,
    ← List.head?_drop, Option.bind_some, takeNodes_spec _ _ _ hrep, drop_take]
  rcases hcases with ⟨hq,he⟩ | ⟨hq,he⟩
  · rw [take_of_length_le (by rw [length_drop]; omega),
      take_of_length_le (by rw [length_drop]; omega)]
  · rw [show (e-m+1).toNat = (q+1).toNat-m by omega]

/-! ## Ranges of scores -/

theorem collect_spec (ok : ℕ → Bool) (fuel : ℕ) (as bs : List ℕ) (h : Rep sl (as++bs))
    (hfuel : bs.length < fuel) : sl.collect ok fuel bs.head? = some (bs.takeWhile ok) := by
  induction fuel generalizing as bs with
  | zero => omega
  | succ fuel ih => cases bs with
    | nil => rfl
    | cons b bs =>
      rw [length_cons] at hfuel
      have hrest := ih (as++[b]) bs (by rw [append_assoc]; exact h) (by omega)
      rw [List.head?_cons, SkipList.collect, takeWhile_cons, h.neighbours.2, hrest]
      split <;> rfl

/-- Between the bounds, and not one that is excluded. -/
def Within (v : S) : Prop := (sr.min ≤ v ∧ (sr.minExclusive = true → sr.min ≠ v)) ∧
  v ≤ sr.max ∧ (sr.maxExclusive = true → v ≠ sr.max)

instance (v : S) : Decidable (Within sr v) := inferInstanceAs (Decidable (_ ∧ _))

theorem gteMin_iff {v : S} : SkipList.gteMin sr v = true ↔
    sr.min ≤ v ∧ (sr.minExclusive = true → sr.min ≠ v) := by
  rw [SkipList.gteMin]
  split <;> simp_all [lt_iff_le_and_ne]

theorem lteMax_iff {v : S} : SkipList.lteMax sr v = true ↔
    v ≤ sr.max ∧ (sr.maxExclusive = true → v ≠ sr.max) := by
  rw [SkipList.lteMax]
  split <;> simp_all [lt_iff_le_and_ne]

theorem within_iff {v : S} :
    Within sr v ↔ SkipList.gteMin sr v = true ∧ SkipList.lteMax sr v = true := by
  rw [gteMin_iff, lteMax_iff, Within]

theorem gteMin_mono {v w : S} (h : v ≤ w) (hv : SkipList.gteMin sr v = true) :
    SkipList.gteMin sr w = true := by
  rw [gteMin_iff] at *
  exact ⟨hv.1.trans h,fun hx heq => hv.2 hx (le_antisymm hv.1 (h.trans heq.ge))⟩

theorem lteMax_anti {v w : S} (h : v ≤ w) (hw : SkipList.lteMax sr w = true) :
    SkipList.lteMax sr v = true := by
  rw [lteMax_iff] at *
  exact ⟨h.trans hw.1,fun hx heq => hw.2 hx (le_antisymm hw.1 (heq.ge.trans h))⟩

theorem empty_range
    (h : sr.max < sr.min ∨ sr.min = sr.max ∧ (sr.minExclusive ∨ sr.maxExclusive)) (v : S) :
    ¬Within sr v := by
  rintro ⟨⟨hmin,hmin'⟩,hmax,hmax'⟩
  rcases h with h | ⟨heq,h | h⟩
  · exact absurd (hmin.trans hmax) (not_le_of_gt h)
  · exact hmin' h (le_antisymm hmin (hmax.trans heq.ge))
  · exact hmax' h (le_antisymm hmax (heq.ge.trans hmin))

theorem inRange_spec (h : Rep sl xs) {sr : SkipList.ScoreRange S}
    (hout : sl.inRange sr = false) : ∀ a ∈ xs, ¬Within sr (sl.nodes a).score := by
  intro a ha hw
  have hin := (within_iff sr).mp hw
  rw [SkipList.inRange] at hout
  split at hout
  · exact empty_range sr ‹_› _ hw
  split at hout
  · rename_i htail
    obtain ⟨front,l,rfl⟩ := (eq_nil_or_concat xs).resolve_left (ne_nil_of_mem ha)
    rw [concat_eq_append] at *
    rw [h.tail, List.getLast?_concat, Option.all_some, Bool.not_eq_true'] at htail
    have hle : (sl.nodes a).score ≤ (sl.nodes l).score := by
      rcases mem_append.mp ha with ha | ha
      · exact score_le_of_lt ((pairwise_append.mp h.sorted).2.2 a ha l (mem_singleton_self l))
      · rw [mem_singleton.mp ha]
    exact Bool.false_ne_true (htail.symm.trans (gteMin_mono sr hle hin.1))
  split at hout
  · rename_i hfirst
    cases xs with
    | nil => cases ha
    | cons f xs =>
      have hhead : sl.forward 0 0 = some f := @Rep.follower _ _ _ _ sl [] (f::xs) h
      rw [hhead, Option.all_some, Bool.not_eq_true'] at hfirst
      have hle : (sl.nodes f).score ≤ (sl.nodes a).score := by
        rcases mem_cons.mp ha with rfl | ha
        · exact le_rfl
        · exact score_le_of_lt ((pairwise_cons.mp h.sorted).1 a ha)
      exact Bool.false_ne_true (hfirst.symm.trans (lteMax_anti sr hle hin.2))
  · exact absurd hout Bool.noConfusion

theorem rangeByScore_spec (h : Rep sl xs) (sr : SkipList.ScoreRange S) :
    sl.rangeByScore sr = some (xs.filter (fun a => Within sr (sl.nodes a).score)) := by
  rw [SkipList.rangeByScore]
  by_cases hin : sl.inRange sr = true
  · obtain ⟨path,hway,_,hno⟩ := descend_to h (fun a => !SkipList.gteMin sr (sl.nodes a).score)
      (fun a b hlt hb => by
        rw [Bool.not_eq_true'] at *
        rw [Bool.eq_false_iff] at *
        exact fun ha => hb (gteMin_mono sr (score_le_of_lt hlt) ha))
    have hsplit := (@List.takeWhile_append_dropWhile _ (fun a => !SkipList.gteMin sr (sl.nodes a).score) xs).symm
    have hlow : ∀ a ∈ xs.takeWhile (fun a => !SkipList.gteMin sr (sl.nodes a).score),
        ¬Within sr (sl.nodes a).score := by
      intro a ha hw
      have := mem_takeWhile_imp ha
      rw [((within_iff sr).mp hw).1] at this
      exact Bool.false_ne_true this
    generalize xs.takeWhile (fun a => !SkipList.gteMin sr (sl.nodes a).score) = as at *
    generalize xs.dropWhile (fun a => !SkipList.gteMin sr (sl.nodes a).score) = bs at *
    subst hsplit
    have hsorted := (pairwise_append.mp h.sorted).2.1
    have hfuel : bs.length < sl.fresh+1 := by
      have := h.length_lt_fresh
      rw [length_append] at this
      omega
    rw [if_pos hin, hway]
    change sl.collect _ _ (sl.forward (place sl as 0).1 0) = _
    rw [h.follower, collect_spec _ _ as bs h hfuel, takeWhile_eq_filter hsorted
      (fun a b hlt hb => lteMax_anti sr (score_le_of_lt hlt) hb), filter_append,
      filter_eq_nil_iff.mpr (fun a ha h => hlow a ha (of_decide_eq_true h))]
    refine congrArg some (filter_congr (fun b hb => ?_))
    have := hno b hb
    rw [Bool.not_eq_false'] at this
    rw [Bool.eq_iff_iff, decide_eq_true_eq, within_iff, and_iff_right this]
  · rw [if_neg hin, filter_eq_nil_iff.mpr]
    intro a ha h'
    exact inRange_spec h (Bool.eq_false_iff.mpr hin) a ha (of_decide_eq_true h')

/-! ## Search by key -/

theorem findKey_spec (key : K) (fuel : ℕ) (as bs : List ℕ) (h : Rep sl (as++bs))
    (hfuel : bs.length < fuel) :
    sl.findKey key fuel bs.head? = some (bs.find? (fun a => (sl.nodes a).key = key)) := by
  induction fuel generalizing as bs with
  | zero => omega
  | succ fuel ih => cases bs with
    | nil => rfl
    | cons b bs =>
      rw [length_cons] at hfuel
      have hrest := ih (as++[b]) bs (by rw [append_assoc]; exact h) (by omega)
      rw [List.head?_cons, SkipList.findKey, List.find?_cons, h.neighbours.2, hrest]
      by_cases hb : (sl.nodes b).key = key
      · rw [if_pos hb, decide_eq_true hb]
      · rw [if_neg hb, decide_eq_false hb]

end GoCommon.SkipListQueries
