import Mathlib.Data.Fintype.Basic
import GoCommon.CuckooFilter

/-!
# Failing calls of the cuckoo filter

The hash that leads from a bucket of a fingerprint to its other bucket is the second
hash of a number, which is always zero: the other bucket is the same one. So an item
has one bucket only, a call of Add fails exactly if it is full, and the moves swap the
new fingerprint with chosen slots of this bucket until the last one in hand is dropped.
-/

set_option autoImplicit false

namespace GoCommon.CuckooKicks
open List Function CuckooFilter StepRuns

/-! ## Swaps with chosen slots -/

section Swaps
variable {A B : Type} (picks : ℕ → Fin bucketSize)

def passOn : ℕ → ℕ → (Fin bucketSize → A) → A → A
  | 0, _, _, hand => hand
  | rest+1, k, slots, hand => passOn rest (k+1) (update slots (picks k) hand) (slots (picks k))

theorem passOn_map (f : A → B) (rest k : ℕ) (slots : Fin bucketSize → A) (hand : A) :
    passOn picks rest k (f ∘ slots) (f hand) = f (passOn picks rest k slots hand) := by
  induction rest generalizing k slots hand with
  | zero => rfl
  | succ rest ih => rw [passOn, passOn, ← comp_update, ← ih]; rfl

theorem passOn_twice (slot : Fin bucketSize) (n rest k : ℕ) (slots : Fin bucketSize → A) (hand : A)
    (h : ∀ j < 2*n, picks (k+j) = slot) :
    passOn picks (2*n+rest) k slots hand = passOn picks rest (k+2*n) slots hand := by
  induction n generalizing k with
  | zero => rw [Nat.zero_add, Nat.add_zero]
  | succ n ih =>
    have h0 : picks k = slot := h 0 (by omega)
    have h1 : picks (k+1) = slot := h 1 (by omega)
    rw [show 2*(n+1)+rest = 2*n+rest+1+1 by omega, passOn, passOn, h0, h1, update_self,
      update_idem, update_eq_self,
      ih (k+1+1) (fun j hj => by rw [← h (j+2) (by omega)]; congr 1; omega)]
    congr 1
    omega

def leftover : Option (Fin bucketSize) := passOn picks maxKicks 0 some none

end Swaps

theorem leftover_last {slot t : Fin bucketSize} (h : t ≠ slot) :
    leftover (fun k => if k = 499 then slot else t) = some slot := by
  rw [leftover, show maxKicks = 2*249+2 from rfl, passOn_twice _ t 249 2 0]
  · exact update_of_ne h.symm ..
  · intro j hj
    exact if_neg (by omega)

theorem leftover_any (slot : Fin bucketSize) : ∃ picks, leftover picks = some slot := by
  obtain ⟨t,ht⟩ : ∃ t, t ≠ slot := by
    revert slot
    decide
  exact ⟨_,leftover_last ht⟩

/-! ## One bucket -/

def slots (b : Bucket) (j : Fin bucketSize) : UInt16 := b.fps.getD j 0

def swaps (picks : ℕ → Fin bucketSize) : ℕ → ℕ → Bucket → UInt16 → Bucket × UInt16
  | 0, _, b, fp => (b,fp)
  | rest+1, k, b, fp => swaps picks rest (k+1) (b.swap (picks k) fp).2 (b.swap (picks k) fp).1

theorem slots_swap {b : Bucket} {i : Fin bucketSize} {fp : UInt16} :
    slots (b.swap i fp).2 = update (slots b) i fp := by
  funext j
  have hi : i.val < b.fps.length := by rw [b.size]; exact i.isLt
  change (b.fps.set i fp).getD j 0 = _
  rw [update_apply, getD_eq_getElem?_getD, List.getElem?_set]
  by_cases hj : j = i
  · rw [if_pos hj, if_pos (congrArg Fin.val hj).symm, if_pos hi]
    rfl
  · rw [if_neg hj, if_neg fun heq => hj (Fin.ext heq.symm), slots, getD_eq_getElem?_getD]

section Bucket
variable (picks : ℕ → Fin bucketSize) (rest k : ℕ) (b : Bucket) (fp : UInt16)

theorem swaps_hand : (swaps picks rest k b fp).2 = passOn picks rest k (slots b) fp := by
  induction rest generalizing k b fp with
  | zero => rfl
  | succ rest ih => rw [swaps, ih, slots_swap]; rfl

theorem swaps_len : (swaps picks rest k b fp).1.len = b.len := by
  induction rest generalizing k b fp with
  | zero => rfl
  | succ rest ih => exact ih (k+1) _ _

theorem swaps_held (hb : b.len = bucketSize) :
    (fp::b.held).Perm ((swaps picks rest k b fp).2::(swaps picks rest k b fp).1.held) := by
  induction rest generalizing k b fp with
  | zero => exact List.Perm.refl _
  | succ rest ih => exact (swap_held fp (picks k).isLt hb).trans (ih (k+1) _ _ hb)

end Bucket

theorem slots_mem {b : Bucket} (hb : b.len = bucketSize) (fp : UInt16) :
    fp ∈ b.held ↔ ∃ j, slots b j = fp := by
  rw [← contains_held, Bucket.contains, any_eq_true, hb]
  constructor
  · rintro ⟨i,hi,heq⟩
    exact ⟨⟨i,mem_range.mp hi⟩,beq_iff_eq.mp heq⟩
  · rintro ⟨j,heq⟩
    exact ⟨j,mem_range.mpr j.isLt,beq_iff_eq.mpr heq⟩

/-! ## Calls -/

def Idle (hs : Hashing) : Prop := ∀ fp, hs.finger fp = 0

theorem source_idle (memHashString sum64String : String → ℕ) : Idle (sourceHashing memHashString sum64String) :=
  fun _ => rfl

def bucketOf (hs : Hashing) (item : String) (f : Filter) : Bucket := f.buckets (Filter.first hs item f.bits)

section Calls
variable {hs : Hashing}

theorem add_room {f : Filter} {item : String} (coin : Bool) (picks : ℕ → Fin bucketSize)
    (hb : (bucketOf hs item f).len < bucketSize) : (f.add hs item coin picks).2 = true := by
  rw [bucketOf] at hb
  rw [Filter.add]
  simp only [Bucket.add, dif_neg (not_le.mpr hb)]

theorem Idle.other_eq (h : Idle hs) {bits : ℕ} (fp : UInt16) (i : Fin (2^bits)) : other hs fp i = i := by
  refine Fin.ext ?_
  change i.val ^^^ (hs.finger fp%2^bits) = i.val
  rw [h, Nat.zero_mod, Nat.xor_zero]

theorem Idle.kicks_eq (h : Idle hs) {bits : ℕ} (picks : ℕ → Fin bucketSize) (rest k : ℕ) (bs : Buckets bits)
    (i : Fin (2^bits)) (fp : UInt16) (hb : (bs i).len = bucketSize) :
    kicks hs picks rest k bs i fp = (update bs i (swaps picks rest k (bs i) fp).1,false) := by
  induction rest generalizing k bs fp with
  | zero => rw [kicks, swaps, update_eq_self]
  | succ rest ih =>
    have hfull : ((bs i).swap (picks k) fp).2.add ((bs i).swap (picks k) fp).1 = none := dif_pos hb.ge
    rw [kicks, swaps, h.other_eq, update_self]
    simp only [hfull]
    rw [ih _ _ _ (by rw [update_self]; exact hb), update_self, update_idem]

theorem Idle.add_full (h : Idle hs) {f : Filter} {item : String} (coin : Bool) (picks : ℕ → Fin bucketSize)
    (hb : (bucketOf hs item f).len = bucketSize) : f.add hs item coin picks =
      (⟨f.bits,update f.buckets (Filter.first hs item f.bits)
        (swaps picks maxKicks 0 (bucketOf hs item f) (Filter.fpOf hs item)).1,f.count⟩,false) := by
  have hnone : (f.buckets (Filter.first hs item f.bits)).add (Filter.fpOf hs item) = none := dif_pos hb.ge
  rw [Filter.add]
  simp only [h.other_eq, hnone, ite_self]
  rw [h.kicks_eq _ _ _ _ _ _ hb]
  rfl

theorem Idle.contains_iff (h : Idle hs) (f : Filter) (x : String) :
    f.contains hs x = true ↔ Filter.fpOf hs x ∈ (bucketOf hs x f).held := by
  rw [Filter.contains, h.other_eq, Bool.or_self, contains_held]
  rfl

end Calls

/-! ## Full buckets -/

def TwoFull (f : Filter) : Prop :=
  ∃ i j, i ≠ j ∧ (f.buckets i).len = bucketSize ∧ (f.buckets j).len = bucketSize

instance (f : Filter) : Decidable (TwoFull f) :=
  inferInstanceAs (Decidable (∃ i j, i ≠ j ∧ (f.buckets i).len = bucketSize ∧ (f.buckets j).len = bucketSize))

theorem Idle.add_len {hs : Hashing} (h : Idle hs) {f : Filter} {item : String} (coin : Bool)
    (picks : ℕ → Fin bucketSize) (hb : (bucketOf hs item f).len = bucketSize) :
    TwoFull (f.add hs item coin picks).1 ↔ TwoFull f := by
  have hlen : ∀ i, (update f.buckets (Filter.first hs item f.bits)
      (swaps picks maxKicks 0 (bucketOf hs item f) (Filter.fpOf hs item)).1 i).len = (f.buckets i).len := by
    intro i
    rw [update_apply]
    split
    · rename_i hi
      rw [swaps_len, hi]
      rfl
    · rfl
  rw [h.add_full coin picks hb, TwoFull, TwoFull]
  simp only [hlen]

/-- A failing call means two full buckets exactly if the item's bucket has room, so that the call
does not fail, or another bucket happens to be full as well. -/
theorem full_error_means_two_full_iff (memHashString sum64String : String → ℕ) (f : Filter) (item : String)
    (coin : Bool) (picks : ℕ → Fin bucketSize) :
    ((f.add (sourceHashing memHashString sum64String) item coin picks).2 = false →
      TwoFull f ∧ TwoFull (f.add (sourceHashing memHashString sum64String) item coin picks).1) ↔
    ((bucketOf (sourceHashing memHashString sum64String) item f).len < bucketSize ∨
      ∃ j, j ≠ Filter.first (sourceHashing memHashString sum64String) item f.bits ∧
        (f.buckets j).len = bucketSize) := by
  have hidle := source_idle memHashString sum64String
  generalize sourceHashing memHashString sum64String = hs at *
  rcases (bucketOf hs item f).fits.lt_or_eq with hb | hb
  · refine iff_of_true (fun hfail => ?_) (Or.inl hb)
    exact absurd ((add_room coin picks hb).symm.trans hfail) Bool.noConfusion
  rw [hidle.add_len coin picks hb, and_self]
  have hfail : (f.add hs item coin picks).2 = false := by rw [hidle.add_full coin picks hb]
  constructor
  · intro htwo
    obtain ⟨i,j,hne,hi,hj⟩ := htwo hfail
    by_cases hfirst : i = Filter.first hs item f.bits
    · exact Or.inr ⟨j,fun heq => hne (hfirst.trans heq.symm),hj⟩
    · exact Or.inr ⟨i,hfirst,hi⟩
  · rintro (hroom | ⟨j,hne,hj⟩) _
    · exact absurd hb hroom.ne
    · exact ⟨j,_,hne,hj,hb⟩

def repeated : List Op := List.replicate 4 (.add "a" true (fun _ => ⟨0,bucketSize_pos⟩))

/-- One bucket is full and the other one empty. -/
theorem fifth_add_fails_beside_empty_bucket :
    ∃ s, runAll (step constantHashing) repeated ⟨newFilter 8,[],[]⟩ = some s ∧ 2^s.filter.bits = 2 ∧
      ¬TwoFull s.filter ∧ ∀ coin picks, (s.filter.add constantHashing "a" coin picks).2 = false := by
  obtain ⟨s,hs,hbits,htwo,hfull⟩ : ∃ s ∈ runAll (step constantHashing) repeated ⟨newFilter 8,[],[]⟩, 2^s.filter.bits = 2 ∧
      ¬TwoFull s.filter ∧ (bucketOf constantHashing "a" s.filter).len = bucketSize := by
    decide +kernel
  have hidle : Idle constantHashing := source_idle _ _
  refine ⟨s,hs,hbits,htwo,fun coin picks => ?_⟩
  rw [hidle.add_full coin picks hfull]

/-! ## What a failing call loses -/

def Outstanding (s : History) (x : String) : Prop := s.deleted.count x < s.added.count x

def Lossless (hs : Hashing) (s : History) (item : String) (coin : Bool) (picks : ℕ → Fin bucketSize) : Prop :=
  (s.filter.add hs item coin picks).2 = false →
    (∀ x, Outstanding s x → s.filter.contains hs x = true →
      (s.filter.add hs item coin picks).1.contains hs x = true) ∧
    (s.filter.add hs item coin picks).1.count = s.filter.count

/-- A fingerprint of the item's bucket can be dropped: it is there twice, with the new one, or
no outstanding item of the bucket has it. -/
def Spare (hs : Hashing) (s : History) (item : String) (fp : UInt16) : Prop :=
  1 < (Filter.fpOf hs item::(bucketOf hs item s.filter).held).count fp ∨
    ∀ x, Outstanding s x → Filter.first hs x s.filter.bits = Filter.first hs item s.filter.bits →
      Filter.fpOf hs x ≠ fp

theorem mem_exchanged {A : Type} [DecidableEq A] {x new gone : A} {xs ys : List A}
    (h : (new::xs).Perm (gone::ys)) (hx : x ∈ xs) : x ∈ ys ↔ (x = gone → 1 < (new::xs).count gone) := by
  have hcount := h.count_eq x
  rw [count_cons (l := ys)] at hcount
  rw [← count_pos_iff]
  by_cases hgone : x = gone
  · subst hgone
    rw [beq_self_eq_true, if_pos rfl] at hcount
    exact ⟨fun hpos _ => by omega,fun hlt => by have := hlt rfl; omega⟩
  · have hpos : 0 < (new::xs).count x := count_pos_iff.mpr (mem_cons_of_mem _ hx)
    rw [if_neg (by rw [beq_iff_eq]; exact fun heq => hgone heq.symm)] at hcount
    exact iff_of_true (by omega) fun heq => absurd heq hgone

section Loss
variable {hs : Hashing} {s : History} {item : String} {coin : Bool} {picks : ℕ → Fin bucketSize}

theorem lossless_room (hb : (bucketOf hs item s.filter).len < bucketSize) : Lossless hs s item coin picks :=
  fun hfail => absurd ((add_room coin picks hb).symm.trans hfail) Bool.noConfusion

def dropped (hs : Hashing) (s : History) (item : String) (picks : ℕ → Fin bucketSize) : UInt16 :=
  (swaps picks maxKicks 0 (bucketOf hs item s.filter) (Filter.fpOf hs item)).2

theorem dropped_eq : dropped hs s item picks =
    (leftover picks).elim (Filter.fpOf hs item) (slots (bucketOf hs item s.filter)) := by
  rw [dropped, swaps_hand, leftover]
  generalize maxKicks = rest
  exact passOn_map picks (fun o => o.elim (Filter.fpOf hs item) (slots (bucketOf hs item s.filter))) rest 0
    some none

/-- After a call that finds its bucket full an item is found unless the only copy of its
fingerprint was dropped. -/
theorem Idle.found_after (h : Idle hs) (hb : (bucketOf hs item s.filter).len = bucketSize) {x : String}
    (hx : s.filter.contains hs x = true) : (s.filter.add hs item coin picks).1.contains hs x = true ↔
      (Filter.first hs x s.filter.bits = Filter.first hs item s.filter.bits →
        Filter.fpOf hs x = dropped hs s item picks →
          1 < (Filter.fpOf hs item::(bucketOf hs item s.filter).held).count (dropped hs s item picks)) := by
  rw [h.contains_iff, bucketOf] at hx
  rw [h.contains_iff, h.add_full coin picks hb, bucketOf]
  dsimp only
  by_cases hfirst : Filter.first hs x s.filter.bits = Filter.first hs item s.filter.bits
  · rw [hfirst] at hx ⊢
    rw [update_self, mem_exchanged (swaps_held picks maxKicks 0 _ _ hb) hx]
    exact ⟨fun honce _ => honce,fun hall => hall rfl⟩
  · rw [update_of_ne hfirst]
    exact iff_of_true hx fun heq => absurd heq hfirst

/-- A call that finds its bucket full loses nothing exactly if the fingerprint in hand at the end is
not from the bucket or can be dropped. -/
theorem Idle.lossless_full (h : Idle hs) (hb : (bucketOf hs item s.filter).len = bucketSize) :
    Lossless hs s item coin picks ↔ (dropped hs s item picks ∈ (bucketOf hs item s.filter).held →
      Spare hs s item (dropped hs s item picks)) := by
  have hbucket : ∀ x, Filter.first hs x s.filter.bits = Filter.first hs item s.filter.bits →
      bucketOf hs x s.filter = bucketOf hs item s.filter := fun x hfirst => by rw [bucketOf, hfirst]; rfl
  have hadd := h.add_full coin picks hb
  constructor
  · intro hall hin
    refine or_iff_not_imp_left.mpr fun honce x hx hfirst heq => honce ?_
    have hfound : s.filter.contains hs x = true := by
      rw [h.contains_iff, hbucket x hfirst, heq]
      exact hin
    exact (h.found_after hb hfound).mp ((hall (by rw [hadd])).1 x hx hfound) hfirst heq
  intro hspare _
  refine ⟨fun x hx hfound => (h.found_after hb hfound).mpr fun hfirst heq => ?_,by rw [hadd]⟩
  rw [h.contains_iff, hbucket x hfirst, heq] at hfound
  exact (hspare hfound).resolve_right fun hno => hno x hx hfirst heq

end Loss

/-- A failing call loses nothing exactly if the item's bucket has room or the fingerprint of the
slot that the choices lead to can be dropped; whatever is chosen, if all of the bucket can. -/
theorem failed_add_loses_nothing_iff (memHashString sum64String : String → ℕ) (s : History) (item : String) :
    (∀ coin picks, Lossless (sourceHashing memHashString sum64String) s item coin picks ↔
      ((bucketOf (sourceHashing memHashString sum64String) item s.filter).len < bucketSize ∨
        ∀ slot, leftover picks = some slot → Spare (sourceHashing memHashString sum64String) s item
          (slots (bucketOf (sourceHashing memHashString sum64String) item s.filter) slot))) ∧
    ((∀ coin picks, Lossless (sourceHashing memHashString sum64String) s item coin picks) ↔
      ((bucketOf (sourceHashing memHashString sum64String) item s.filter).len < bucketSize ∨
        ∀ fp ∈ (bucketOf (sourceHashing memHashString sum64String) item s.filter).held,
          Spare (sourceHashing memHashString sum64String) s item fp)) := by
  have hidle := source_idle memHashString sum64String
  generalize sourceHashing memHashString sum64String = hs at *
  have hchoice : ∀ coin picks, Lossless hs s item coin picks ↔
      ((bucketOf hs item s.filter).len < bucketSize ∨ ∀ slot, leftover picks = some slot →
        Spare hs s item (slots (bucketOf hs item s.filter) slot)) := by
    intro coin picks
    rcases (bucketOf hs item s.filter).fits.lt_or_eq with hb | hb
    · exact iff_of_true (lossless_room hb) (Or.inl hb)
    rw [hidle.lossless_full hb, or_iff_right hb.not_lt, dropped_eq]
    cases leftover picks with
    | none =>
      refine iff_of_true (fun hin => Or.inl ?_) nofun
      rw [Option.elim_none, count_cons_self]
      exact Nat.succ_lt_succ (count_pos_iff.mpr hin)
    | some slot =>
      have hin : slots (bucketOf hs item s.filter) slot ∈ (bucketOf hs item s.filter).held :=
        (slots_mem hb _).mpr ⟨slot,rfl⟩
      refine ⟨fun hspare slot' heq => ?_,fun hall _ => hall slot rfl⟩
      rw [← Option.some.inj heq]
      exact hspare hin
  refine ⟨hchoice,⟨fun hall => ?_,fun hcond coin picks => (hchoice coin picks).mpr ?_⟩⟩
  · refine or_iff_not_imp_left.mpr fun hroom fp hfp => ?_
    have hb : (bucketOf hs item s.filter).len = bucketSize :=
      (bucketOf hs item s.filter).fits.eq_of_not_lt hroom
    obtain ⟨slot,rfl⟩ := (slots_mem hb fp).mp hfp
    obtain ⟨picks,hpicks⟩ := leftover_any slot
    exact ((hchoice true picks).mp (hall true picks)).resolve_left hroom slot hpicks
  refine or_iff_not_imp_left.mpr fun hroom slot _ => hcond.resolve_left hroom _ ?_
  have hb : (bucketOf hs item s.filter).len = bucketSize :=
    (bucketOf hs item s.filter).fits.eq_of_not_lt hroom
  exact (slots_mem hb _).mpr ⟨slot,rfl⟩

def lengths : Hashing := sourceHashing (fun _ => 0) String.length

def fourItems : List Op := ["a","bb","ccc","dddd"].map (fun x => .add x true (fun _ => ⟨0,bucketSize_pos⟩))

def lastPick (k : ℕ) : Fin bucketSize := if k = 499 then ⟨1,by decide⟩ else ⟨0,bucketSize_pos⟩

/-- An add that gives up has moved an item out of the filter. -/
theorem failed_add_drops_item :
    ∃ s, runAll (step lengths) fourItems ⟨newFilter 4,[],[]⟩ = some s ∧ Outstanding s "bb" ∧
      s.filter.contains lengths "bb" = true ∧ (s.filter.add lengths "eeeee" true lastPick).2 = false ∧
        (s.filter.add lengths "eeeee" true lastPick).1.contains lengths "bb" = false := by
  obtain ⟨s,hs,⟨hout,hfound⟩,hb,hfirst,hfp,hcount⟩ : ∃ s ∈ runAll (step lengths) fourItems ⟨newFilter 4,[],[]⟩,
      (s.deleted.count "bb" < s.added.count "bb" ∧ s.filter.contains lengths "bb" = true) ∧
        (bucketOf lengths "eeeee" s.filter).len = bucketSize ∧
        Filter.first lengths "bb" s.filter.bits = Filter.first lengths "eeeee" s.filter.bits ∧
        Filter.fpOf lengths "bb" = slots (bucketOf lengths "eeeee" s.filter) ⟨1,by decide⟩ ∧
        (Filter.fpOf lengths "eeeee"::(bucketOf lengths "eeeee" s.filter).held).count
          (slots (bucketOf lengths "eeeee" s.filter) ⟨1,by decide⟩) = 1 := by decide +kernel
  have hidle : Idle lengths := source_idle _ _
  have hdropped : dropped lengths s "eeeee" lastPick = slots (bucketOf lengths "eeeee" s.filter) ⟨1,by decide⟩ := by
    rw [dropped_eq, show leftover lastPick = some ⟨1,by decide⟩ from leftover_last (by decide)]
    rfl
  refine ⟨s,hs,hout,hfound,by rw [hidle.add_full true lastPick hb],?_⟩
  refine Bool.eq_false_iff.mpr fun hafter => ?_
  have hlt := (hidle.found_after hb hfound).mp hafter hfirst (hfp.trans hdropped.symm)
  rw [hdropped, hcount] at hlt
  exact absurd hlt (lt_irrefl 1)

end GoCommon.CuckooKicks
