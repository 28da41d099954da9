import Mathlib.Algebra.BigOperators.Group.Finset.Basic
import Mathlib.Algebra.Order.Group.Multiset
import GoCommon.SliceHeap
import GoCommon.StepRuns

/-!
# The striped batcher

A call of Push owns one stripe from the Get to the Put, so that the calls in progress
are the stripes that are out of the pool, whichever goroutines make them. The pool may
hand out any idle stripe, make a new one, or drop an idle one. The data of the stripes
and the batches that were passed to the consumer are slices over one heap of arrays.
-/

set_option autoImplicit false

namespace GoCommon.StripedBatcher
open List Function SliceHeap StepRuns

variable {T : Type}

def effectiveSize (stripeSize : ℤ) : ℕ := if stripeSize ≤ 0 then 512 else stripeSize.toNat

inductive Status (T : Type) where
  | idle
  | got (item : T)
  | appended
  | consumed
  | finished
  | dropped

def Status.isConsumed : Status T → Bool
  | .consumed => true
  | _ => false

def Status.isAppended : Status T → Bool
  | .appended => true
  | _ => false

def Status.isDropped : Status T → Bool
  | .dropped => true
  | _ => false

structure Batch (T : Type) where
  stripe : ℕ
  slice : Slice
  items : List T

structure Batcher (T : Type) where
  heap : Heap T
  count : ℕ
  data : ℕ → Slice
  status : ℕ → Status T
  batches : List (Batch T)
  pushed : List T
  log : ℕ → List T

def new : Batcher T := ⟨⟨fun _ => [],0⟩,0,fun _ => ⟨none,0⟩,fun _ => .dropped,[],[],fun _ => []⟩

inductive Act (T : Type) where
  | newStripe (item : T)
  | get (i : ℕ) (item : T)
  | append (i : ℕ) (spare : List T)
  | flush (i : ℕ)
  | make (i : ℕ)
  | put (i : ℕ)
  | drop (i : ℕ)

section Steps
variable (cap : ℕ) (zero : T)

def makeData (heap : Heap T) : Heap T × Slice := heap.allocate [] (List.replicate cap zero)

def setStatus (i : ℕ) (st : Status T) (b : Batcher T) : Batcher T :=
  { b with status := update b.status i st }

def step : Act T → Batcher T → Option (Batcher T)
  | .newStripe item, b => some { b with
      heap := (makeData cap zero b.heap).1
      count := b.count+1
      data := update b.data b.count (makeData cap zero b.heap).2
      status := update b.status b.count (.got item) }
  | .get i item, b => match b.status i with
    | .idle => some (setStatus i (.got item) b)
    | _ => none
  | .append i spare, b => match b.status i with
    | .got item => some { b with
        heap := (b.heap.push item spare (b.data i)).1
        data := update b.data i (b.heap.push item spare (b.data i)).2
        status := update b.status i .appended
        pushed := b.pushed++[item]
        log := update b.log i (b.log i++[item]) }
    | _ => none
  | .flush i, b => match b.status i with
    | .appended =>
      if cap ≤ (b.data i).len then some { b with
        batches := b.batches++[⟨i,b.data i,b.heap.contents (b.data i)⟩]
        status := update b.status i .consumed }
      else some (setStatus i .finished b)
    | _ => none
  | .make i, b => match b.status i with
    | .consumed => some { b with
        heap := (makeData cap zero b.heap).1
        data := update b.data i (makeData cap zero b.heap).2
        status := update b.status i .finished }
    | _ => none
  | .put i, b => match b.status i with
    | .finished => some (setStatus i .idle b)
    | _ => none
  | .drop i, b => match b.status i with
    | .idle => some (setStatus i .dropped b)
    | _ => none

end Steps

/-! ## The invariant -/

def pending (b : Batcher T) (i : ℕ) : List T :=
  if (b.status i).isConsumed then [] else b.heap.contents (b.data i)

def owner (b : Batcher T) : ℕ ⊕ ℕ → Option ℕ
  | .inl i => if i < b.count ∧ (b.status i).isConsumed = false then (b.data i).arr else none
  | .inr k => (b.batches[k]?).bind (fun batch => batch.slice.arr)

def batchesOf (b : Batcher T) (i : ℕ) : List T :=
  (b.batches.filter (fun batch => batch.stripe = i)).flatMap Batch.items

structure Intact (cap : ℕ) (b : Batcher T) : Prop where
  known : ∀ i, (b.status i).isDropped = false → i < b.count
  room : ∀ i < b.count, (b.status i).isConsumed = false → Valid b.heap (b.data i) ∧
    (∃ a, (b.data i).arr = some a ∧ (b.heap.arrays a).length = cap) ∧
      ((b.status i).isAppended = false → (b.data i).len < cap)
  batches : ∀ batch ∈ b.batches, batch.stripe < b.count ∧ batch.items.length = cap ∧
    Valid b.heap batch.slice ∧ b.heap.contents batch.slice = batch.items
  owns : Owns b.heap (owner b)
  unused : ∀ i, b.count ≤ i → b.log i = []
  order : ∀ i < b.count, b.log i = batchesOf b i++pending b i
  total : (b.pushed : Multiset T) =
    (b.batches.flatMap Batch.items : Multiset T)+∑ i ∈ Finset.range b.count, (pending b i : Multiset T)

theorem new_intact {cap : ℕ} : Intact cap (new : Batcher T) := by
  refine ⟨nofun,nofun,nofun,?_,fun _ _ => rfl,nofun,rfl⟩
  rintro (i | k) a ha
  · exact absurd ha (by simp [owner, new])
  · exact absurd ha (by simp [owner, new])

/-! ## One step -/

variable {cap : ℕ} {b : Batcher T}

theorem isConsumed_update (status : ℕ → Status T) (i : ℕ) {st : Status T}
    (h : st.isConsumed = (status i).isConsumed) (j : ℕ) :
    (update status i st j).isConsumed = (status j).isConsumed := by
  by_cases hj : j = i
  · rw [hj, update_self, h]
  · rw [update_of_ne hj]

theorem known_update (h : Intact cap b) {i : ℕ} (hi : i < b.count) (st : Status T) :
    ∀ j, (update b.status i st j).isDropped = false → j < b.count := by
  intro j hj
  by_cases hji : j = i
  · exact hji ▸ hi
  · rw [update_of_ne hji] at hj
    exact h.known j hj

theorem status_setStatus {i j : ℕ} {st : Status T} :
    (setStatus i st b).status j = if j = i then st else b.status j := update_apply ..

theorem setStatus_intact (h : Intact cap b) {i : ℕ} (hi : i < b.count) (st : Status T)
    (hold : (b.status i).isConsumed = false) (hst : st.isConsumed = false)
    (hlen : st.isAppended = false → (b.data i).len < cap) : Intact cap (setStatus i st b) := by
  have hsame : ∀ j, ((setStatus i st b).status j).isConsumed = (b.status j).isConsumed :=
    isConsumed_update b.status i (hst.trans hold.symm)
  have hpending : ∀ j, pending (setStatus i st b) j = pending b j := by
    intro j
    rw [pending, hsame j]
    rfl
  have howner : owner (setStatus i st b) = owner b := by
    funext o
    cases o with
    | inl j =>
      rw [owner, hsame j]
      rfl
    | inr k => rfl
  refine ⟨known_update h hi st,fun j hj hc => ?_,h.batches,by rw [howner]; exact h.owns,h.unused,fun j hj => ?_,?_⟩
  · rw [hsame j] at hc
    obtain ⟨hv,ha,hl⟩ := h.room j hj hc
    refine ⟨hv,ha,fun happ => ?_⟩
    rw [status_setStatus] at happ
    by_cases hji : j = i
    · rw [if_pos hji] at happ
      exact hji ▸ hlen happ
    · rw [if_neg hji] at happ
      exact hl happ
  · rw [hpending]
    exact h.order j hj
  · simp only [hpending]
    exact h.total

theorem views (h : Intact cap b) (heap : Heap T) (hf : b.heap.fresh ≤ heap.fresh) (i : ℕ)
    (hkeep : ∀ o a, o ≠ .inl i → owner b o = some a → heap.arrays a = b.heap.arrays a) :
    (∀ j < b.count, j ≠ i → (b.status j).isConsumed = false →
      (Valid heap (b.data j) ∧ heap.contents (b.data j) = b.heap.contents (b.data j)) ∧
        ∃ a, (b.data j).arr = some a ∧ (heap.arrays a).length = cap) ∧
      ∀ batch ∈ b.batches, Valid heap batch.slice ∧ heap.contents batch.slice = batch.items := by
  constructor
  · intro j hj hji hc
    obtain ⟨hv,⟨a,ha,hlen⟩,_⟩ := h.room j hj hc
    have howner : owner b (.inl j) = some a := by
      rw [owner, if_pos ⟨hj,hc⟩, ha]
    have harr := hkeep (.inl j) a (fun heq => hji (Sum.inl.inj heq)) howner
    refine ⟨view_congr hv hf (fun c hc' => ?_),a,ha,by rw [harr, hlen]⟩
    obtain rfl : c = a := Option.some.inj (hc'.symm.trans ha)
    exact harr
  intro batch hmem
  obtain ⟨_,_,hv,hitems⟩ := h.batches batch hmem
  obtain ⟨k,hk⟩ := mem_iff_getElem?.mp hmem
  have hview := view_congr hv hf (fun a ha => hkeep (.inr k) a nofun (by rw [owner, hk]; exact ha))
  exact ⟨hview.1,hview.2.trans hitems⟩

theorem makeData_spec (zero : T) (heap : Heap T) :
    (makeData cap zero heap).1.fresh = heap.fresh+1 ∧
      (∀ a < heap.fresh, (makeData cap zero heap).1.arrays a = heap.arrays a) ∧
        Valid (makeData cap zero heap).1 (makeData cap zero heap).2 ∧
          (makeData cap zero heap).1.contents (makeData cap zero heap).2 = [] ∧
            (makeData cap zero heap).2 = ⟨some heap.fresh,0⟩ ∧
              ((makeData cap zero heap).1.arrays heap.fresh).length = cap := by
  obtain ⟨hv,hc⟩ := allocate_spec [] (List.replicate cap zero) heap
  refine ⟨rfl,fun a ha => update_of_ne (Nat.ne_of_lt ha) _ _,hv,hc,rfl,?_⟩
  rw [makeData, Heap.allocate]
  simp

def renewed (cap : ℕ) (zero : T) (i count : ℕ) (st : Status T) (b : Batcher T) : Batcher T :=
  { b with
    heap := (makeData cap zero b.heap).1
    count := count
    data := update b.data i (makeData cap zero b.heap).2
    status := update b.status i st }

theorem renewed_intact (zero : T) (h : Intact cap b) (hcap : 0 < cap) (i count : ℕ) (st : Status T)
    (hst : st.isConsumed = false) (hi : i < count) (hcount : b.count ≤ count)
    (hother : ∀ j < count, j ≠ i → j < b.count)
    (hnone : i < b.count → pending b i = []) :
    Intact cap (renewed cap zero i count st b) := by
  obtain ⟨hfresh,hkeep,hv,hcontents,hslice,hlength⟩ := @makeData_spec T cap zero b.heap
  obtain ⟨hstripes,hbatches⟩ := views h (makeData cap zero b.heap).1 (by omega) i
    (fun o a _ ha => hkeep a (h.owns o a ha).1)
  have hdata : (renewed cap zero i count st b).data i = (makeData cap zero b.heap).2 := update_self ..
  have hdata' : ∀ j, j ≠ i → (renewed cap zero i count st b).data j = b.data j :=
    fun j hj => update_of_ne hj ..
  have hstatus : (renewed cap zero i count st b).status i = st := update_self ..
  have hstatus' : ∀ j, j ≠ i → (renewed cap zero i count st b).status j = b.status j :=
    fun j hj => update_of_ne hj ..
  have hself : pending (renewed cap zero i count st b) i = [] := by
    rw [pending, hstatus, hst, hdata]
    exact hcontents
  have hpending : ∀ j < b.count, pending (renewed cap zero i count st b) j = pending b j := by
    intro j hj
    by_cases hji : j = i
    · subst hji
      rw [hself, hnone hj]
    rw [pending, pending, hstatus' j hji, hdata' j hji]
    split
    · rfl
    · rename_i hc
      exact (hstripes j hj hji (Bool.eq_false_iff.mpr hc)).1.2
  have howner : owner (renewed cap zero i count st b) =
      update (owner b) (.inl i) (some b.heap.fresh) := by
    funext o
    cases o with
    | inr k =>
      rfl
    | inl j =>
      by_cases hji : j = i
      · subst hji
        rw [update_self, owner, hstatus, hdata, hslice, if_pos ⟨hi,hst⟩]
      have hrange : j < count ↔ j < b.count := ⟨fun hj => hother j hj hji,fun hj => by omega⟩
      rw [update_of_ne (fun heq => hji (Sum.inl.inj heq)), owner, hstatus' j hji,
        hdata' j hji]
      exact if_congr (and_congr_left (fun _ => hrange)) rfl rfl
  refine ⟨fun j hj => ?_,fun j hj hc => ?_,fun batch hmem => ?_,?_,fun j hj => ?_,fun j hj => ?_,?_⟩
  · by_cases hji : j = i
    · exact hji ▸ hi
    · rw [hstatus' j hji] at hj
      exact lt_of_lt_of_le (h.known j hj) hcount
  · by_cases hji : j = i
    · subst hji
      rw [hdata]
      refine ⟨hv,⟨b.heap.fresh,by rw [hslice],hlength⟩,fun _ => ?_⟩
      exact hcap
    have hold := hother j hj hji
    rw [hstatus' j hji] at hc ⊢
    rw [hdata' j hji]
    obtain ⟨⟨hvj,_⟩,ha⟩ := hstripes j hold hji hc
    exact ⟨hvj,ha,(h.room j hold hc).2.2⟩
  · obtain ⟨hstripe,hlen,_⟩ := h.batches batch hmem
    exact ⟨lt_of_lt_of_le hstripe hcount,hlen,hbatches batch hmem⟩
  · rw [howner]
    exact h.owns.renew (.inl i) hfresh
  · exact h.unused j (hcount.trans hj)
  · by_cases hold : j < b.count
    · rw [hpending j hold]
      exact h.order j hold
    obtain rfl : j = i := by_contra (fun hji => hold (hother j hj hji))
    have hnobatch : batchesOf (renewed cap zero j count st b) j = [] := by
      rw [batchesOf, filter_eq_nil_iff.mpr]
      · rfl
      intro batch hmem
      have := (h.batches batch hmem).1
      rw [decide_eq_true_eq]
      omega
    rw [hself, hnobatch]
    exact h.unused j (not_lt.mp hold)
  change (b.pushed : Multiset T) = (b.batches.flatMap Batch.items : Multiset T)+
    ∑ j ∈ Finset.range count, (pending (renewed cap zero i count st b) j : Multiset T)
  rw [h.total, ← Finset.sum_subset (Finset.range_subset_range.mpr hcount)]
  · refine congrArg _ (Finset.sum_congr rfl (fun j hj => ?_))
    rw [hpending j (Finset.mem_range.mp hj)]
  intro j hj hout
  obtain rfl : j = i := by_contra (fun hji =>
    hout (Finset.mem_range.mpr (hother j (Finset.mem_range.mp hj) hji)))
  rw [hself]
  rfl

theorem push_in_place (item : T) (spare : List T) (heap : Heap T) {sl : Slice} {a : ℕ} (ha : sl.arr = some a)
    (hroom : sl.len < (heap.arrays a).length) : heap.push item spare sl =
      ({ heap with arrays := update heap.arrays a ((heap.arrays a).set sl.len item) },
        ⟨some a,sl.len+1⟩) := by
  rw [Heap.push, ha]
  exact if_pos hroom

theorem sum_change {f g : ℕ → Multiset T} {count i : ℕ} (hi : i < count)
    (hsame : ∀ j < count, j ≠ i → g j = f j) :
    f i+∑ j ∈ Finset.range count, g j = g i+∑ j ∈ Finset.range count, f j := by
  have hmem := Finset.mem_range.mpr hi
  rw [← Finset.add_sum_erase _ g hmem, ← Finset.add_sum_erase _ f hmem, add_left_comm]
  refine congrArg (g i+·) (congrArg (f i+·) (Finset.sum_congr rfl (fun j hj => ?_)))
  obtain ⟨hne,hrange⟩ := Finset.mem_erase.mp hj
  exact hsame j (Finset.mem_range.mp hrange) hne

def appended (i : ℕ) (item : T) (heap : Heap T) (slice : Slice) (b : Batcher T) : Batcher T :=
  { b with
    heap := heap
    data := update b.data i slice
    status := update b.status i .appended
    pushed := b.pushed++[item]
    log := update b.log i (b.log i++[item]) }

theorem append_intact (h : Intact cap b) {i : ℕ} {item : T} (spare : List T) (hgot : b.status i = .got item) :
    Intact cap (appended i item (b.heap.push item spare (b.data i)).1
      (b.heap.push item spare (b.data i)).2 b) := by
  have hi : i < b.count := h.known i (by rw [hgot]; rfl)
  have hlive : (b.status i).isConsumed = false := by rw [hgot]; rfl
  obtain ⟨hv,⟨a,ha,hlen⟩,hroom⟩ := h.room i hi hlive
  have hplace := push_in_place item spare b.heap ha
    (by rw [hlen]; exact hroom (by rw [hgot]; rfl))
  obtain ⟨hv',hcontents⟩ := push_spec item spare hv
  have hmine : owner b (.inl i) = some a := by rw [owner, if_pos ⟨hi,hlive⟩, ha]
  have hkeep : ∀ o c, o ≠ .inl i → owner b o = some c →
      (b.heap.push item spare (b.data i)).1.arrays c = b.heap.arrays c := by
    intro o c ho hc
    have hca : c ≠ a := fun heq => ho ((h.owns (.inl i) a hmine).2 o (heq ▸ hc))
    rw [hplace]
    exact update_of_ne hca ..
  have hfresh : (b.heap.push item spare (b.data i)).1.fresh = b.heap.fresh := by rw [hplace]
  have harr : (b.heap.push item spare (b.data i)).2.arr = some a := by rw [hplace]
  have hlen' : ((b.heap.push item spare (b.data i)).1.arrays a).length = cap := by
    rw [hplace]
    change (update b.heap.arrays a ((b.heap.arrays a).set (b.data i).len item) a).length = cap
    rw [update_self, length_set, hlen]
  obtain ⟨hstripes,hbatches⟩ := views h (b.heap.push item spare (b.data i)).1 hfresh.ge i hkeep
  generalize (b.heap.push item spare (b.data i)).1 = heap at *
  generalize (b.heap.push item spare (b.data i)).2 = slice at *
  have hconsumed : ∀ j, ((appended i item heap slice b).status j).isConsumed = (b.status j).isConsumed :=
    isConsumed_update b.status i hlive.symm
  have hdata : (appended i item heap slice b).data i = slice := update_self ..
  have hdata' : ∀ j, j ≠ i → (appended i item heap slice b).data j = b.data j :=
    fun j hj => update_of_ne hj ..
  have hself : pending (appended i item heap slice b) i = pending b i++[item] := by
    rw [pending, pending, hconsumed, hlive, hdata]
    exact hcontents
  have hpending : ∀ j < b.count, j ≠ i → pending (appended i item heap slice b) j = pending b j := by
    intro j hj hji
    rw [pending, pending, hconsumed, hdata' j hji]
    split
    · rfl
    · rename_i hc
      exact (hstripes j hj hji (Bool.eq_false_iff.mpr hc)).1.2
  have howner : owner (appended i item heap slice b) = owner b := by
    funext o
    cases o with
    | inr k => rfl
    | inl j =>
      rw [owner, owner, hconsumed]
      by_cases hji : j = i
      · rw [hji, hdata, harr, ha]
        rfl
      · rw [hdata' j hji]
        rfl
  refine ⟨known_update h hi .appended,fun j hj hc => ?_,fun batch hmem => ?_,?_,fun j hj => ?_,fun j hj => ?_,?_⟩
  · rw [hconsumed] at hc
    by_cases hji : j = i
    · subst hji
      rw [hdata]
      refine ⟨hv',⟨a,harr,hlen'⟩,fun hno => ?_⟩
      rw [show (appended j item heap slice b).status j = .appended from update_self ..] at hno
      cases hno
    rw [hdata' j hji]
    obtain ⟨⟨hvj,_⟩,haj⟩ := hstripes j hj hji hc
    refine ⟨hvj,haj,fun happ => (h.room j hj hc).2.2 ?_⟩
    rwa [show (appended i item heap slice b).status j = b.status j from update_of_ne hji ..] at happ
  · obtain ⟨hstripe,hlength,_⟩ := h.batches batch hmem
    exact ⟨hstripe,hlength,hbatches batch hmem⟩
  · rw [howner]
    exact h.owns.grow hfresh.ge
  · have hji : j ≠ i := fun heq => by
      have : b.count ≤ j := hj
      omega
    exact (update_of_ne hji ..).trans (h.unused j hj)
  · by_cases hji : j = i
    · subst hji
      rw [hself, ← append_assoc]
      exact (update_self ..).trans (congrArg (·++[item]) (h.order j hi))
    · rw [hpending j hj hji]
      exact (update_of_ne hji ..).trans (h.order j hj)
  have hsum := @sum_change T (fun j => (pending b j : Multiset T))
    (fun j => (pending (appended i item heap slice b) j : Multiset T)) b.count i hi
    (fun j hj hji => by rw [hpending j hj hji])
  change ((b.pushed++[item] : List T) : Multiset T) = (b.batches.flatMap Batch.items : Multiset T)+
    ∑ j ∈ Finset.range b.count, (pending (appended i item heap slice b) j : Multiset T)
  rw [hself, ← Multiset.coe_add, add_assoc, add_right_inj] at hsum
  rw [hsum, ← Multiset.coe_add, h.total, add_left_comm, add_comm]

def consumed (i : ℕ) (b : Batcher T) : Batcher T :=
  { b with
    batches := b.batches++[⟨i,b.data i,b.heap.contents (b.data i)⟩]
    status := update b.status i .consumed }

theorem batchesOf_consumed {i j : ℕ} : batchesOf (consumed i b) j =
    batchesOf b j++(if j = i then b.heap.contents (b.data i) else []) := by
  rw [batchesOf, consumed, filter_append, flatMap_append, ← batchesOf]
  by_cases hji : j = i
  · rw [if_pos hji, filter_cons_of_pos (by simp [hji])]
    simp
  · rw [if_neg hji, filter_cons_of_neg (by simp [Ne.symm hji])]
    rfl

theorem flush_intact (h : Intact cap b) {i : ℕ} (happ : b.status i = .appended) (hfull : cap ≤ (b.data i).len) :
    Intact cap (consumed i b) := by
  have hi : i < b.count := h.known i (by rw [happ]; rfl)
  have hlive : (b.status i).isConsumed = false := by rw [happ]; rfl
  obtain ⟨hv,⟨a,ha,hlen⟩,_⟩ := h.room i hi hlive
  have hitems : (b.heap.contents (b.data i)).length = cap := by
    have := (hv.bound a ha).2
    rw [contents_length hv]
    omega
  have hstatus : (consumed i b).status i = .consumed := update_self ..
  have hstatus' : ∀ j, j ≠ i → (consumed i b).status j = b.status j := fun j hj => update_of_ne hj ..
  have hmine : pending b i = b.heap.contents (b.data i) := by
    rw [pending, hlive]
    rfl
  have hself : pending (consumed i b) i = [] := by
    rw [pending, hstatus]
    rfl
  have hpending : ∀ j, j ≠ i → pending (consumed i b) j = pending b j := by
    intro j hji
    rw [pending, hstatus' j hji]
    rfl
  refine ⟨known_update h hi .consumed,fun j hj hc => ?_,fun batch hmem => ?_,?_,h.unused,fun j hj => ?_,?_⟩
  · have hji : j ≠ i := fun heq => by
      rw [heq, hstatus] at hc
      cases hc
    rw [hstatus' j hji] at hc ⊢
    exact h.room j hj hc
  · rcases mem_append.mp hmem with hmem | hmem
    · exact h.batches batch hmem
    · rw [mem_singleton.mp hmem]
      exact ⟨hi,hitems,hv,rfl⟩
  · -- the array of the stripe goes to the new batch
    let f : ℕ ⊕ ℕ → Option (ℕ ⊕ ℕ)
      | .inl j => if j = i then none else some (.inl j)
      | .inr k => if k = b.batches.length then some (.inl i) else some (.inr k)
    refine h.owns.moves f ?_ ?_
    · rintro (j | k) (j' | k') o hj hj' <;> simp only [f] at hj hj' <;> grind
    rintro (j | k)
    · by_cases hji : j = i
      · subst hji
        rw [owner, hstatus]
        simp [f, Status.isConsumed]
      · simp only [f, if_neg hji, Option.bind_some]
        rw [owner, hstatus' j hji]
        rfl
    change ((b.batches++[_])[k]?).bind _ = _
    by_cases hk : k = b.batches.length
    · simp only [f, if_pos hk, Option.bind_some]
      rw [hk, owner, if_pos ⟨hi,hlive⟩]
      simp
    simp only [f, if_neg hk, Option.bind_some]
    rw [owner]
    by_cases hlt : k < b.batches.length
    · rw [List.getElem?_append_left hlt]
    · rw [List.getElem?_eq_none (by rw [length_append, length_singleton]; omega),
        List.getElem?_eq_none (by omega)]
  · rw [batchesOf_consumed]
    by_cases hji : j = i
    · rw [if_pos hji, hji, hself, append_nil, ← hmine]
      exact h.order i hi
    · rw [if_neg hji, append_nil, hpending j hji]
      exact h.order j hj
  have hsum := @sum_change T (fun j => (pending b j : Multiset T))
    (fun j => (pending (consumed i b) j : Multiset T)) b.count i hi
    (fun j _ hji => by rw [hpending j hji])
  change (b.pushed : Multiset T) = ((b.batches++[Batch.mk i (b.data i) (b.heap.contents
    (b.data i))]).flatMap Batch.items : Multiset T)+
      ∑ j ∈ Finset.range b.count, (pending (consumed i b) j : Multiset T)
  rw [hself, Multiset.coe_nil, zero_add, hmine] at hsum
  rw [flatMap_append, ← Multiset.coe_add, flatMap_singleton, add_assoc, hsum]
  exact h.total

theorem step_intact {zero : T} (hcap : 0 < cap) {act : Act T} {b b' : Batcher T} (h : Intact cap b)
    (hstep : step cap zero act b = some b') : Intact cap b' := by
  cases act with
  | newStripe item =>
    cases hstep
    exact renewed_intact zero h hcap b.count (b.count+1) (.got item) rfl (by omega) (by omega)
      (fun j hj hne => by omega) (fun hno => absurd hno (lt_irrefl _))
  | get i item =>
    rw [step] at hstep
    split at hstep
    · rename_i hidle
      cases hstep
      have hi := h.known i (by rw [hidle]; rfl)
      have hlive : (b.status i).isConsumed = false := by rw [hidle]; rfl
      exact setStatus_intact h hi (.got item) hlive rfl (fun _ => (h.room i hi hlive).2.2 (by rw [hidle]; rfl))
    · cases hstep
  | append i spare =>
    rw [step] at hstep
    split at hstep
    · rename_i item hgot
      cases hstep
      exact append_intact h spare hgot
    · cases hstep
  | flush i =>
    rw [step] at hstep
    split at hstep
    · rename_i happ
      split at hstep
      · rename_i hfull
        cases hstep
        exact flush_intact h happ hfull
      rename_i hroom
      cases hstep
      exact setStatus_intact h (h.known i (by rw [happ]; rfl)) .finished (by rw [happ]; rfl) rfl
        (fun _ => not_le.mp hroom)
    · cases hstep
  | make i =>
    rw [step] at hstep
    split at hstep
    · rename_i hcons
      cases hstep
      have hi := h.known i (by rw [hcons]; rfl)
      exact renewed_intact zero h hcap i b.count .finished rfl hi le_rfl (fun j hj _ => hj)
        (fun _ => by rw [pending, hcons]; rfl)
    · cases hstep
  | put i =>
    rw [step] at hstep
    split at hstep
    · rename_i hfin
      cases hstep
      have hi := h.known i (by rw [hfin]; rfl)
      have hlive : (b.status i).isConsumed = false := by rw [hfin]; rfl
      exact setStatus_intact h hi .idle hlive rfl (fun _ => (h.room i hi hlive).2.2 (by rw [hfin]; rfl))
    · cases hstep
  | drop i =>
    rw [step] at hstep
    split at hstep
    · rename_i hidle
      cases hstep
      have hi := h.known i (by rw [hidle]; rfl)
      have hlive : (b.status i).isConsumed = false := by rw [hidle]; rfl
      exact setStatus_intact h hi .dropped hlive rfl (fun _ => (h.room i hi hlive).2.2 (by rw [hidle]; rfl))
    · cases hstep

/-! ## Runs -/

theorem effectiveSize_pos (stripeSize : ℤ) : 0 < effectiveSize stripeSize := by
  rw [effectiveSize]
  split <;> omega

def droppedItems (b : Batcher T) : Multiset T :=
  ∑ i ∈ (Finset.range b.count).filter (fun i => (b.status i).isDropped), (pending b i : Multiset T)

def liveItems (b : Batcher T) : Multiset T :=
  ∑ i ∈ (Finset.range b.count).filter (fun i => ¬(b.status i).isDropped), (pending b i : Multiset T)

theorem pending_split {b : Batcher T} :
    droppedItems b+liveItems b = ∑ i ∈ Finset.range b.count, (pending b i : Multiset T) :=
  Finset.sum_filter_add_sum_filter_not ..

/-- Whatever the pool does and however the calls overlap, the batches are full, nobody else has
their arrays, and every item that was pushed is once in a batch, a dropped or another stripe. -/
theorem batcher_conserves (stripeSize : ℤ) (zero : T) (b : Batcher T)
    (h : Reaches (fun act b b' => step (effectiveSize stripeSize) zero act b = some b')
      (fun _ _ => True) new b) :
    (∀ batch ∈ b.batches, batch.items.length = effectiveSize stripeSize ∧
      b.heap.contents batch.slice = batch.items) ∧
        (∀ o o' a, owner b o = some a → owner b o' = some a → o = o') ∧
          (b.pushed : Multiset T) =
            (b.batches.flatMap Batch.items : Multiset T)+(droppedItems b+liveItems b) ∧
              (b.pushed.Nodup → (b.batches.flatMap Batch.items).Nodup) ∧
                ∀ i, b.log i = batchesOf b i++(if i < b.count then pending b i else []) := by
  have hkept : Intact (effectiveSize stripeSize) b := h.invariant _ (new_intact)
    (fun act t u ht _ hstep => step_intact (effectiveSize_pos stripeSize) ht hstep)
  refine ⟨fun batch hmem => ?_,fun o o' a ho ho' => ?_,?_,fun hnd => ?_,fun i => ?_⟩
  · obtain ⟨_,hlen,_,hitems⟩ := hkept.batches batch hmem
    exact ⟨hlen,hitems⟩
  · exact (hkept.owns o' a ho').2 o ho
  · rw [pending_split]
    exact hkept.total
  · rw [← Multiset.coe_nodup, hkept.total] at hnd
    exact Multiset.coe_nodup.mp (Multiset.nodup_of_le (Multiset.le_add_right _ _) hnd)
  by_cases hi : i < b.count
  · rw [if_pos hi]
    exact hkept.order i hi
  rw [if_neg hi, append_nil, hkept.unused i (not_lt.mp hi), batchesOf, eq_comm,
    filter_eq_nil_iff.mpr, flatMap_nil]
  intro batch hmem heq
  have := (hkept.batches batch hmem).1
  rw [of_decide_eq_true heq] at this
  exact hi this

def twoStripes : List (Act ℕ) := [.newStripe 1, .newStripe 2, .append 1 [], .append 0 [], .flush 0,
  .put 0, .get 0 3, .append 0 [], .flush 1, .flush 0, .put 1, .drop 1, .make 0, .put 0]

/-- Two stripes, one of which becomes full. -/
theorem two_stripes_conserve : ∃ b : Batcher ℕ,
    Reaches (fun act b b' => step (effectiveSize 2) 0 act b = some b') (fun _ _ => True) new b ∧
      b.batches.map Batch.items = [[1,3]] ∧ pending b 1 = [2] ∧
        (∀ batch ∈ b.batches, batch.items.length = effectiveSize 2 ∧
          b.heap.contents batch.slice = batch.items) := by
  obtain ⟨b,hb,hall⟩ : ∃ b ∈ runAll (step (effectiveSize 2) 0) twoStripes new,
      b.batches.map Batch.items = [[1,3]] ∧ pending b 1 = [2] := by decide +kernel
  have hreach := reaches_of_runAll (step (effectiveSize 2) 0) (fun _ _ => True)
    (along_true _ _ _) hb
  exact ⟨b,hreach,hall.1,hall.2,(batcher_conserves 2 0 b hreach).1⟩

end GoCommon.StripedBatcher
