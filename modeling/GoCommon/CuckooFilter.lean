import Mathlib.Data.List.GetD
import Mathlib.Algebra.BigOperators.Group.Finset.Basic
import GoCommon.StepRuns

/-!
# The cuckoo filter

An item is known by a fingerprint that lies in one of two buckets, and the other
bucket of a fingerprint is found from the one it is in. When both buckets of an
item are full, fingerprints are moved to their other buckets until one of them
has room. The number of buckets is a power of two, so that the other bucket of
the other bucket is the first one.
-/

set_option autoImplicit false

namespace GoCommon.CuckooFilter
open List Function StepRuns

def bucketSize : ℕ := 4

theorem bucketSize_pos : 0 < bucketSize := Nat.zero_lt_succ 3
def maxKicks : ℕ := 500

structure Bucket where
  fps : List UInt16
  len : ℕ
  size : fps.length = bucketSize
  fits : len ≤ bucketSize

namespace Bucket

def empty : Bucket := ⟨List.replicate bucketSize 0,0,length_replicate,Nat.zero_le _⟩

def add (fp : UInt16) (b : Bucket) : Option Bucket :=
  if h : bucketSize ≤ b.len then none
  else some ⟨b.fps.set b.len fp,b.len+1,by rw [length_set, b.size],by omega⟩

def contains (fp : UInt16) (b : Bucket) : Bool := (List.range b.len).any (fun i => b.fps.getD i 0 == fp)

def remove (fp : UInt16) (b : Bucket) : Option Bucket :=
  ((List.range b.len).find? (fun i => b.fps.getD i 0 == fp)).map (fun i =>
    ⟨(b.fps.set i (b.fps.getD (b.len-1) 0)).set (b.len-1) 0,b.len-1,
      by rw [length_set, length_set, b.size],by have := b.fits; omega⟩)

def swap (idx : ℕ) (fp : UInt16) (b : Bucket) : UInt16 × Bucket :=
  (b.fps.getD idx 0,⟨b.fps.set idx fp,b.len,by rw [length_set, b.size],b.fits⟩)

def held (b : Bucket) : List UInt16 := b.fps.take b.len

end Bucket

structure Hashing where
  item : String → ℕ × ℕ
  finger : UInt16 → ℕ

def keyToHash (k : ℕ) : ℕ × ℕ := (k,0)

def sourceHashing (memHashString sum64String : String → ℕ) : Hashing :=
  ⟨fun s => (memHashString s,sum64String s),fun fp => (keyToHash fp.toNat).2⟩

abbrev Buckets (bits : ℕ) := Fin (2^bits) → Bucket

structure Filter where
  bits : ℕ
  buckets : Buckets bits
  count : ℕ

def bitsLoop (quarter : ℕ) : ℕ → ℕ → ℕ
  | 0, bits => bits
  | rest+1, bits => if 2^bits < quarter then bitsLoop quarter rest (bits+1) else bits

def newFilter (capacity : ℕ) : Filter := ⟨bitsLoop (capacity/bucketSize) 64 0,fun _ => .empty,0⟩

def fingerprint (h : ℕ) : UInt16 := if UInt16.ofNat (h%65535) = 0 then 1 else UInt16.ofNat (h%65535)

variable {bits : ℕ}

def home (bits h : ℕ) : Fin (2^bits) := ⟨h%2^bits,Nat.mod_lt _ (Nat.two_pow_pos bits)⟩

def other (hs : Hashing) (fp : UInt16) (i : Fin (2^bits)) : Fin (2^bits) :=
  ⟨i.val ^^^ (hs.finger fp%2^bits),Nat.xor_lt_two_pow i.isLt (Nat.mod_lt _ (Nat.two_pow_pos bits))⟩

def kicks (hs : Hashing) (picks : ℕ → Fin bucketSize) :
    ℕ → ℕ → Buckets bits → Fin (2^bits) → UInt16 → Buckets bits × Bool
  | 0, _, bs, _, _ => (bs,false)
  | rest+1, k, bs, i, fp =>
    let r := (bs i).swap (picks k) fp
    let bs := update bs i r.2
    let j := other hs r.1 i
    match (bs j).add r.1 with
    | some b => (update bs j b,true)
    | none => kicks hs picks rest (k+1) bs j r.1

namespace Filter

def fpOf (hs : Hashing) (item : String) : UInt16 := fingerprint (hs.item item).2

def first (hs : Hashing) (item : String) (bits : ℕ) : Fin (2^bits) := home bits (hs.item item).1

def add (hs : Hashing) (item : String) (coin : Bool) (picks : ℕ → Fin bucketSize) (f : Filter) :
    Filter × Bool :=
  let fp := fpOf hs item
  let i1 := first hs item f.bits
  let i2 := other hs fp i1
  match (f.buckets i1).add fp with
  | some b => (⟨f.bits,update f.buckets i1 b,f.count+1⟩,true)
  | none => match (f.buckets i2).add fp with
    | some b => (⟨f.bits,update f.buckets i2 b,f.count+1⟩,true)
    | none =>
      let r := kicks hs picks maxKicks 0 f.buckets (if coin then i2 else i1) fp
      (⟨f.bits,r.1,if r.2 then f.count+1 else f.count⟩,r.2)

def contains (hs : Hashing) (item : String) (f : Filter) : Bool :=
  (f.buckets (first hs item f.bits)).contains (fpOf hs item) ||
    (f.buckets (other hs (fpOf hs item) (first hs item f.bits))).contains (fpOf hs item)

def delete (hs : Hashing) (item : String) (f : Filter) : Filter × Bool :=
  let fp := fpOf hs item
  let i1 := first hs item f.bits
  let i2 := other hs fp i1
  match (f.buckets i1).remove fp with
  | some b => (⟨f.bits,update f.buckets i1 b,f.count-1⟩,true)
  | none => match (f.buckets i2).remove fp with
    | some b => (⟨f.bits,update f.buckets i2 b,f.count-1⟩,true)
    | none => (f,false)

end Filter

/-! ## Buckets as lists -/

theorem set_perm {α : Type} (ys : List α) (i : ℕ) (z : α) (hi : i < ys.length) :
    (z::ys).Perm (ys[i]::ys.set i z) := by
  induction ys generalizing i with
  | nil => simp at hi
  | cons y ys ih =>
    cases i with
    | zero => exact List.Perm.swap _ _ _
    | succ i =>
      have h1 := ih i (by simpa using hi)
      exact (List.Perm.swap _ _ _).trans ((h1.cons y).trans (List.Perm.swap _ _ _))

variable {fp : UInt16} {b : Bucket} {x : String}

theorem add_held {b' : Bucket} (h : b.add fp = some b') : b'.held = b.held++[fp] := by
  rw [Bucket.add] at h
  split at h
  · cases h
  cases h
  have hlen : b.len < b.fps.length := by rw [b.size]; omega
  change (b.fps.set b.len fp).take (b.len+1) = b.fps.take b.len++[fp]
  rw [take_add_one, take_set_of_le le_rfl, List.getElem?_set_self hlen]
  rfl

theorem add_none (h : b.add fp = none) : b.len = bucketSize := by
  rw [Bucket.add] at h
  split at h
  · exact le_antisymm b.fits ‹_›
  · cases h

theorem getD_held {i : ℕ} (hi : i < b.len) (hl : i < b.held.length) :
    b.fps.getD i 0 = b.held[i] := by
  have hlt : i < b.fps.length := by rw [b.size]; have := b.fits; omega
  rw [getD_eq_getElem _ _ hlt]
  simp [Bucket.held]

theorem held_length : b.held.length = b.len := by
  rw [Bucket.held, length_take, b.size, min_eq_left b.fits]

theorem contains_held : b.contains fp = true ↔ fp ∈ b.held := by
  rw [Bucket.contains, any_eq_true, mem_iff_getElem]
  constructor
  · rintro ⟨i,hi,he⟩
    rw [mem_range] at hi
    have hl : i < b.held.length := by rw [held_length]; exact hi
    rw [getD_held hi hl, beq_iff_eq] at he
    exact ⟨i,hl,he⟩
  · rintro ⟨i,hl,he⟩
    have hi : i < b.len := by rwa [held_length] at hl
    exact ⟨i,mem_range.mpr hi,by rw [getD_held hi hl, he, beq_self_eq_true]⟩

theorem remove_none (h : b.remove fp = none) : fp ∉ b.held := by
  rw [Bucket.remove, Option.map_eq_none_iff, List.find?_eq_none] at h
  intro hm
  rw [← contains_held, Bucket.contains, any_eq_true] at hm
  obtain ⟨i,hi,he⟩ := hm
  exact h i hi he

theorem remove_held {b' : Bucket} (h : b.remove fp = some b') : b.held.Perm (fp::b'.held) := by
  rw [Bucket.remove, Option.map_eq_some_iff] at h
  obtain ⟨i,hi,rfl⟩ := h
  have hfp := List.find?_some hi
  have hil := mem_range.mp (mem_of_find?_eq_some hi)
  have hfit := b.fits
  have hsize := b.size
  have hlast : b.held = b.fps.take (b.len-1)++[b.fps.getD (b.len-1) 0] := by
    rw [Bucket.held, show b.len = b.len-1+1 by omega, take_add_one, List.getElem?_eq_getElem (by omega), getD_eq_getElem _ _ (by omega)]
    rfl
  change b.held.Perm (fp::((b.fps.set i (b.fps.getD (b.len-1) 0)).set (b.len-1) 0).take (b.len-1))
  rw [take_set_of_le le_rfl, hlast]
  rw [beq_iff_eq] at hfp
  refine (perm_append_singleton _ _).trans ?_
  by_cases hend : i = b.len-1
  · subst hend
    rw [take_set_of_le le_rfl, hfp]
  have hlt : i < (b.fps.take (b.len-1)).length := by rw [length_take]; omega
  have hperm := set_perm (b.fps.take (b.len-1)) i (b.fps.getD (b.len-1) 0) hlt
  have hget : (b.fps.take (b.len-1))[i] = fp := by
    rw [getElem_take, ← hfp, getD_eq_getElem _ _ (by omega)]
  rw [hget] at hperm
  rwa [take_set]

theorem swap_held {idx : ℕ} (fp : UInt16) (hi : idx < bucketSize) (hb : b.len = bucketSize) :
    (fp::b.held).Perm ((b.swap idx fp).1::(b.swap idx fp).2.held) := by
  have hsize := b.size
  have hlt : idx < b.fps.length := by omega
  have h1 : b.held = b.fps := take_of_length_le (by omega)
  have h2 : (b.swap idx fp).2.held = b.fps.set idx fp :=
    take_of_length_le (by
      change (b.fps.set idx fp).length ≤ b.len
      rw [length_set]
      omega)
  have h3 : (b.swap idx fp).1 = b.fps[idx] := getD_eq_getElem _ _ hlt
  rw [h1, h2, h3]
  exact set_perm b.fps idx fp hlt

/-! ## Copies of a fingerprint -/

theorem other_other (hs : Hashing) (fp : UInt16) (i : Fin (2^bits)) : other hs fp (other hs fp i) = i := by
  refine Fin.ext ?_
  change (i.val ^^^ (hs.finger fp%2^bits)) ^^^ (hs.finger fp%2^bits) = i.val
  rw [Nat.xor_assoc, Nat.xor_self, Nat.xor_zero]

def places (hs : Hashing) (fp : UInt16) (i : Fin (2^bits)) : Finset (Fin (2^bits)) := {i,other hs fp i}

theorem other_mem_places (hs : Hashing) (fp : UInt16) (i j : Fin (2^bits)) :
    other hs fp j ∈ places hs fp i ↔ j ∈ places hs fp i := by
  rw [places, Finset.mem_insert, Finset.mem_singleton, Finset.mem_insert, Finset.mem_singleton]
  constructor
  · rintro (h | h)
    · exact .inr (by rw [← h, other_other])
    · exact .inl (by rw [← other_other hs fp j, h, other_other])
  · rintro (rfl | rfl)
    · exact .inr rfl
    · exact .inl (other_other hs fp i)

def copies (bs : Buckets bits) (fp : UInt16) (j : Fin (2^bits)) : ℕ := (bs j).held.count fp

def total (hs : Hashing) (bs : Buckets bits) (fp : UInt16) (i : Fin (2^bits)) : ℕ :=
  ∑ j ∈ places hs fp i, copies bs fp j

def share (hs : Hashing) (q : UInt16) (j : Fin (2^bits)) (fp : UInt16) (i : Fin (2^bits)) : ℕ :=
  if fp = q ∧ j ∈ places hs fp i then 1 else 0

theorem share_other {hs : Hashing} {q : UInt16} {i j : Fin (2^bits)} :
    share hs q (other hs q j) fp i = share hs q j fp i := by
  refine if_congr (and_congr_right (fun h => ?_)) rfl rfl
  rw [h]
  exact other_mem_places hs q i j

theorem sum_share {hs : Hashing} {q : UInt16} {i j : Fin (2^bits)} :
    ∑ k ∈ places hs fp i, (if k = j ∧ fp = q then 1 else 0) = share hs q j fp i := by
  by_cases h : fp = q
  · simp only [h, and_true, share, true_and]
    rw [Finset.sum_ite_eq']
  · simp [h, share]

section Counting
variable (hs : Hashing) (bs : Buckets bits) (j : Fin (2^bits)) (q fp : UInt16)

theorem copies_update {k : Fin (2^bits)} :
    copies (update bs j b) fp k = if k = j then b.held.count fp else copies bs fp k := by
  rw [copies, update_apply]
  split
  · rfl
  · rfl

theorem total_add (i : Fin (2^bits)) (h : (bs j).add q = some b) :
    total hs (update bs j b) fp i = total hs bs fp i+share hs q j fp i := by
  rw [total, total, ← sum_share, ← Finset.sum_add_distrib]
  refine Finset.sum_congr rfl (fun k _ => ?_)
  rw [copies_update]
  by_cases hk : k = j
  · rw [hk, copies, add_held h]
    by_cases hq : fp = q
    · simp [hq]
    · simp [hq, Ne.symm hq]
  · simp [hk]

theorem total_remove (i : Fin (2^bits)) (h : (bs j).remove q = some b) :
    total hs (update bs j b) fp i+share hs q j fp i = total hs bs fp i := by
  rw [total, ← sum_share, ← Finset.sum_add_distrib]
  refine Finset.sum_congr rfl (fun k _ => ?_)
  rw [copies_update]
  by_cases hk : k = j
  · rw [hk, copies, (remove_held h).count_eq]
    by_cases hq : fp = q
    · simp [hq]
    · simp [hq, Ne.symm hq]
  · simp [hk]

theorem total_swap (idx : Fin bucketSize) (i : Fin (2^bits)) (hf : (bs j).len = bucketSize) :
    total hs (update bs j ((bs j).swap idx q).2) fp i+share hs ((bs j).swap idx q).1 j fp i =
      total hs bs fp i+share hs q j fp i := by
  rw [total, total, ← sum_share, ← sum_share, ← Finset.sum_add_distrib, ← Finset.sum_add_distrib]
  refine Finset.sum_congr rfl (fun k _ => ?_)
  rw [copies_update]
  by_cases hk : k = j
  · have hp := (swap_held q idx.isLt hf).count_eq fp
    rw [count_cons, count_cons] at hp
    rw [if_pos hk, hk, copies]
    simp only [true_and]
    simp only [beq_iff_eq, eq_comm (b := fp)] at hp
    omega
  · simp [hk]

end Counting

theorem kicks_total (hs : Hashing) (picks : ℕ → Fin bucketSize) (rest k : ℕ) (bs : Buckets bits)
    (j : Fin (2^bits)) (q : UInt16) (hf : (bs j).len = bucketSize)
    (h : (kicks hs picks rest k bs j q).2 = true) (fp : UInt16) (i : Fin (2^bits)) :
    total hs (kicks hs picks rest k bs j q).1 fp i = total hs bs fp i+share hs q j fp i := by
  induction rest generalizing k bs j q with
  | zero => cases h
  | succ rest ih =>
    have hswap := total_swap hs bs j q fp (picks k) i hf
    rw [kicks] at h ⊢
    generalize ((bs j).swap (picks k) q).1 = old at *
    generalize update bs j ((bs j).swap (picks k) q).2 = bs' at *
    rcases ha : (bs' (other hs old j)).add old with _ | b
    · simp only [ha] at h ⊢
      rw [ih (k+1) bs' (other hs old j) old (add_none ha) h, share_other, hswap]
    · rw [total_add hs bs' _ old fp i ha, share_other, hswap]

/-! ## Outstanding items -/

structure Ledger (hs : Hashing) (f : Filter) (out : List String) : Prop where
  total : ∀ fp i, total hs f.buckets fp i =
    (out.map (fun x => share hs (Filter.fpOf hs x) (Filter.first hs x f.bits) fp i)).sum
  count : f.count = out.length

section Ledgers
variable {hs : Hashing} {f : Filter} {out : List String}

theorem newFilter_ledger (hs : Hashing) (capacity : ℕ) : Ledger hs (newFilter capacity) [] :=
  ⟨fun _ _ => Finset.sum_eq_zero (fun _ _ => rfl),rfl⟩

theorem Ledger.perm (h : Ledger hs f out) {out' : List String} (hp : out.Perm out') : Ledger hs f out' :=
  ⟨fun fp i => by rw [h.total, (hp.map _).sum_eq],by rw [h.count, hp.length_eq]⟩

theorem Ledger.add (h : Ledger hs f out) {coin : Bool} {picks : ℕ → Fin bucketSize}
    (ha : (f.add hs x coin picks).2 = true) : Ledger hs (f.add hs x coin picks).1 (x::out) := by
  have hbuild : ∀ bs : Buckets f.bits, (∀ fp i, CuckooFilter.total hs bs fp i =
      CuckooFilter.total hs f.buckets fp i+share hs (Filter.fpOf hs x) (Filter.first hs x f.bits) fp i) →
      Ledger hs ⟨f.bits,bs,f.count+1⟩ (x::out) := by
    intro bs hbs
    refine ⟨fun fp i => ?_,by rw [length_cons, h.count]⟩
    rw [hbs, h.total, map_cons, sum_cons, Nat.add_comm]
  rw [Filter.add] at ha ⊢
  rcases h1 : (f.buckets (Filter.first hs x f.bits)).add (Filter.fpOf hs x) with _ | b
  · rcases h2 : (f.buckets (other hs (Filter.fpOf hs x) (Filter.first hs x f.bits))).add
        (Filter.fpOf hs x) with _ | b
    · simp only [h1, h2] at ha ⊢
      simp only [ha, if_true]
      refine hbuild _ (fun fp i => ?_)
      cases coin with
      | false => exact kicks_total hs picks _ _ _ _ _ (add_none h1) ha fp i
      | true =>
        rw [← share_other]
        exact kicks_total hs picks _ _ _ _ _ (add_none h2) ha fp i
    · refine hbuild _ (fun fp i => ?_)
      rw [total_add hs f.buckets _ _ fp i h2, share_other]
  · exact hbuild _ (fun fp i => total_add hs f.buckets _ _ fp i h1)

theorem self_mem_places (hs : Hashing) {i : Fin (2^bits)} : i ∈ places hs fp i :=
  Finset.mem_insert_self _ _

theorem Ledger.present (h : Ledger hs f out) (hx : x ∈ out) :
    Filter.fpOf hs x ∈ (f.buckets (Filter.first hs x f.bits)).held ∨
      Filter.fpOf hs x ∈ (f.buckets (other hs (Filter.fpOf hs x) (Filter.first hs x f.bits))).held := by
  have hone : share hs (Filter.fpOf hs x) (Filter.first hs x f.bits) (Filter.fpOf hs x)
      (Filter.first hs x f.bits) = 1 := if_pos ⟨rfl,self_mem_places hs⟩
  have hle : 1 ≤ CuckooFilter.total hs f.buckets (Filter.fpOf hs x) (Filter.first hs x f.bits) := by
    rw [h.total, ← hone]
    exact single_le_sum (fun _ _ => Nat.zero_le _) _ (mem_map_of_mem hx)
  obtain ⟨j,hj,hpos⟩ : ∃ j ∈ places hs (Filter.fpOf hs x) (Filter.first hs x f.bits),
      0 < copies f.buckets (Filter.fpOf hs x) j := by
    by_contra hc
    rw [CuckooFilter.total, Finset.sum_eq_zero (fun j hj => ?_)] at hle
    · omega
    · by_contra h0
      exact hc ⟨j,hj,Nat.pos_of_ne_zero h0⟩
  have hmem := count_pos_iff.mp hpos
  rw [places, Finset.mem_insert, Finset.mem_singleton] at hj
  rcases hj with rfl | rfl
  · exact .inl hmem
  · exact .inr hmem

theorem Ledger.contains (h : Ledger hs f out) (hx : x ∈ out) : f.contains hs x = true := by
  rw [Filter.contains, Bool.or_eq_true, contains_held, contains_held]
  exact h.present hx

theorem Ledger.delete (h : Ledger hs f out) (hx : x ∈ out) :
    (f.delete hs x).2 = true ∧ Ledger hs (f.delete hs x).1 (out.erase x) := by
  have hperm := perm_cons_erase hx
  have hbuild : ∀ bs : Buckets f.bits, (∀ fp i, CuckooFilter.total hs bs fp i+
      share hs (Filter.fpOf hs x) (Filter.first hs x f.bits) fp i = CuckooFilter.total hs f.buckets fp i) →
      Ledger hs ⟨f.bits,bs,f.count-1⟩ (out.erase x) := by
    intro bs hbs
    have h' := h.perm hperm
    refine ⟨fun fp i => ?_,by rw [h'.count]; rfl⟩
    have := h'.total fp i
    rw [← hbs, Nat.add_comm] at this
    exact Nat.add_left_cancel this
  have hpres := h.present hx
  rw [Filter.delete]
  rcases h1 : (f.buckets (Filter.first hs x f.bits)).remove (Filter.fpOf hs x) with _ | b
  · rcases h2 : (f.buckets (other hs (Filter.fpOf hs x) (Filter.first hs x f.bits))).remove
        (Filter.fpOf hs x) with _ | b
    · exact absurd hpres (not_or.mpr ⟨remove_none h1,remove_none h2⟩)
    · refine ⟨rfl,hbuild _ (fun fp i => ?_)⟩
      rw [← share_other]
      exact total_remove hs f.buckets _ _ fp i h2
  · exact ⟨rfl,hbuild _ (fun fp i => total_remove hs f.buckets _ _ fp i h1)⟩

end Ledgers

/-! ## Runs -/

structure History where
  filter : Filter
  added : List String
  deleted : List String

inductive Op where
  | add (item : String) (coin : Bool) (picks : ℕ → Fin bucketSize)
  | delete (item : String)

def step (hs : Hashing) : Op → History → Option History
  | .add x coin picks, s => if (s.filter.add hs x coin picks).2 then
      some ⟨(s.filter.add hs x coin picks).1,x::s.added,s.deleted⟩ else none
  | .delete x, s => some ⟨(s.filter.delete hs x).1,s.added,x::s.deleted⟩

/-- An item is deleted only while it has been added more often than deleted. -/
def Allowed : Op → History → Prop
  | .add .., _ => True
  | .delete x, s => s.deleted.count x < s.added.count x

instance (op : Op) (s : History) : Decidable (Allowed op s) := match op with
  | .add .. => isTrue trivial
  | .delete _ => inferInstanceAs (Decidable (_ < _))

structure Booked (hs : Hashing) (s : History) : Prop where
  items : ∃ out, (out++s.deleted).Perm s.added ∧ Ledger hs s.filter out

theorem outstanding {out deleted added : List String} (h : (out++deleted).Perm added) (x : String) :
    x ∈ out ↔ deleted.count x < added.count x := by
  have := h.count_eq x
  rw [count_append] at this
  rw [← count_pos_iff]
  omega

theorem step_booked (hs : Hashing) (op : Op) (s u : History) (h : Booked hs s) (hg : Allowed op s)
    (hst : step hs op s = some u) : Booked hs u := by
  obtain ⟨out,hp,hl⟩ := h
  cases op with
  | add x coin picks =>
    rw [step] at hst
    split at hst
    · rename_i ha
      cases hst
      exact ⟨x::out,hp.cons x,hl.add ha⟩
    · cases hst
  | delete x =>
    cases hst
    have hx := (outstanding hp x).mpr hg
    refine ⟨out.erase x,?_,(hl.delete hx).2⟩
    exact (perm_middle.trans ((perm_cons_erase hx).symm.append_right _)).trans hp

/-- While adds succeed and only outstanding items are deleted, every outstanding item
is found and can be deleted, and the count is the number of outstanding items. -/
theorem no_false_negatives (hs : Hashing) (capacity : ℕ) (s : History)
    (h : Reaches (fun op s u => step hs op s = some u) Allowed ⟨newFilter capacity,[],[]⟩ s) :
    (∀ x, s.deleted.count x < s.added.count x →
      s.filter.contains hs x = true ∧ (s.filter.delete hs x).2 = true) ∧
    s.filter.count+s.deleted.length = s.added.length := by
  have hk : Booked hs s := h.invariant (Booked hs) ⟨[],List.Perm.nil,newFilter_ledger hs capacity⟩ (step_booked hs)
  obtain ⟨out,hp,hl⟩ := hk
  refine ⟨fun x hx => ?_,?_⟩
  · have hm := (outstanding hp x).mpr hx
    exact ⟨hl.contains hm,(hl.delete hm).1⟩
  · rw [hl.count, ← length_append, hp.length_eq]

def collision : List Op :=
  [.add "a" true (fun _ => ⟨0,by decide⟩),.add "b" true (fun _ => ⟨0,by decide⟩),.delete "a"]

def constantHashing : Hashing := sourceHashing (fun _ => 3) (fun _ => 7)

/-- Two items with one fingerprint, of which one is deleted. -/
theorem colliding_items_kept : ∃ s, runAll (step constantHashing) collision ⟨newFilter 8,[],[]⟩ = some s ∧
    s.filter.contains constantHashing "b" = true ∧ s.filter.count = 1 := by
  obtain ⟨s,hs,ha,hd⟩ : ∃ s ∈ runAll (step constantHashing) collision ⟨newFilter 8,[],[]⟩,
      s.added = ["b","a"] ∧ s.deleted = ["a"] := by decide +kernel
  obtain ⟨h1,h2⟩ := no_false_negatives constantHashing 8 s
    (reaches_of_runAll _ _ (by decide +kernel) hs)
  rw [ha, hd] at h1 h2
  exact ⟨s,hs,(h1 "b" (by decide)).1,by simpa using h2⟩

end GoCommon.CuckooFilter
