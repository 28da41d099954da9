import Mathlib.Data.Finset.Lattice.Fold
import Mathlib.Data.List.GetD
import Mathlib.Data.Nat.Size
import Mathlib.Data.Rat.Defs
import Mathlib.Order.Lattice.Nat
import Mathlib.Tactic.NormNum

/-!
# HyperLogLog

A hash chooses a register by its low bits, and the register keeps the largest position of
the first one among the other bits. So the registers are maxima over the set of the hashes,
and merging is the union of the sets. A hash without any one among the other bits has
a position as if all 64 bits were counted, which is out of range.
-/

set_option autoImplicit false

namespace GoCommon.HyperLogLog
open List

def p : ℕ := 14
def m : ℕ := 2^p
def mMask : UInt64 := UInt64.ofNat (m-1)

structure HLL where
  registers : List UInt8
  deriving DecidableEq

def new : HLL := ⟨List.replicate m 0⟩

def leadingZeros64 (x : UInt64) : ℕ := 64-x.toNat.size

def rho (hash : UInt64) : UInt8 :=
  let w := hash >>> UInt64.ofNat p
  UInt8.ofNat (leadingZeros64 (w <<< UInt64.ofNat p))+1

def add (hash : UInt64) (h : HLL) : Option (HLL × Bool) := do
  let idx := (hash &&& mMask).toNat
  let register ← h.registers[idx]?
  if register < rho hash then some (⟨h.registers.set idx (rho hash)⟩,true) else some (h,false)

def mergeLoop (other : List UInt8) : ℕ → ℕ → List UInt8 → Option (List UInt8)
  | 0, _, rs => some rs
  | rest+1, i, rs => do
    let o ← other[i]?
    let r ← rs[i]?
    mergeLoop other rest (i+1) (if r < o then rs.set i o else rs)

def merge (other h : HLL) : Option HLL :=
  if other.registers.length ≠ m then some h
  else do
    let registers ← mergeLoop other.registers m 0 h.registers
    some ⟨registers⟩

structure Floats (F : Type) where
  ofRat : ℚ → F
  add : F → F → F
  sub : F → F → F
  mul : F → F → F
  div : F → F → F
  neg : F → F
  log : F → F
  le : F → F → Bool
  lt : F → F → Bool
  toInt64 : F → ℤ

def oneShifted (val : UInt8) : ℕ := if val.toNat < 64 then 2^val.toNat else 0

def alphaMM : ℚ := 7213/10000/(1+1079/1000/m)*m*m

def count {F : Type} (fl : Floats F) (h : HLL) : ℤ :=
  let (sum,zeros) := h.registers.foldl (fun (acc : F × ℕ) val =>
    (fl.add acc.1 (fl.div (fl.ofRat 1) (fl.ofRat (oneShifted val))),if val = 0 then acc.2+1 else acc.2))
    (fl.ofRat 0,0)
  let estimate := fl.div (fl.ofRat alphaMM) sum
  let estimate :=
    if fl.le estimate (fl.mul (fl.ofRat (5/2)) (fl.ofRat m)) then
      if 0 < zeros then fl.mul (fl.ofRat m) (fl.log (fl.div (fl.ofRat m) (fl.ofRat zeros))) else estimate
    else if fl.lt (fl.mul (fl.ofRat (1/30)) (fl.ofRat (2^64))) estimate then
      fl.mul (fl.neg (fl.ofRat (2^64)))
        (fl.log (fl.sub (fl.ofRat 1) (fl.div estimate (fl.ofRat (2^64)))))
    else estimate
  fl.toInt64 estimate

/-! ## Positions -/

theorem index_lt (hash : UInt64) : (hash &&& mMask).toNat < m := by
  have hle : (hash &&& mMask).toNat ≤ mMask.toNat := by
    exact Nat.and_le_right
  have hmask : mMask.toNat = m-1 := rfl
  have hm : m = 16384 := rfl
  omega

theorem shifted_toNat {hash : UInt64} :
    ((hash >>> UInt64.ofNat p) <<< UInt64.ofNat p).toNat = hash.toNat/2^14*2^14 := by
  have hlt := hash.toNat_lt
  change (hash.toNat >>> 14) <<< 14%2^64 = _
  omega

theorem rho_toNat {hash : UInt64} : (rho hash).toNat = 65-(hash.toNat/2^14*2^14).size := by
  have hle : (hash.toNat/2^14*2^14).size ≤ 64 := by
    have hlt := hash.toNat_lt
    apply Nat.size_le.mpr
    omega
  rw [rho, leadingZeros64, shifted_toNat]
  change ((64-_)%256+1)%256 = _
  omega

theorem rho_le_iff (hash : UInt64) : (rho hash).toNat ≤ 64-p+1 ↔ 2^p ≤ hash.toNat := by
  change (rho hash).toNat ≤ 51 ↔ 2^14 ≤ hash.toNat
  rw [rho_toNat]
  by_cases h : 2^14 ≤ hash.toNat
  · have hsize : 14 < (hash.toNat/2^14*2^14).size := Nat.lt_size.mpr (by omega)
    exact iff_of_true (by omega) h
  · have hzero : hash.toNat/2^14*2^14 = 0 := by omega
    rw [hzero, Nat.size_zero]
    exact iff_of_false (by omega) h

/-! ## Registers -/

def register (rs : List UInt8) (i : ℕ) : ℕ := (rs.getD i 0).toNat

theorem register_ext {rs rs' : List UInt8} (hlen : rs.length = rs'.length)
    (h : ∀ i, register rs i = register rs' i) : rs = rs' := by
  apply ext_getElem hlen
  intro i hi hi'
  have hi := h i
  rw [register, register, getD_eq_getElem _ _ ‹i < rs.length›, getD_eq_getElem _ _ hi'] at hi
  exact UInt8.toNat_inj.mp hi

theorem register_set {rs : List UInt8} {i : ℕ} (hi : i < rs.length) (v : UInt8) (k : ℕ) :
    register (rs.set i v) k = if k = i then v.toNat else register rs k := by
  rw [register, register, getD_eq_getElem?_getD, getD_eq_getElem?_getD, List.getElem?_set]
  by_cases hk : k = i
  · rw [if_pos hk.symm, if_pos hi, if_pos hk, Option.getD_some]
  · rw [if_neg fun heq => hk heq.symm, if_neg hk]

theorem register_raise {rs : List UInt8} {i : ℕ} (hi : i < rs.length) (v : UInt8) (k : ℕ) :
    register (if rs[i] < v then rs.set i v else rs) k =
      max (register rs k) (if k = i then v.toNat else 0) := by
  have hget : register rs i = rs[i].toNat := by rw [register, getD_eq_getElem _ _ hi]
  split
  · rename_i hlt
    rw [UInt8.lt_iff_toNat_lt] at hlt
    rw [register_set hi]
    split
    · rename_i hk
      rw [hk]
      omega
    · omega
  rename_i hlt
  rw [UInt8.lt_iff_toNat_lt] at hlt
  split
  · rename_i hk
    rw [hk]
    omega
  · omega

def hit (hash : UInt64) (i : ℕ) : ℕ := if i = (hash &&& mMask).toNat then (rho hash).toNat else 0

section Calls
variable {h : HLL} (hsize : h.registers.length = m)
include hsize

theorem add_spec (hash : UInt64) : ∃ h' changed, add hash h = some (h',changed) ∧
    h'.registers.length = m ∧ (∀ i, register h'.registers i = max (register h.registers i) (hit hash i)) ∧
      (changed = true ↔ h' ≠ h) := by
  have hi : (hash &&& mMask).toNat < h.registers.length := hsize ▸ index_lt hash
  have hraise := register_raise hi (rho hash)
  have hadd : add hash h = if h.registers[(hash &&& mMask).toNat] < rho hash then
      some (⟨h.registers.set (hash &&& mMask).toNat (rho hash)⟩,true) else some (h,false) := by
    simp only [add, List.getElem?_eq_getElem hi, Option.bind_eq_bind, Option.bind_some]
  rw [hadd]
  split
  · rename_i hlt
    rw [if_pos hlt] at hraise
    refine ⟨_,true,rfl,by rw [length_set, hsize],hraise,iff_of_true rfl fun heq => ?_⟩
    have hsame := register_set hi (rho hash) (hash &&& mMask).toNat
    rw [if_pos rfl, HLL.mk.inj heq, register, getD_eq_getElem _ _ hi] at hsame
    exact absurd (UInt8.lt_iff_toNat_lt.mp hlt) (by omega)
  · rename_i hlt
    rw [if_neg hlt] at hraise
    exact ⟨h,false,rfl,hsize,hraise,iff_of_false Bool.noConfusion fun hne => hne rfl⟩

omit hsize in
theorem mergeLoop_spec (other : List UInt8) (rest i : ℕ) (rs : List UInt8) (hrs : i+rest ≤ rs.length)
    (hother : i+rest ≤ other.length) : ∃ rs', mergeLoop other rest i rs = some rs' ∧
      rs'.length = rs.length ∧ ∀ k, register rs' k =
        max (register rs k) (if i ≤ k ∧ k < i+rest then register other k else 0) := by
  induction rest generalizing i rs with
  | zero => exact ⟨rs,rfl,rfl,fun k => by rw [if_neg (by omega), Nat.max_zero]⟩
  | succ rest ih =>
    have hi : i < rs.length := by omega
    have hio : i < other.length := by omega
    have hraise := register_raise hi other[i]
    have hlen : (if rs[i] < other[i] then rs.set i other[i] else rs).length = rs.length := by
      split
      · exact length_set
      · rfl
    obtain ⟨rs',hloop,hlen',hmax⟩ := ih (i+1) (if rs[i] < other[i] then rs.set i other[i] else rs)
      (by omega) (by omega)
    refine ⟨rs',?_,hlen'.trans hlen,fun k => ?_⟩
    · rw [mergeLoop, List.getElem?_eq_getElem hi, List.getElem?_eq_getElem hio]
      exact hloop
    have hget : register other i = other[i].toNat := by rw [register, getD_eq_getElem _ _ hio]
    rw [hmax, hraise, max_assoc, ← hget]
    congr 1
    by_cases hk : k = i
    · rw [if_pos hk, if_neg (by omega), if_pos (by omega), hk, Nat.max_zero]
    · rw [if_neg hk, Nat.zero_max]
      exact if_congr (by omega) rfl rfl

theorem merge_spec {other : HLL} (hother : other.registers.length = m) : ∃ h', merge other h = some h' ∧
    h'.registers.length = m ∧
      ∀ i, register h'.registers i = max (register h.registers i) (register other.registers i) := by
  obtain ⟨rs,hloop,hlen,hmax⟩ := mergeLoop_spec other.registers m 0 h.registers (by omega) (by omega)
  refine ⟨⟨rs⟩,?_,hlen.trans hsize,fun i => ?_⟩
  · rw [merge, if_neg (not_not.mpr hother), hloop]
    rfl
  rw [hmax]
  congr 1
  by_cases hi : i < m
  · exact if_pos (by omega)
  · rw [if_neg (by omega), register, getD_eq_default _ _ (by omega)]
    rfl

end Calls

/-! ## Sets of hashes -/

structure Counts (h : HLL) (s : Finset UInt64) : Prop where
  size : h.registers.length = m
  largest : ∀ i, register h.registers i = s.sup (fun hash => hit hash i)

variable {s : Finset UInt64}

theorem Counts.unique {h h' : HLL} (hs : Counts h s) (hs' : Counts h' s) : h = h' := by
  have hregisters := register_ext (hs.size.trans hs'.size.symm) fun i =>
    (hs.largest i).trans (hs'.largest i).symm
  exact congrArg HLL.mk hregisters

theorem new_counts : Counts new ∅ := by
  refine ⟨length_replicate,fun i => ?_⟩
  rw [register, new, getD_eq_getElem?_getD, List.getElem?_replicate]
  split <;> rfl

theorem Counts.add {h : HLL} (hs : Counts h s) (hash : UInt64) :
    ∃ h' changed, HyperLogLog.add hash h = some (h',changed) ∧ Counts h' (insert hash s) ∧
      (changed = true ↔ h' ≠ h) := by
  obtain ⟨h',changed,hadd,hsize,hmax,hchanged⟩ := add_spec hs.size hash
  refine ⟨h',changed,hadd,⟨hsize,fun i => ?_⟩,hchanged⟩
  rw [hmax, hs.largest, Finset.sup_insert, max_comm]

theorem Counts.merge {h other : HLL} {s t : Finset UInt64} (hs : Counts h s) (ht : Counts other t) :
    ∃ h', HyperLogLog.merge other h = some h' ∧ Counts h' (s ∪ t) := by
  obtain ⟨h',hmerge,hsize,hmax⟩ := merge_spec hs.size ht.size
  refine ⟨h',hmerge,hsize,fun i => ?_⟩
  rw [hmax, hs.largest, ht.largest, Finset.sup_union]

def addAll : List UInt64 → HLL → Option HLL
  | [], h => some h
  | hash::hashes, h => do
    let (h,_) ← add hash h
    addAll hashes h

theorem addAll_counts (hashes : List UInt64) (h : HLL) (s : Finset UInt64) (hs : Counts h s) :
    ∃ h', addAll hashes h = some h' ∧ Counts h' (s ∪ hashes.toFinset) := by
  induction hashes generalizing h s with
  | nil => exact ⟨h,rfl,by rw [toFinset_nil, Finset.union_empty]; exact hs⟩
  | cons hash hashes ih =>
    obtain ⟨h₁,changed,hadd,hs₁,_⟩ := hs.add hash
    obtain ⟨h₂,hall,hs₂⟩ := ih h₁ (insert hash s) hs₁
    refine ⟨h₂,?_,?_⟩
    · rw [addAll, hadd]
      exact hall
    · rw [toFinset_cons, Finset.union_insert, ← Finset.insert_union]
      exact hs₂

/-- Merging is the union of the hashes: the registers depend only on their set, and so does the
estimate. A call of Add tells whether it has changed the registers. -/
theorem merge_is_union : (∀ xs ys zs : List UInt64, (∀ x, x ∈ zs ↔ x ∈ xs ∨ x ∈ ys) →
      ∃ a b c, addAll xs new = some a ∧ addAll ys new = some b ∧ addAll zs new = some c ∧
        merge b a = some c) ∧
    (∀ xs zs : List UInt64, (∀ x, x ∈ zs ↔ x ∈ xs) → ∃ a c, addAll xs new = some a ∧
      addAll zs new = some c ∧ ∀ (F : Type) (fl : Floats F), count fl a = count fl c) ∧
    ∀ (hash : UInt64) (h : HLL), h.registers.length = m → ∃ h' changed, add hash h = some (h',changed) ∧
      (changed = true ↔ h' ≠ h) := by
  have hall : ∀ xs : List UInt64, ∃ a, addAll xs new = some a ∧ Counts a xs.toFinset := by
    intro xs
    have := addAll_counts xs new ∅ new_counts
    rwa [Finset.empty_union] at this
  refine ⟨fun xs ys zs hset => ?_,fun xs zs hset => ?_,fun hash h hsize => ?_⟩
  · obtain ⟨a,ha,hxs⟩ := hall xs
    obtain ⟨b,hb,hys⟩ := hall ys
    obtain ⟨c,hc,hzs⟩ := hall zs
    obtain ⟨d,hmerge,hd⟩ := hxs.merge hys
    have hunion : zs.toFinset = xs.toFinset ∪ ys.toFinset := by
      ext x
      rw [Finset.mem_union, mem_toFinset, mem_toFinset, mem_toFinset, hset]
    rw [← hunion] at hd
    exact ⟨a,b,c,ha,hb,hc,by rw [hmerge, hd.unique hzs]⟩
  · obtain ⟨a,ha,hxs⟩ := hall xs
    obtain ⟨c,hc,hzs⟩ := hall zs
    have hsame : zs.toFinset = xs.toFinset := by
      ext x
      rw [mem_toFinset, mem_toFinset, hset]
    rw [hsame] at hzs
    exact ⟨a,c,ha,hc,fun F fl => by rw [hxs.unique hzs]⟩
  · obtain ⟨h',changed,hadd,_,_,hchanged⟩ := add_spec hsize hash
    exact ⟨h',changed,hadd,hchanged⟩

/-- Two overlapping lists, and their hashes in another order with a repetition. -/
theorem overlapping_hashes_merge : ∃ a b c, addAll [5,20000] new = some a ∧
    addAll [20000,7] new = some b ∧ addAll [7,5,20000,5] new = some c ∧ merge b a = some c ∧
      ∃ h changed, add 7 new = some (h,changed) ∧ (changed = true ↔ h ≠ new) := by
  obtain ⟨hmerge,_,hchanged⟩ := merge_is_union
  have hset : ∀ x : UInt64, x ∈ [7,5,20000,5] ↔ x ∈ [5,20000] ∨ x ∈ [20000,7] := by
    intro x
    simp only [mem_cons, not_mem_nil, or_false]
    grind
  obtain ⟨a,b,c,ha,hb,hc,hmerged⟩ := hmerge [5,20000] [20000,7] [7,5,20000,5] hset
  exact ⟨a,b,c,ha,hb,hc,hmerged,hchanged 7 new length_replicate⟩

/-! ## The range of the registers -/

inductive Built : HLL → Finset UInt64 → Prop
  | new : Built new ∅
  | add {h h' : HLL} {s : Finset UInt64} {hash : UInt64} {changed : Bool} :
      Built h s → HyperLogLog.add hash h = some (h',changed) → Built h' (insert hash s)
  | merge {h other h' : HLL} {s t : Finset UInt64} :
      Built h s → Built other t → HyperLogLog.merge other h = some h' → Built h' (s ∪ t)

theorem Built.counts {h : HLL} (hb : Built h s) : Counts h s := by
  induction hb with
  | new => exact new_counts
  | add _ hadd ih =>
    obtain ⟨h',_,hadd',hs,_⟩ := ih.add _
    cases hadd.symm.trans hadd'
    exact hs
  | merge _ _ hmerge ih iht =>
    obtain ⟨h',hmerge',hs⟩ := ih.merge iht
    cases hmerge.symm.trans hmerge'
    exact hs

theorem oneShifted_ne_zero {val : UInt8} (h : val.toNat ≤ 64-p+1) : oneShifted val ≠ 0 := by
  have hlt : val.toNat < 64 := lt_of_le_of_lt h (by decide)
  rw [oneShifted, if_pos hlt]
  exact (Nat.two_pow_pos _).ne'

/-- The registers of whatever is built are in range, and no shift of the estimate overflows, exactly
if every hash has a one behind the index. -/
theorem registers_in_range_iff (h : HLL) (s : Finset UInt64) (hb : Built h s) :
    (∀ val ∈ h.registers, val.toNat ≤ 64-p+1 ∧ oneShifted val ≠ 0) ↔ ∀ hash ∈ s, 2^p ≤ hash.toNat := by
  have hs := hb.counts
  constructor
  · intro hall hash hin
    rw [← rho_le_iff]
    have hi : (hash &&& mMask).toNat < h.registers.length := hs.size ▸ index_lt hash
    have hle : (rho hash).toNat ≤ register h.registers (hash &&& mMask).toNat := by
      have hhit : hit hash (hash &&& mMask).toNat = (rho hash).toNat := if_pos rfl
      rw [hs.largest, ← hhit]
      exact Finset.le_sup (f := fun hash' => hit hash' (hash &&& mMask).toNat) hin
    rw [register, getD_eq_getElem _ _ hi] at hle
    exact hle.trans (hall _ (getElem_mem hi)).1
  intro hall val hval
  obtain ⟨i,hi,rfl⟩ := getElem_of_mem hval
  have hle : (h.registers[i]).toNat ≤ 64-p+1 := by
    rw [← getD_eq_getElem _ 0 hi]
    change register h.registers i ≤ _
    rw [hs.largest]
    apply Finset.sup_le
    intro hash hin
    rw [hit]
    split
    · exact (rho_le_iff hash).mpr (hall hash hin)
    · exact Nat.zero_le _
  exact ⟨hle,oneShifted_ne_zero hle⟩

/-- A sketch of two hashes merged with one of a third. -/
theorem merged_sketch_in_range : ∃ h, Built h ({32769,16384} ∪ {16385}) ∧
    ∀ val ∈ h.registers, val.toNat ≤ 64-p+1 ∧ oneShifted val ≠ 0 := by
  obtain ⟨h1,_,hadd1,_⟩ := new_counts.add 16384
  have hb1 := Built.new.add hadd1
  obtain ⟨h2,_,hadd2,_⟩ := hb1.counts.add 32769
  have hb2 := hb1.add hadd2
  obtain ⟨h3,_,hadd3,_⟩ := new_counts.add 16385
  have hb3 := Built.new.add hadd3
  obtain ⟨h,hmerge,_⟩ := hb2.counts.merge hb3.counts
  have hb := hb2.merge hb3 hmerge
  refine ⟨h,hb,(registers_in_range_iff h _ hb).mpr (fun hash hin => ?_)⟩
  simp only [insert_empty_eq, Finset.mem_union, Finset.mem_insert, Finset.mem_singleton] at hin
  rcases hin with (rfl | rfl) | rfl <;> decide

/-- A hash of zeros has no one behind the index. -/
theorem zero_hash_out_of_range : ∃ h, add 0 new = some (h,true) ∧
    ∃ val ∈ h.registers, 64-p+1 < val.toNat ∧ oneShifted val = 0 := by
  have hsize : new.registers.length = m := length_replicate
  obtain ⟨h,changed,hadd,hlen,hmax,hchanged⟩ := add_spec hsize 0
  have hzero : 0 < h.registers.length := by rw [hlen]; decide
  have hstart : register new.registers 0 = 0 := rfl
  have hregister : register h.registers 0 = 65 := by
    rw [hmax, hstart]
    decide
  have hne : h ≠ new := by
    rintro rfl
    exact absurd (hstart.symm.trans hregister) (by decide)
  have hvalue : (h.registers[0]).toNat = 65 := by
    rwa [register, getD_eq_getElem _ _ hzero] at hregister
  rw [hchanged.mpr hne] at hadd
  refine ⟨h,hadd,h.registers[0],getElem_mem hzero,by rw [hvalue]; decide,?_⟩
  rw [oneShifted, hvalue]
  rfl

end GoCommon.HyperLogLog
