import Mathlib.Data.List.Forall2
import Mathlib.Data.List.GetD
import GoCommon.PowersOfTwo
import GoCommon.StepRuns

/-!
# The Count-Min sketch

Two counters of four bits share a byte. A counter is incremented up to its largest value,
and all counters are halved by one shift and a mask. A hash has a counter in each of four
rows, and other hashes may share it, so its estimate, the least of the four, is not below
its own number of increments, saturated and halved in the same way. An index that is out
of range is a result of none.
-/

set_option autoImplicit false

namespace GoCommon.CountMinSketch
open List PowersOfTwo StepRuns

def cmDepth : ℕ := 4
def maxCount : UInt8 := 15
def agingMask : UInt8 := 0x77
def counterShift : UInt64 := 4

abbrev CmRow := List UInt8

namespace CmRow

def new (numCounters : ℕ) : CmRow := List.replicate (numCounters/2) 0

def shift (n : UInt64) : UInt8 := ((n &&& 1)*counterShift).toUInt8

def get (n : UInt64) (r : CmRow) : Option UInt8 :=
  r[(n/2).toNat]?.map (fun b => (b >>> shift n) &&& maxCount)

def increment (n : UInt64) (r : CmRow) : Option CmRow := do
  let b ← r[(n/2).toNat]?
  let v := (b >>> shift n) &&& maxCount
  if v < maxCount then some (r.set (n/2).toNat (b+(1 <<< shift n))) else some r

def reset (r : CmRow) : CmRow := r.map (fun b : UInt8 => (b >>> 1) &&& agingMask)

def clear (r : CmRow) : CmRow := r.map (fun _ : UInt8 => 0)

end CmRow

structure Sketch where
  rows : List CmRow
  seed : List UInt64
  mask : UInt64

def new (numCounters : ℤ) (draw : ℕ → UInt64) : Option Sketch :=
  let numCounters := if numCounters ≤ 0 then 1 else numCounters
  if maxIntHeadBit < numCounters then none
  else
    let n := ceilToPowerOfTwo numCounters
    some ⟨List.replicate cmDepth (CmRow.new n),(List.range cmDepth).map draw,UInt64.ofNat (n-1)⟩

def index (hash seed mask : UInt64) : UInt64 := (hash ^^^ seed) &&& mask

def incrementRows (hash mask : UInt64) : List CmRow → List UInt64 → Option (List CmRow)
  | row::rows, seed::seeds => do
    let row ← row.increment (index hash seed mask)
    let rows ← incrementRows hash mask rows seeds
    some (row::rows)
  | rows, _ => some rows

def increment (hash : UInt64) (s : Sketch) : Option Sketch := do
  let rows ← incrementRows hash s.mask s.rows s.seed
  some { s with rows := rows }

def estimateRows (hash mask : UInt64) : List CmRow → List UInt64 → UInt8 → Option UInt8
  | row::rows, seed::seeds, least => do
    let val ← row.get (index hash seed mask)
    estimateRows hash mask rows seeds (if val < least then val else least)
  | _, _, least => some least

def estimate (hash : UInt64) (s : Sketch) : Option UInt8 := estimateRows hash s.mask s.rows s.seed 255

def reset (s : Sketch) : Sketch := { s with rows := s.rows.map CmRow.reset }

def clear (s : Sketch) : Sketch := { s with rows := s.rows.map CmRow.clear }

/-! ## Counters in a byte -/

def nibble (b : UInt8) (half : ℕ) : ℕ := b.toNat/16^half%16

theorem nibble_lt {b : UInt8} {half : ℕ} : nibble b half < 16 := Nat.mod_lt _ (by omega)

theorem shift_eq {n : UInt64} : CmRow.shift n = UInt8.ofNat (4*(n.toNat%2)) := by
  have hand : (n &&& 1).toNat = n.toNat%2 := by
    exact Nat.and_one_is_mod n.toNat
  have hone : n &&& 1 = UInt64.ofNat (n.toNat%2) := by rw [← hand, UInt64.ofNat_toNat]
  rw [CmRow.shift, hone]
  rcases Nat.mod_two_eq_zero_or_one n.toNat with h | h <;> rw [h] <;> rfl

theorem byte_nibbles (b : UInt8) : ∀ half < 2, ((b >>> UInt8.ofNat (4*half)) &&& maxCount).toNat = nibble b half ∧
    nibble ((b >>> 1) &&& agingMask) half = nibble b half/2 ∧ ∀ other < 2, nibble b half < 15 →
      nibble (b+(1 <<< UInt8.ofNat (4*half))) other = nibble b other+if other = half then 1 else 0 := by
  obtain ⟨n,hn,rfl⟩ : ∃ n < 256, UInt8.ofNat n = b := ⟨b.toNat,b.toNat_lt,UInt8.ofNat_toNat⟩
  revert n
  decide +kernel

/-! ## Counters of a row -/

def counter (r : CmRow) (n : ℕ) : ℕ := nibble (r.getD (n/2) 0) (n%2)

theorem counter_le (r : CmRow) (n : ℕ) : counter r n ≤ 15 := Nat.le_of_lt_succ (nibble_lt)

theorem counter_set {r : CmRow} {i : ℕ} (hi : i < r.length) (b : UInt8) (k : ℕ) :
    counter (r.set i b) k = if k/2 = i then nibble b (k%2) else counter r k := by
  rw [counter, counter, getD_eq_getElem?_getD, getD_eq_getElem?_getD, List.getElem?_set]
  by_cases hk : k/2 = i
  · rw [if_pos hk.symm, if_pos hi, if_pos hk, Option.getD_some]
  · rw [if_neg fun heq => hk heq.symm, if_neg hk]

theorem counter_reset {r : CmRow} {k : ℕ} : counter r.reset k = counter r k/2 := by
  have hmod : k%2 < 2 := Nat.mod_lt _ (by omega)
  rw [counter, counter, CmRow.reset, getD_eq_getElem?_getD, getD_eq_getElem?_getD,
    List.getElem?_map]
  cases r[k/2]? with
  | none => exact (byte_nibbles 0 (k%2) hmod).2.1
  | some b => exact (byte_nibbles b (k%2) hmod).2.1

section Rows
variable {r : CmRow} {n : UInt64} (h : n.toNat/2 < r.length)
include h

theorem byte_eq : r[(n/2).toNat]? = some (r.getD (n.toNat/2) 0) := by
  rw [getD_eq_getElem r 0 h]
  exact List.getElem?_eq_getElem h

theorem get_eq : ∃ v, r.get n = some v ∧ v.toNat = counter r n.toNat := by
  refine ⟨_,by rw [CmRow.get, byte_eq h, Option.map_some],?_⟩
  rw [shift_eq]
  exact (byte_nibbles _ _ (Nat.mod_lt _ (by omega))).1

theorem increment_spec : ∃ r', r.increment n = some r' ∧ r'.length = r.length ∧
    ∀ k, counter r' k = if k = n.toNat then min 15 (counter r k+1) else counter r k := by
  obtain ⟨hvalue,_,hadd⟩ := byte_nibbles (r.getD (n.toNat/2) 0) (n.toNat%2) (Nat.mod_lt _ (by omega))
  have hcmp : ((r.getD (n.toNat/2) 0) >>> CmRow.shift n) &&& maxCount < maxCount ↔
      counter r n.toNat < 15 := by
    rw [shift_eq, UInt8.lt_iff_toNat_lt, hvalue]
    rfl
  rw [CmRow.increment, byte_eq h]
  by_cases hlt : counter r n.toNat < 15
  · refine ⟨_,if_pos (hcmp.mpr hlt),length_set,fun k => ?_⟩
    have hhalf : (n/2).toNat = n.toNat/2 := UInt64.toNat_div n 2
    rw [hhalf, counter_set h, shift_eq]
    by_cases hsame : k/2 = n.toNat/2
    · rw [if_pos hsame, hadd (k%2) (Nat.mod_lt _ (by omega)) hlt, ← hsame]
      change counter r k+_ = _
      by_cases hk : k = n.toNat
      · rw [if_pos hk, if_pos (by rw [hk]), hk]
        omega
      · rw [if_neg hk, if_neg (by omega), Nat.add_zero]
    · rw [if_neg hsame, if_neg fun heq => hsame (by rw [heq])]
  refine ⟨r,if_neg (hlt ∘ hcmp.mp),rfl,fun k => ?_⟩
  have hle := counter_le r n.toNat
  by_cases hk : k = n.toNat
  · rw [if_pos hk, hk]
    omega
  · rw [if_neg hk]

end Rows

/-! ## Rows of a sketch -/

theorem index_le (hash seed mask : UInt64) : (index hash seed mask).toNat ≤ mask.toNat := by
  exact Nat.and_le_right

abbrev Reference := UInt64 → ℕ

def counted (hash : UInt64) (ref : Reference) : Reference :=
  Function.update ref hash (min 15 (ref hash+1))

def aged (ref : Reference) : Reference := fun hash => ref hash/2

structure Above (mask : UInt64) (ref : Reference) (row : CmRow) (seed : UInt64) : Prop where
  room : mask.toNat/2 < row.length
  above : ∀ hash, ref hash ≤ counter row (index hash seed mask).toNat

section Above
variable {mask : UInt64} {ref : Reference} {row : CmRow} {seed : UInt64} (h : Above mask ref row seed)
include h

theorem Above.index_lt (hash : UInt64) : (index hash seed mask).toNat/2 < row.length :=
  lt_of_le_of_lt (Nat.div_le_div_right (index_le hash seed mask)) h.room

theorem Above.increment (hash : UInt64) : ∃ row', row.increment (index hash seed mask) = some row' ∧
    Above mask (counted hash ref) row' seed := by
  obtain ⟨row',hrow,hlen,hcounter⟩ := increment_spec (h.index_lt hash)
  refine ⟨row',hrow,by rw [hlen]; exact h.room,fun other => ?_⟩
  have hother := h.above other
  have hle := counter_le row (index other seed mask).toNat
  rw [hcounter, counted, Function.update_apply]
  by_cases heq : other = hash
  · rw [if_pos heq, if_pos (by rw [heq]), ← heq]
    omega
  · rw [if_neg heq]
    split <;> omega

theorem Above.reset : Above mask (aged ref) row.reset seed := by
  refine ⟨by rw [CmRow.reset, length_map]; exact h.room,fun hash => ?_⟩
  rw [counter_reset]
  exact Nat.div_le_div_right (h.above hash)

theorem Above.clear : Above mask (fun _ => 0) row.clear seed :=
  ⟨by rw [CmRow.clear, length_map]; exact h.room,fun _ => Nat.zero_le _⟩

end Above

variable {ref : Reference} {seeds : List UInt64} {rows : List CmRow}

theorem incrementRows_spec {mask : UInt64}
    (h : List.Forall₂ (Above mask ref) rows seeds) (hash : UInt64) :
    ∃ rows', incrementRows hash mask rows seeds = some rows' ∧
      List.Forall₂ (Above mask (counted hash ref)) rows' seeds := by
  induction h with
  | nil => exact ⟨[],rfl,.nil⟩
  | cons hrow _ ih =>
    obtain ⟨row',hinc,habove⟩ := hrow.increment hash
    obtain ⟨rows',hrest,hall⟩ := ih
    refine ⟨row'::rows',?_,.cons habove hall⟩
    rw [incrementRows, hinc, hrest]
    rfl

theorem estimateRows_spec {mask : UInt64}
    (h : List.Forall₂ (Above mask ref) rows seeds) (hash : UInt64) (least : UInt8)
    (hleast : ref hash ≤ least.toNat) :
    ∃ e, estimateRows hash mask rows seeds least = some e ∧ ref hash ≤ e.toNat := by
  induction h generalizing least with
  | nil => exact ⟨least,rfl,hleast⟩
  | cons hrow _ ih =>
    obtain ⟨v,hget,hv⟩ := get_eq (hrow.index_lt hash)
    have habove := hrow.above hash
    rw [estimateRows, hget]
    apply ih
    split
    · rw [hv]
      exact habove
    · exact hleast

/-! ## Runs -/

inductive Op where
  | increment (hash : UInt64)
  | reset
  | clear

def step : Op → Sketch → Option Sketch
  | .increment hash, s => increment hash s
  | .reset, s => some (reset s)
  | .clear, s => some (clear s)

def refStep : Op → Reference → Reference
  | .increment hash, ref => counted hash ref
  | .reset, ref => aged ref
  | .clear, _ => fun _ => 0

def reference (ops : List Op) : Reference := ops.foldl (fun ref op => refStep op ref) (fun _ => 0)

structure Bounds (s : Sketch) (ref : Reference) : Prop where
  depth : s.seed.length = cmDepth
  rows : List.Forall₂ (Above s.mask ref) s.rows s.seed
  small : ∀ hash, ref hash ≤ 15

theorem new_row {n : ℕ} {k : ℕ} (hpos : 0 < k) (hk : k < 63) (hn : n = 2^k) (seed : UInt64) :
    Above (UInt64.ofNat (n-1)) (fun _ => 0) (CmRow.new n) seed := by
  refine ⟨?_,fun _ => Nat.zero_le _⟩
  obtain ⟨j,rfl⟩ : ∃ j, k = j+1 := Nat.exists_eq_succ_of_ne_zero hpos.ne'
  have hlt : 2^(j+1) < 2^63 := Nat.pow_lt_pow_right (by omega) hk
  have hone : 0 < 2^j := Nat.two_pow_pos j
  rw [CmRow.new, length_replicate, UInt64.toNat_ofNat_of_lt' (by rw [UInt64.size]; omega)]
  omega

theorem new_bounds {numCounters : ℤ} {draw : ℕ → UInt64} {s : Sketch} (h : new numCounters draw = some s) :
    Bounds s (fun _ => 0) := by
  rw [new] at h
  generalize (if numCounters ≤ 0 then 1 else numCounters) = m at h
  by_cases hlarge : maxIntHeadBit < m
  · rw [if_pos hlarge] at h
    cases h
  obtain ⟨k,hpos,hk,hpow⟩ := ceilToPowerOfTwo_eq_pow m (not_lt.mp hlarge)
  rw [if_neg hlarge] at h
  cases h
  have hrow := new_row hpos hk hpow
  exact ⟨rfl,.cons (hrow _) (.cons (hrow _) (.cons (hrow _) (.cons (hrow _) .nil))),fun _ => Nat.zero_le _⟩

theorem step_bounds (op : Op) {s : Sketch} (h : Bounds s ref) :
    ∃ t, step op s = some t ∧ Bounds t (refStep op ref) := by
  cases op with
  | increment hash =>
    obtain ⟨rows,hrows,hall⟩ := incrementRows_spec h.rows hash
    refine ⟨{ s with rows := rows },by rw [step, increment, hrows]; rfl,h.depth,hall,fun other => ?_⟩
    have hother := h.small other
    rw [refStep, counted, Function.update_apply]
    split <;> omega
  | reset =>
    refine ⟨reset s,rfl,h.depth,?_,fun other => (Nat.div_le_self _ _).trans (h.small other)⟩
    apply forall₂_map_left_iff.mpr
    exact h.rows.imp fun _ _ hrow => hrow.reset
  | clear =>
    refine ⟨clear s,rfl,h.depth,?_,fun _ => Nat.zero_le _⟩
    apply forall₂_map_left_iff.mpr
    exact h.rows.imp fun _ _ hrow => hrow.clear

theorem run_bounds (ops : List Op) (s : Sketch) (ref : Reference) (h : Bounds s ref) :
    ∃ t, runAll step ops s = some t ∧ Bounds t (ops.foldl (fun ref op => refStep op ref) ref) := by
  induction ops generalizing s ref with
  | nil => exact ⟨s,rfl,h⟩
  | cons op ops ih =>
    obtain ⟨t,hstep,ht⟩ := step_bounds op h
    obtain ⟨u,hrun,hu⟩ := ih t (refStep op ref) ht
    refine ⟨u,?_,hu⟩
    rw [runAll, hstep]
    exact hrun

/-! ## The counters of a sketch -/

def counterAt (s : Sketch) (i : ℕ) (k : UInt64) : Option UInt8 := s.rows[i]?.bind (CmRow.get k)

structure Packed (s : Sketch) : Prop where
  increment : ∀ hash, ∃ t, increment hash s = some t ∧ ∀ i < cmDepth, ∀ k ≤ s.mask, ∃ seed v v',
    s.seed[i]? = some seed ∧ counterAt s i k = some v ∧ counterAt t i k = some v' ∧
    v'.toNat = if k = index hash seed s.mask then min 15 (v.toNat+1) else v.toNat
  reset : ∀ i < cmDepth, ∀ k ≤ s.mask, ∃ v v', counterAt s i k = some v ∧
    counterAt (reset s) i k = some v' ∧ v'.toNat = v.toNat/2

theorem incrementRows_rows {mask : UInt64}
    (h : List.Forall₂ (Above mask ref) rows seeds) (hash : UInt64) :
    ∃ rows', incrementRows hash mask rows seeds = some rows' ∧ ∀ (i : ℕ) seed, seeds[i]? = some seed →
      ∃ row row', rows[i]? = some row ∧ rows'[i]? = some row' ∧ mask.toNat/2 < row.length ∧
        row.increment (index hash seed mask) = some row' := by
  induction h with
  | nil => exact ⟨[],rfl,by simp⟩
  | @cons row seed rows seeds hrow _ ih =>
    obtain ⟨row',hinc,_⟩ := hrow.increment hash
    obtain ⟨rows',hrest,hall⟩ := ih
    refine ⟨row'::rows',by rw [incrementRows, hinc, hrest]; rfl,fun i seed' hi => ?_⟩
    cases i with
    | zero =>
      obtain rfl : seed = seed' := Option.some.inj hi
      exact ⟨row,row',rfl,rfl,hrow.room,hinc⟩
    | succ i => exact hall i seed' hi

theorem Bounds.packed {s : Sketch} (h : Bounds s ref) : Packed s := by
  have hroom : ∀ {row : CmRow}, s.mask.toNat/2 < row.length → ∀ k ≤ s.mask, k.toNat/2 < row.length :=
    fun hrow k hk => lt_of_le_of_lt (Nat.div_le_div_right (UInt64.le_iff_toNat_le.mp hk)) hrow
  have hseed : ∀ i < cmDepth, ∃ seed, s.seed[i]? = some seed := fun i hi =>
    ⟨_,List.getElem?_eq_getElem (by rw [h.depth]; exact hi)⟩
  refine ⟨fun hash => ?_,fun i hi k hk => ?_⟩
  · obtain ⟨rows,hrows,hall⟩ := incrementRows_rows h.rows hash
    refine ⟨{ s with rows := rows },by rw [increment, hrows]; rfl,fun i hi k hk => ?_⟩
    obtain ⟨seed,hs⟩ := hseed i hi
    obtain ⟨row,row',hrow,hrow',hlen,hinc⟩ := hall i seed hs
    obtain ⟨r,hr,hsize,hcounter⟩ := increment_spec (n := index hash seed s.mask)
      (hroom hlen _ (UInt64.le_iff_toNat_le.mpr (index_le hash seed s.mask)))
    obtain rfl : row' = r := Option.some.inj (hinc.symm.trans hr)
    obtain ⟨v,hget,hv⟩ := get_eq (hroom hlen k hk)
    obtain ⟨v',hget',hv'⟩ := get_eq (r := row') (n := k) (by rw [hsize]; exact hroom hlen k hk)
    refine ⟨seed,v,v',hs,by rw [counterAt, hrow]; exact hget,by rw [counterAt, hrow']; exact hget',?_⟩
    rw [hv', hcounter, hv]
    exact if_congr UInt64.toNat_inj rfl rfl
  obtain ⟨seed,hs⟩ := hseed i hi
  obtain ⟨_,_,hall⟩ := incrementRows_rows h.rows 0
  obtain ⟨row,_,hrow,_,hlen,_⟩ := hall i seed hs
  obtain ⟨v,hget,hv⟩ := get_eq (hroom hlen k hk)
  obtain ⟨v',hget',hv'⟩ := get_eq (r := row.reset) (n := k) (by
    rw [CmRow.reset, length_map]
    exact hroom hlen k hk)
  refine ⟨v,v',by rw [counterAt, hrow]; exact hget,?_,by rw [hv', counter_reset, hv]⟩
  rw [counterAt, reset, List.getElem?_map, hrow]
  exact hget'

/-- Every run returns, no estimate is below the reference counter, and the next increment or
reset of the sketch changes its counters one by one. -/
theorem sketch_never_underestimates (numCounters : ℤ) (draw : ℕ → UInt64) (s : Sketch)
    (h : new numCounters draw = some s) (ops : List Op) :
    ∃ t, runAll step ops s = some t ∧
      (∀ hash, ∃ e, estimate hash t = some e ∧ reference ops hash ≤ e.toNat) ∧ Packed t := by
  obtain ⟨t,hrun,hbounds⟩ := run_bounds ops s _ (new_bounds h)
  refine ⟨t,hrun,fun hash => ?_,hbounds.packed⟩
  apply estimateRows_spec hbounds.rows
  exact (hbounds.small hash).trans (by decide)

/-- A sketch of three counters, rounded up to four, with a shared counter. -/
theorem small_sketch_counts : ∃ s t, new 3 (fun i => UInt64.ofNat i) = some s ∧
    runAll step [.increment 1, .increment 5, .increment 1, .reset] s = some t ∧
      (∃ e, estimate 1 t = some e ∧ 1 ≤ e.toNat) ∧ Packed t := by
  obtain ⟨s,hs⟩ := Option.isSome_iff_exists.mp
    (show (new 3 (fun i => UInt64.ofNat i)).isSome from by decide +kernel)
  obtain ⟨t,hrun,hestimate,hpacked⟩ := sketch_never_underestimates 3 _ s hs
    [.increment 1, .increment 5, .increment 1, .reset]
  exact ⟨s,t,hs,hrun,hestimate 1,hpacked⟩

end GoCommon.CountMinSketch
