import Mathlib.Data.Nat.Size
import GoCommon.StepRuns

/-!
# The pool of byte slices

Items are kept in buckets by their size. Both the request for an item and the
return of one use the same rounding up to a bucket, so an item of a size between
two bucket sizes comes into the bucket of the larger one. From time to time the
pool sets a limit on the size of the items it takes back. A bucket hands out
some item that has been put into it, or a new one.
-/

set_option autoImplicit false

namespace GoCommon.SlicePool
open List Function StepRuns

def minBitSize : ℕ := 6
def steps : ℕ := 20
def minSize : ℕ := 2^minBitSize
def calibrateThreshold : ℕ := 42000

def shifts : ℕ → ℕ → ℕ
  | 0, _ => 0
  | fuel+1, n => if 0 < n then shifts fuel (n/2)+1 else 0

def sizeToIndex (n : ℕ) : ℕ := shifts ((n-1)/2^minBitSize) ((n-1)/2^minBitSize)

def bucketSize (i : ℕ) : ℕ := if steps ≤ i then 0 else minSize*2^i

/-! ## The generic pool -/

structure Funcs (T : Type) where
  newFunc : ℕ → T
  sizeFunc : T → ℕ

structure Pool (T : Type) where
  calls : ℕ → ℕ
  defaultSize : ℕ
  maxSize : ℕ
  buckets : ℕ → List T

structure BucketStat where
  calls : ℕ
  size : ℕ
  deriving DecidableEq, Repr

/-- How the statistics are sorted, where equal numbers of calls come in any order, and
the share of the calls that the limit is to cover, which is computed with floats. -/
structure Calibration where
  sort : List BucketStat → List BucketStat
  threshold : ℕ → ℕ

variable {T : Type}

def collectStats (p : Pool T) : List BucketStat :=
  (List.range steps).map (fun i => ⟨p.calls i,minSize*2^i⟩)

def limitLoop (threshold : ℕ) : List BucketStat → ℕ → ℕ → ℕ
  | [], _, limit => limit
  | s::ss, sum, limit => if threshold < sum then limit
    else limitLoop threshold ss (sum+s.calls) (if limit < s.size then s.size else limit)

def updateSizes (c : Calibration) (stats : List BucketStat) (p : Pool T) : Pool T := match stats with
  | [] => p
  | s::ss => { p with
      defaultSize := s.size
      maxSize := limitLoop (c.threshold ((s::ss).map BucketStat.calls).sum) (s::ss) 0 s.size }

def calibrate (c : Calibration) (p : Pool T) : Pool T :=
  updateSizes c (c.sort (collectStats p)) { p with calls := fun _ => 0 }

def newPool : Pool T := ⟨fun _ => 0,0,0,fun _ => []⟩

namespace Pool

def get (fs : Funcs T) (size : ℕ) (pick : Option ℕ) (p : Pool T) : T × Pool T :=
  let size := if size = 0 then minSize else size
  let idx := sizeToIndex size
  if steps ≤ idx then (fs.newFunc size,p)
  else match pick.bind (fun i => (p.buckets idx)[i]?.map (fun x => (i,x))) with
    | some (i,x) => (x,{ p with buckets := update p.buckets idx ((p.buckets idx).eraseIdx i) })
    | none => (fs.newFunc (minSize*2^idx),p)

def counted (c : Calibration) (idx : ℕ) (p : Pool T) : Pool T :=
  let p := { p with calls := update p.calls idx (p.calls idx+1) }
  if calibrateThreshold < p.calls idx then calibrate c p else p

def put (fs : Funcs T) (c : Calibration) (item : T) (p : Pool T) : Pool T :=
  let size := fs.sizeFunc item
  let idx := sizeToIndex size
  if size = 0 then p
  else if steps ≤ idx then p
  else
    let p := p.counted c idx
    if 0 < p.maxSize ∧ p.maxSize < size then p
    else { p with buckets := update p.buckets idx (item::p.buckets idx) }

end Pool

/-! ## Byte slices -/

structure ByteSlice where
  len : ℕ
  cap : ℕ
  fits : len ≤ cap
  deriving DecidableEq, Repr

def byteFuncs : Funcs ByteSlice := ⟨fun n => ⟨n,n,le_rfl⟩,ByteSlice.cap⟩

def get (n : ℕ) (pick : Option ℕ) (p : Pool ByteSlice) : Option ByteSlice × Pool ByteSlice :=
  let r := p.get byteFuncs n pick
  (if h : n ≤ r.1.cap then some ⟨n,r.1.cap,h⟩ else none,r.2)

def put (c : Calibration) (b : ByteSlice) (p : Pool ByteSlice) : Pool ByteSlice :=
  if b.len = 0 then p else p.put byteFuncs c ⟨b.cap,b.cap,le_rfl⟩

/-! ## Sizes of buckets -/

theorem shifts_size (fuel n : ℕ) (h : n ≤ fuel) : shifts fuel n = n.size := by
  induction fuel generalizing n with
  | zero =>
    rw [Nat.le_zero.mp h]
    rfl
  | succ fuel ih =>
    rw [shifts]
    by_cases h0 : 0 < n
    · rw [if_pos h0, ih (n/2) (by omega)]
      conv_rhs => rw [← Nat.bit_bodd_div2 n]
      rw [Nat.size_bit (by rw [Nat.bit_bodd_div2]; omega), Nat.div2_val]
    · rw [Nat.eq_zero_of_not_pos h0]
      rfl

theorem sizeToIndex_le {n : ℕ} (i : ℕ) (hn : 1 ≤ n) : sizeToIndex n ≤ i ↔ n ≤ minSize*2^i := by
  rw [sizeToIndex, shifts_size _ _ le_rfl, Nat.size_le, Nat.div_lt_iff_lt_mul (by decide), minSize,
    Nat.mul_comm]
  omega

theorem bucket_fits {n : ℕ} (hn : 1 ≤ n) : n ≤ minSize*2^sizeToIndex n :=
  (sizeToIndex_le _ hn).mp le_rfl

/-! ## Runs -/

def Roomy (p : Pool ByteSlice) : Prop := ∀ i < steps, ∀ b ∈ p.buckets i, minSize*2^i ≤ b.cap

theorem counted_buckets (c : Calibration) (idx : ℕ) (p : Pool T) : (p.counted c idx).buckets = p.buckets := by
  rw [Pool.counted]
  split
  · rw [calibrate, updateSizes.eq_def]
    split <;> rfl
  · rfl

theorem get_roomy {p : Pool ByteSlice} (n : ℕ) (pick : Option ℕ) (hp : Roomy p) :
    (∃ b, (get n pick p).1 = some b ∧ b.len = n) ∧ Roomy (get n pick p).2 := by
  have hkey : n ≤ (p.get byteFuncs n pick).1.cap ∧ Roomy (p.get byteFuncs n pick).2 := by
    rw [Pool.get]
    have hle : n ≤ if n = 0 then minSize else n := by split <;> omega
    have hpos : 1 ≤ if n = 0 then minSize else n := by
      split
      · decide
      · omega
    generalize (if n = 0 then minSize else n) = size at *
    have hfit := hle.trans (bucket_fits hpos)
    split
    · exact ⟨hle,hp⟩
    split
    · rename_i i x hx
      obtain ⟨j,_,hj⟩ := Option.bind_eq_some_iff.mp hx
      obtain ⟨y,hy,he⟩ := Option.map_eq_some_iff.mp hj
      cases he
      refine ⟨hfit.trans (hp _ (by omega) x (mem_of_getElem? hy)),fun k hk b hb => ?_⟩
      simp only [update_apply] at hb
      split at hb
      · rename_i hki
        exact hp k hk b (by rw [hki]; exact mem_of_mem_eraseIdx hb)
      · exact hp k hk b hb
    · exact ⟨hfit,hp⟩
  exact ⟨⟨_,dif_pos hkey.1,rfl⟩,hkey.2⟩

inductive Op where
  | get (n : ℕ) (pick : Option ℕ)
  | put (b : ByteSlice)

def step (c : Calibration) : Op → Pool ByteSlice → Pool ByteSlice
  | .get n pick, p => (get n pick p).2
  | .put b, p => put c b p

/-- A slice that is put back has the capacity of its bucket, or the bucket does not take it. -/
def Regular (c : Calibration) : Op → Pool ByteSlice → Prop
  | .get _ _, _ => True
  | .put b, p => bucketSize (sizeToIndex b.cap) = b.cap ∨
      (put c b p).buckets (sizeToIndex b.cap) = p.buckets (sizeToIndex b.cap)

instance (c : Calibration) (op : Op) (p : Pool ByteSlice) : Decidable (Regular c op p) := match op with
  | .get _ _ => isTrue trivial
  | .put _ => inferInstanceAs (Decidable (_ ∨ _))

theorem put_buckets (fs : Funcs T) (c : Calibration) (item : T) (p : Pool T) :
    (p.put fs c item).buckets = p.buckets ∨ (sizeToIndex (fs.sizeFunc item) < steps ∧
      (p.put fs c item).buckets = update p.buckets (sizeToIndex (fs.sizeFunc item))
        (item::p.buckets (sizeToIndex (fs.sizeFunc item)))) := by
  have hc := counted_buckets c (sizeToIndex (fs.sizeFunc item)) p
  rw [Pool.put]
  dsimp only
  split
  · exact .inl rfl
  split
  · exact .inl rfl
  split
  · exact .inl hc
  · exact .inr ⟨by omega,by rw [hc]⟩

theorem put_roomy (c : Calibration) {b : ByteSlice} {p : Pool ByteSlice} (hp : Roomy p)
    (hb : Regular c (.put b) p) : Roomy (put c b p) := by
  rw [put]
  split
  · exact hp
  rename_i hlen
  rcases put_buckets byteFuncs c ⟨b.cap,b.cap,le_rfl⟩ p with h | ⟨hidx,h⟩
  · rw [Roomy, h]
    exact hp
  change sizeToIndex b.cap < steps at hidx
  have hsize : minSize*2^sizeToIndex b.cap = b.cap := by
    rcases hb with hb | hb
    · rwa [bucketSize, if_neg (by omega)] at hb
    · rw [put, if_neg hlen, h] at hb
      exact absurd ((update_self _ _ _).symm.trans hb) (cons_ne_self _ _)
  intro i hi x hx
  rw [h, update_apply] at hx
  split at hx
  · rename_i hii
    change i = sizeToIndex b.cap at hii
    rcases mem_cons.mp hx with rfl | hx
    · rw [hii, hsize]
    · exact hp i hi x (by rw [hii]; exact hx)
  · exact hp i hi x hx

theorem step_roomy (c : Calibration) (op : Op) (p q : Pool ByteSlice) (hp : Roomy p) (hg : Regular c op p)
    (hs : step c op p = q) : Roomy q := by
  subst hs
  cases op with
  | get n pick => exact (get_roomy n pick hp).2
  | put b => exact put_roomy c hp hg

/-- As long as only slices with the capacity of a bucket are put back, every bucket has
items of its size and every request is met. -/
theorem requests_met (c : Calibration) (p : Pool ByteSlice)
    (h : Reaches (fun op p q => step c op p = q) (Regular c) newPool p) :
    Roomy p ∧ ∀ n pick, ∃ b, (get n pick p).1 = some b ∧ b.len = n := by
  have hp : Roomy p := h.invariant Roomy (fun i _ b hb => by cases hb) (step_roomy c)
  exact ⟨hp,fun n pick => (get_roomy n pick hp).1⟩

def keepOrder : Calibration := ⟨id,fun total => total*95/100⟩

/-- A slice comes back and is handed out again. -/
theorem returned_slice_reused :
    ∃ b, (get 100 (some 0) (put keepOrder ⟨128,128,le_rfl⟩ (get 128 none newPool).2)).1 = some b ∧
      b.len = 100 := by
  have h1 : Reaches (fun op p q => step keepOrder op p = q) (Regular keepOrder) newPool (get 128 none newPool).2 :=
    .next (Op.get 128 none) newPool _ .start trivial rfl
  have h2 := h1.next (Op.put ⟨128,128,le_rfl⟩) _ _ (by decide) rfl
  exact (requests_met keepOrder _ h2).2 100 (some 0)

/-- The rest of a slice of 128 bytes after 63 of them have been read is put back, and the
next request for 128 bytes gets it. -/
theorem suffix_too_short :
    (get 128 (some 0) (put keepOrder ⟨65,65,le_rfl⟩ (get 128 none newPool).2)).1 = none ∧
    ¬Roomy (put keepOrder ⟨65,65,le_rfl⟩ (get 128 none newPool).2) := by
  have hnone : (get 128 (some 0) (put keepOrder ⟨65,65,le_rfl⟩ (get 128 none newPool).2)).1 = none := by
    decide +kernel
  refine ⟨hnone,fun hf => ?_⟩
  obtain ⟨b,hb,_⟩ := (get_roomy 128 (some 0) hf).1
  rw [hnone] at hb
  cases hb

end GoCommon.SlicePool
