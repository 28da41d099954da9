import Mathlib.Data.Rat.Defs
import GoCommon.BitWords
import GoCommon.StepRuns

/-!
# The Bloom filter

A hash is known by the bits at its probe positions, which are found by steps of a second
hash modulo the number of bits. As a set of bits the filter grows by the probes of every
hash that is added, and a hash is found if its probes lie in the set. A call that tests
and sets in one pass agrees with the two calls one after the other. An index that is out
of range is a result of none.
-/

set_option autoImplicit false

namespace GoCommon.BloomFilter
open BitWords StepRuns

structure Bloom where
  bitset : List UInt64
  k : UInt64
  m : UInt64

def new (sizes : UInt64 → ℚ → UInt64 × UInt64) (capacity : UInt64) (fpRate : ℚ) : Except String Bloom :=
  if capacity = 0 then .error "capacity must be greater than 0"
  else if fpRate ≤ 0 ∨ 1 ≤ fpRate then .error "fpRate must be between 0 and 1"
  else
    let (m,k) := sizes capacity fpRate
    .ok ⟨List.replicate ((m+63)/64).toNat 0,k,m⟩

def delta (h : UInt64) : UInt64 := (h >>> 17) ||| (h <<< 47)

def index (h m i : UInt64) : UInt64 := (h+i*delta h)%m

def addLoop (h m : UInt64) : ℕ → UInt64 → List UInt64 → Option (List UInt64)
  | 0, _, ws => some ws
  | rest+1, i, ws => do
    let ws ← put (index h m i) ws
    addLoop h m rest (i+1) ws

def addIfNotHasLoop (h m : UInt64) : ℕ → UInt64 → List UInt64 → Bool → Option (List UInt64 × Bool)
  | 0, _, ws, present => some (ws,present)
  | rest+1, i, ws, present => do
    let isSet ← test (index h m i) ws
    if isSet then addIfNotHasLoop h m rest (i+1) ws present
    else do
      let ws ← put (index h m i) ws
      addIfNotHasLoop h m rest (i+1) ws false

def hasLoop (h m : UInt64) (ws : List UInt64) : ℕ → UInt64 → Option Bool
  | 0, _ => some true
  | rest+1, i => do
    let isSet ← test (index h m i) ws
    if isSet then hasLoop h m ws rest (i+1) else some false

def add (hash : UInt64) (b : Bloom) : Option Bloom := do
  let bitset ← addLoop hash b.m b.k.toNat 0 b.bitset
  some { b with bitset := bitset }

def addIfNotHas (hash : UInt64) (b : Bloom) : Option (Bloom × Bool) := do
  let (bitset,present) ← addIfNotHasLoop hash b.m b.k.toNat 0 b.bitset true
  some ({ b with bitset := bitset },present)

def has (hash : UInt64) (b : Bloom) : Option Bool := hasLoop hash b.m b.bitset b.k.toNat 0

def clear (b : Bloom) : Bloom := { b with bitset := b.bitset.map (fun _ => 0) }

structure Sized (b : Bloom) : Prop where
  positive : 1 ≤ b.m
  words : b.bitset.length = (b.m.toNat+63)/64

theorem new_sized {sizes : UInt64 → ℚ → UInt64 × UInt64} {capacity : UInt64} {fpRate : ℚ} {b : Bloom}
    (h : new sizes capacity fpRate = .ok b) (hpos : 1 ≤ b.m) (hfits : b.m.toNat+63 < 2^64) : Sized b := by
  rw [new] at h
  split at h
  · cases h
  split at h
  · cases h
  cases h
  refine ⟨hpos,?_⟩
  rw [List.length_replicate]
  exact congrArg (·/64) (Nat.mod_eq_of_lt hfits)

/-! ## Loops over the probes -/

def probesFrom (h m : UInt64) (rest : ℕ) (i : UInt64) : Set ℕ :=
  {n | ∃ j < rest, n = (index h m (i+UInt64.ofNat j)).toNat}

theorem probesFrom_succ {h m : UInt64} {rest : ℕ} {i : UInt64} :
    probesFrom h m (rest+1) i = insert (index h m i).toNat (probesFrom h m rest (i+1)) := by
  have hnext : ∀ j, i+UInt64.ofNat (j+1) = i+1+UInt64.ofNat j := by
    intro j
    rw [UInt64.ofNat_add, UInt64.add_comm (UInt64.ofNat j), ← UInt64.add_assoc]
    rfl
  have hstart : i+UInt64.ofNat 0 = i := UInt64.add_zero i
  ext n
  constructor
  · rintro ⟨j,hj,rfl⟩
    cases j with
    | zero => exact Or.inl (by rw [hstart])
    | succ j => exact Or.inr ⟨j,by omega,by rw [hnext]⟩
  · rintro (rfl | ⟨j,hj,rfl⟩)
    · exact ⟨0,by omega,by rw [hstart]⟩
    · exact ⟨j+1,by omega,by rw [hnext]⟩

def bits (ws : List UInt64) : Set ℕ := {n | bit ws n = true}

section Loops
variable {h m : UInt64} (hm : 1 ≤ m)
include hm

theorem index_lt (i : UInt64) {ws : List UInt64} (hws : ws.length = (m.toNat+63)/64) :
    (index h m i).toNat < 64*ws.length := by
  have hpos : 0 < m.toNat := hm
  have hlt : (index h m i).toNat < m.toNat := by
    exact Nat.mod_lt _ hpos
  omega

theorem addLoop_spec (rest : ℕ) (i : UInt64) (ws : List UInt64) (hws : ws.length = (m.toNat+63)/64) :
    ∃ ws', addLoop h m rest i ws = some ws' ∧ ws'.length = ws.length ∧
      bits ws' = bits ws ∪ probesFrom h m rest i := by
  induction rest generalizing i ws with
  | zero => exact ⟨ws,rfl,rfl,by simp [probesFrom]⟩
  | succ rest ih =>
    obtain ⟨ws₁,hput,hlen,hbits⟩ := put_spec (index_lt hm i hws)
    obtain ⟨ws₂,hloop,hlen₂,hbits₂⟩ := ih (i+1) ws₁ (hlen.trans hws)
    have hone : bits ws₁ = insert (index h m i).toNat (bits ws) :=
      Set.ext fun n => (hbits n).trans or_comm
    refine ⟨ws₂,?_,hlen₂.trans hlen,?_⟩
    · rw [addLoop, hput]
      exact hloop
    · rw [hbits₂, hone, probesFrom_succ, Set.insert_union, Set.union_insert]

theorem hasLoop_spec {ws : List UInt64} (hws : ws.length = (m.toNat+63)/64) (rest : ℕ) (i : UInt64) :
    ∃ r, hasLoop h m ws rest i = some r ∧ (r = true ↔ probesFrom h m rest i ⊆ bits ws) := by
  induction rest generalizing i with
  | zero => exact ⟨true,rfl,by simp [probesFrom]⟩
  | succ rest ih =>
    rw [hasLoop, test_eq (index_lt hm i hws), probesFrom_succ, Set.insert_subset_iff]
    cases hset : bit ws (index h m i).toNat with
    | true =>
      obtain ⟨r,hr,hiff⟩ := ih (i+1)
      exact ⟨r,hr,hiff.trans (and_iff_right hset).symm⟩
    | false =>
      refine ⟨false,rfl,iff_of_false Bool.noConfusion fun hall => ?_⟩
      exact Bool.false_ne_true (hset.symm.trans hall.1)

theorem addIfNotHasLoop_eq (rest : ℕ) (i : UInt64) (ws : List UInt64) (hws : ws.length = (m.toNat+63)/64)
    (present : Bool) : ∃ ws' r, addLoop h m rest i ws = some ws' ∧ hasLoop h m ws rest i = some r ∧
      addIfNotHasLoop h m rest i ws present = some (ws',present && r) := by
  induction rest generalizing i ws present with
  | zero => exact ⟨ws,true,rfl,rfl,by rw [addIfNotHasLoop, Bool.and_true]⟩
  | succ rest ih =>
    have hin := @index_lt h m hm i ws hws
    rw [addLoop, hasLoop, addIfNotHasLoop, test_eq hin]
    cases hset : bit ws (index h m i).toNat with
    | true =>
      rw [put_of_set hin hset]
      exact ih (i+1) ws hws present
    | false =>
      obtain ⟨ws₁,hput,hlen,_⟩ := put_spec hin
      obtain ⟨ws₂,_,hadd,_,hboth⟩ := ih (i+1) ws₁ (hlen.trans hws) false
      rw [hput]
      exact ⟨ws₂,false,hadd,rfl,by rw [Bool.and_false]; exact hboth⟩

end Loops

/-! ## Calls -/

def probes (hash : UInt64) (b : Bloom) : Set ℕ := probesFrom hash b.m b.k.toNat 0

section Calls
variable {b : Bloom} (hb : Sized b) (hash : UInt64)
include hb

theorem add_spec : ∃ c, add hash b = some c ∧ Sized c ∧ (c.k = b.k ∧ c.m = b.m) ∧
    bits c.bitset = bits b.bitset ∪ probes hash b := by
  obtain ⟨ws,hloop,hlen,hbits⟩ := @addLoop_spec hash b.m hb.positive b.k.toNat 0 b.bitset hb.words
  refine ⟨{ b with bitset := ws },?_,⟨hb.positive,hlen.trans hb.words⟩,⟨rfl,rfl⟩,hbits⟩
  rw [add, hloop]
  rfl

theorem has_spec : ∃ r, has hash b = some r ∧ (r = true ↔ probes hash b ⊆ bits b.bitset) :=
  hasLoop_spec hb.positive hb.words b.k.toNat 0

theorem addIfNotHas_spec : ∃ c r, add hash b = some c ∧ has hash b = some r ∧
    addIfNotHas hash b = some (c,r) := by
  obtain ⟨ws,r,hadd,hhas,hboth⟩ :=
    @addIfNotHasLoop_eq hash b.m hb.positive b.k.toNat 0 b.bitset hb.words true
  refine ⟨{ b with bitset := ws },r,?_,hhas,?_⟩
  · rw [add, hadd]
    rfl
  · rw [addIfNotHas, hboth]
    rfl

theorem clear_sized : Sized (clear b) := ⟨hb.positive,by rw [clear, List.length_map, hb.words]⟩

end Calls

/-! ## Runs -/

inductive Op where
  | add (hash : UInt64)
  | addIfNotHas (hash : UInt64)
  | clear

def step : Op → Bloom → Option Bloom
  | .add hash, b => add hash b
  | .addIfNotHas hash, b => (addIfNotHas hash b).map (·.1)
  | .clear, b => some (clear b)

def noted : Op → Set UInt64 → Set UInt64
  | .add hash, s => insert hash s
  | .addIfNotHas hash, s => insert hash s
  | .clear, _ => ∅

structure Keeps (b : Bloom) (s : Set UInt64) : Prop where
  sized : Sized b
  probed : ∀ hash ∈ s, probes hash b ⊆ bits b.bitset

theorem add_keeps {b : Bloom} {s : Set UInt64} (h : Keeps b s) (hash : UInt64) :
    ∃ c, add hash b = some c ∧ Keeps c (insert hash s) := by
  obtain ⟨c,hadd,hsized,⟨hk,hm⟩,hbits⟩ := add_spec h.sized hash
  have hprobes : ∀ h, probes h c = probes h b := fun h => by rw [probes, probes, hk, hm]
  refine ⟨c,hadd,hsized,fun h' hin => ?_⟩
  rw [hprobes, hbits]
  rcases Set.mem_insert_iff.mp hin with rfl | hin
  · exact Set.subset_union_right
  · exact (h.probed h' hin).trans Set.subset_union_left

theorem step_keeps (op : Op) {b : Bloom} {s : Set UInt64} (h : Keeps b s) :
    ∃ c, step op b = some c ∧ Keeps c (noted op s) := by
  cases op with
  | add hash => exact add_keeps h hash
  | addIfNotHas hash =>
    obtain ⟨c,_,hadd,_,hboth⟩ := addIfNotHas_spec h.sized hash
    obtain ⟨c',hadd',hkeeps⟩ := add_keeps h hash
    obtain rfl : c = c' := Option.some.inj (hadd.symm.trans hadd')
    exact ⟨c,by rw [step, hboth]; rfl,hkeeps⟩
  | clear => exact ⟨clear b,rfl,clear_sized h.sized,fun _ hin => hin.elim⟩

theorem run_keeps (ops : List Op) (b : Bloom) (s : Set UInt64) (h : Keeps b s) :
    ∃ c, runAll step ops b = some c ∧ Keeps c (ops.foldl (fun s op => noted op s) s) := by
  induction ops generalizing b s with
  | nil => exact ⟨b,rfl,h⟩
  | cons op ops ih =>
    obtain ⟨c,hstep,hc⟩ := step_keeps op h
    obtain ⟨d,hrun,hd⟩ := ih c (noted op s) hc
    refine ⟨d,?_,hd⟩
    rw [runAll, hstep]
    exact hrun

/-- Every run returns; every hash added since the last Clear is found, no bit is cleared by adding a
hash, and testing while adding agrees with the two calls. -/
theorem bloom_has_what_was_added (b : Bloom) (hb : Sized b) (ops : List Op) :
    ∃ c, runAll step ops b = some c ∧
      (∀ hash ∈ ops.foldl (fun s op => noted op s) ∅, has hash c = some true) ∧
      ∀ hash, ∃ d r, add hash c = some d ∧ has hash c = some r ∧ addIfNotHas hash c = some (d,r) ∧
        ∀ n, bit c.bitset n = true → bit d.bitset n = true := by
  obtain ⟨c,hrun,hkeeps⟩ := run_keeps ops b ∅ ⟨hb,fun _ hin => hin.elim⟩
  refine ⟨c,hrun,fun hash hin => ?_,fun hash => ?_⟩
  · obtain ⟨r,hhas,hiff⟩ := has_spec hkeeps.sized hash
    rw [hhas, hiff.mpr (hkeeps.probed hash hin)]
  obtain ⟨d,r,hadd,hhas,hboth⟩ := addIfNotHas_spec hkeeps.sized hash
  obtain ⟨d',hadd',_,_,hbits⟩ := add_spec hkeeps.sized hash
  obtain rfl : d = d' := Option.some.inj (hadd.symm.trans hadd')
  refine ⟨d,r,hadd,hhas,hboth,fun n hn => ?_⟩
  change n ∈ bits d.bitset
  rw [hbits]
  exact Or.inl hn

def small : Bloom := ⟨[0,0],7,68⟩

/-- The sizes are those for seven items and one false positive in a hundred. -/
theorem small_filter_keeps : new (fun _ _ => (68,7)) 7 (1/100) = .ok small ∧ ∃ c,
    runAll step [.add 5, .clear, .add 12345, .addIfNotHas 0xFFFFFFFFFFFFFFFF] small = some c ∧
      has 12345 c = some true ∧ has 0xFFFFFFFFFFFFFFFF c = some true := by
  have hnew : new (fun _ _ => (68,7)) 7 (1/100) = .ok small := by
    rw [new, if_neg (by decide), if_neg (by norm_num)]
    rfl
  obtain ⟨c,hrun,hfound,_⟩ := bloom_has_what_was_added small (new_sized hnew (by decide) (by decide))
    [.add 5, .clear, .add 12345, .addIfNotHas 0xFFFFFFFFFFFFFFFF]
  exact ⟨hnew,c,hrun,hfound 12345 (Or.inr (Or.inl rfl)),hfound _ (Or.inl rfl)⟩

end GoCommon.BloomFilter
