import Mathlib.Tactic

/-!
# Snowflake identifiers

An identifier consists of a time since an epoch, the number of a worker and a
step that counts the identifiers of one unit of time. A node never goes back in
time: when the clock does it stays at the last time, and when the steps are used
up it waits until the clock has passed that time. The clock is the list of its
readings, and a call that needs more readings does not return.
-/

set_option autoImplicit false

namespace GoCommon.UniqueIds
open List

abbrev Word := BitVec 64

structure Snowflake where
  epoch : Word
  node : UInt8
  step : UInt8
  totalBits : UInt8
  deriving DecidableEq, Repr

structure SnowflakeNode where
  timestamp : Word
  node : Word
  step : Word
  epoch : Word
  totalBits : UInt8
  stepMax : Word
  timeShift : UInt8
  nodeShift : UInt8
  limitMask : Word
  deriving DecidableEq, Repr

def maxOf (bits : UInt8) : Word := -1 ^^^ ((-1 : Word) <<< bits.toNat)

def totalBits (c : Snowflake) : UInt8 := if c.totalBits = 0 then 63 else c.totalBits

def limitMask (total : UInt8) : Word :=
  if total = 63 ∨ total = 64 then BitVec.allOnes 64 >>> 1 else ((1 : Word) <<< total.toNat)-1

def newSnowflakeNode (c : Snowflake) (workerID : Word) : Except String SnowflakeNode :=
  if workerID.slt 0 ∨ (maxOf c.node).slt workerID then
    .error "node ID exceeds maximum allowed by configuration"
  else if totalBits c ≤ c.node+c.step then
    .error "total bits must be greater than node + step bits"
  else .ok {
    timestamp := 0
    node := workerID
    step := 0
    epoch := c.epoch
    totalBits := totalBits c
    stepMax := maxOf c.step
    timeShift := c.node+c.step
    nodeShift := c.step
    limitMask := limitMask (totalBits c) }

namespace SnowflakeNode

def unit (n : SnowflakeNode) (nanos : Word) : Word :=
  if n.totalBits < 50 then nanos.sdiv 1000000000 else nanos.sdiv 1000000

def wait (n : SnowflakeNode) : List Word → Option (Word × List Word)
  | [] => none
  | nanos::clock => if (n.unit nanos).sle n.timestamp then n.wait clock else some (n.unit nanos,clock)

def encode (n : SnowflakeNode) : Word :=
  ((n.timestamp-n.epoch) <<< n.timeShift.toNat ||| n.node <<< n.nodeShift.toNat ||| n.step) &&& n.limitMask

def moved (n : SnowflakeNode) (now step : Word) : SnowflakeNode := { n with timestamp := now, step := step }

def generate (n : SnowflakeNode) : List Word → Option (SnowflakeNode × List Word)
  | [] => none
  | nanos::clock =>
    let now := if (n.unit nanos).slt n.timestamp then n.timestamp else n.unit nanos
    if now = n.timestamp then
      let step := (n.step+1) &&& n.stepMax
      if step = 0 then (n.wait clock).map (fun r => (n.moved r.1 step,r.2))
      else some (n.moved now step,clock)
    else some (n.moved now 0,clock)

end SnowflakeNode

structure Issued where
  id : Word
  time : Word
  step : Word
  deriving DecidableEq, Repr

def issued (n : SnowflakeNode) : Issued := ⟨n.encode,n.timestamp,n.step⟩

def generateAll : ℕ → SnowflakeNode → List Word → Option (List Issued)
  | 0, _, _ => some []
  | k+1, n, clock => do
    let (n,clock) ← n.generate clock
    let rest ← generateAll k n clock
    some (issued n::rest)

/-! ## Fields -/

theorem toNat_maxOf {bits : UInt8} (h : bits.toNat < 64) : (maxOf bits).toNat = 2^bits.toNat-1 := by
  have hones : (-1 : Word) = BitVec.allOnes 64 := by decide
  have hlt : 2^bits.toNat ≤ 2^63 := Nat.pow_le_pow_right (by decide) (by omega)
  have heq : maxOf bits = BitVec.ofNat 64 (2^bits.toNat-1) := by
    refine BitVec.eq_of_getLsbD_eq (fun i hi => ?_)
    rw [maxOf, hones, BitVec.getLsbD_xor, BitVec.getLsbD_shiftLeft, BitVec.getLsbD_allOnes,
      BitVec.getLsbD_ofNat, BitVec.getLsbD_allOnes]
    by_cases hb : i < bits.toNat
    · simp [hi, hb]
    · simp [hi, hb]
      omega
  rw [heq, BitVec.toNat_ofNat, Nat.mod_eq_of_lt (by omega)]

theorem toNat_limitMask {total : UInt8} (h : total.toNat ≤ 63) : (limitMask total).toNat = 2^total.toNat-1 := by
  by_cases h63 : total = 63
  · subst h63
    decide
  have hne : total ≠ 64 := by
    rintro rfl
    revert h
    decide
  have hlt : total.toNat < 63 := by
    refine lt_of_le_of_ne h (fun hc => h63 (UInt8.toNat_inj.mp hc))
  have hp : 2^total.toNat ≤ 2^62 := Nat.pow_le_pow_right (by decide) (by omega)
  have hpos : 0 < 2^total.toNat := Nat.two_pow_pos _
  rw [limitMask, if_neg (by simp [h63, hne])]
  have hs : ((1 : Word) <<< total.toNat).toNat = 2^total.toNat := by
    have hone : (1 : Word).toNat = 1 := rfl
    rw [BitVec.toNat_shiftLeft, hone, Nat.shiftLeft_eq, one_mul, Nat.mod_eq_of_lt (by omega)]
  have hle : (1 : Word) ≤ (1 : Word) <<< total.toNat := by
    rw [BitVec.le_def, hs]
    exact hpos
  rw [BitVec.toNat_sub_of_le hle, hs]
  rfl

theorem fields_or {d w s a b : ℕ} (hw : w < 2^a) (hs : s < 2^b) :
    d*2^(a+b) ||| w*2^b ||| s = d*2^(a+b)+w*2^b+s := by
  have h1 : d*2^(a+b) ||| w*2^b = (d*2^a+w)*2^b := by
    have h0 := Nat.two_pow_add_eq_or_of_lt hw d
    have h2 : d*2^(a+b) = (2^a*d) <<< b := by rw [Nat.shiftLeft_eq]; ring
    rw [h2, ← Nat.shiftLeft_eq w, ← Nat.shiftLeft_or_distrib, ← h0, Nat.shiftLeft_eq, Nat.mul_comm d]
  have h2 := Nat.two_pow_add_eq_or_of_lt hs (d*2^a+w)
  rw [h1, Nat.mul_comm _ (2^b), ← h2]
  ring

theorem fields_lt (d : ℕ) {w s a b : ℕ} (c : ℕ) (hd : d < 2^c) (hw : w < 2^a) (hs : s < 2^b) :
    d*2^(a+b)+w*2^b+s < 2^(c+(a+b)) := by
  have h1 : w*2^b+s < 2^(a+b) := by
    have : (w+1)*2^b ≤ 2^a*2^b := Nat.mul_le_mul_right _ hw
    rw [← pow_add, Nat.add_mul] at this
    omega
  have h2 : (d+1)*2^(a+b) ≤ 2^c*2^(a+b) := Nat.mul_le_mul_right _ hd
  rw [← pow_add, Nat.add_mul] at h2
  omega

theorem toNat_sub_of_toInt {x y : Word} {m : ℕ} (h : x.toInt-y.toInt = m) (hm : m < 2^64) :
    (x-y).toNat = m := by
  have heq : x-y = BitVec.ofNat 64 m := by
    refine BitVec.eq_of_toInt_eq ?_
    rw [BitVec.toInt_sub, h, BitVec.toInt_ofNat']
  rw [heq, BitVec.toNat_ofNat, Nat.mod_eq_of_lt hm]

structure Configured (c : Snowflake) (w : Word) (n : SnowflakeNode) : Prop where
  node : n.node = w
  epoch : n.epoch = c.epoch
  stepMax : n.stepMax = maxOf c.step
  timeShift : n.timeShift = c.node+c.step
  nodeShift : n.nodeShift = c.step
  mask : n.limitMask = limitMask (totalBits c)
  step : n.step.toNat < 2^c.step.toNat

structure WordSized (c : Snowflake) : Prop where
  total : (totalBits c).toNat ≤ 63
  sum : c.node.toNat+c.step.toNat < (totalBits c).toNat

def timeBits (c : Snowflake) : ℕ := (totalBits c).toNat-c.node.toNat-c.step.toNat

def InTime (c : Snowflake) (time : Word) : Prop :=
  0 ≤ time.toInt-c.epoch.toInt ∧ time.toInt-c.epoch.toInt < 2^timeBits c

def fields (c : Snowflake) (w time step : Word) : ℕ :=
  (time.toInt-c.epoch.toInt).toNat*2^(c.node.toNat+c.step.toNat)+w.toNat*2^c.step.toNat+step.toNat

variable {w : Word} {n : SnowflakeNode}

section Encoding
variable {c : Snowflake} (hf : WordSized c)
include hf

theorem WordSized.bits : timeBits c+(c.node.toNat+c.step.toNat) = (totalBits c).toNat := by
  have := hf.sum
  rw [timeBits]
  omega

theorem WordSized.shift : (c.node+c.step).toNat = c.node.toNat+c.step.toNat := by
  have h1 := hf.sum
  have h2 := hf.total
  rw [UInt8.toNat_add, Nat.mod_eq_of_lt (by omega)]

theorem fields_bound {time step : Word} (hw : w.toNat < 2^c.node.toNat)
    (hs : step.toNat < 2^c.step.toNat) (ht : InTime c time) :
    fields c w time step < 2^(totalBits c).toNat := by
  rw [← hf.bits]
  refine fields_lt _ _ ?_ hw hs
  rw [Int.toNat_lt ht.1]
  exact ht.2

theorem encode_toNat (hn : Configured c w n) (hw : w.toNat < 2^c.node.toNat)
    (ht : InTime c n.timestamp) : n.encode.toNat = fields c w n.timestamp n.step := by
  have htotal := hf.total
  have hb := fields_bound hf hw hn.step ht
  have hp : 2^(totalBits c).toNat ≤ 2^63 := Nat.pow_le_pow_right (by decide) htotal
  obtain ⟨m,hm⟩ := Int.eq_ofNat_of_zero_le ht.1
  have hfields : fields c w n.timestamp n.step =
      m*2^(c.node.toNat+c.step.toNat)+w.toNat*2^c.step.toNat+n.step.toNat := by
    rw [fields, hm]
    rfl
  rw [hfields] at hb ⊢
  have hpos : 0 < 2^(c.node.toNat+c.step.toNat) := Nat.two_pow_pos _
  have hm64 : m < 2^64 := by
    have : m*1 ≤ m*2^(c.node.toNat+c.step.toNat) := Nat.mul_le_mul_left _ hpos
    omega
  have hd : (n.timestamp-n.epoch).toNat = m := toNat_sub_of_toInt (by rw [hn.epoch, hm]) hm64
  rw [SnowflakeNode.encode, BitVec.toNat_and, BitVec.toNat_or, BitVec.toNat_or, BitVec.toNat_shiftLeft,
    BitVec.toNat_shiftLeft, hd, hn.node, hn.timeShift, hn.nodeShift, hn.mask, hf.shift, Nat.shiftLeft_eq,
    Nat.shiftLeft_eq, Nat.mod_eq_of_lt (by omega), Nat.mod_eq_of_lt (by omega),
    fields_or hw hn.step, toNat_limitMask htotal, Nat.and_two_pow_sub_one_eq_mod,
    Nat.mod_eq_of_lt hb]

theorem encode_toInt (hn : Configured c w n) (hw : w.toNat < 2^c.node.toNat)
    (ht : InTime c n.timestamp) : n.encode.toInt = fields c w n.timestamp n.step := by
  have hb := fields_bound hf hw hn.step ht
  have hp : 2^(totalBits c).toNat ≤ 2^63 := Nat.pow_le_pow_right (by decide) hf.total
  rw [BitVec.toInt_eq_toNat_of_lt, encode_toNat hf hn hw ht]
  rw [encode_toNat hf hn hw ht]
  omega

end Encoding

/-! ## Calls of Generate -/

def Later (n n' : SnowflakeNode) : Prop := n.timestamp.toInt < n'.timestamp.toInt ∨
  (n'.timestamp = n.timestamp ∧ n.step.toNat < n'.step.toNat)

theorem wait_later {clock rest : List Word} {now : Word}
    (h : n.wait clock = some (now,rest)) : n.timestamp.toInt < now.toInt := by
  induction clock with
  | nil => cases h
  | cons nanos clock ih =>
    rw [SnowflakeNode.wait] at h
    split at h
    · exact ih h
    rename_i hle
    cases h
    rw [BitVec.sle_iff_toInt_le, not_le] at hle
    exact hle

theorem generate_moved {c : Snowflake} {n' : SnowflakeNode} {clock rest : List Word} (hf : WordSized c)
    (hn : Configured c w n) (h : n.generate clock = some (n',rest)) : Configured c w n' ∧ Later n n' := by
  have hs63 : c.step.toNat < 63 := by
    have h1 := hf.sum
    have h2 := hf.total
    omega
  have hpow : 2^c.step.toNat ≤ 2^62 := Nat.pow_le_pow_right (by decide) (by omega)
  have hpos : 0 < 2^c.step.toNat := Nat.two_pow_pos _
  have hmoved : ∀ now step : Word, step.toNat < 2^c.step.toNat → Configured c w (n.moved now step) :=
    fun now step hs => ⟨hn.node,hn.epoch,hn.stepMax,hn.timeShift,hn.nodeShift,hn.mask,hs⟩
  have hstep : ((n.step+1) &&& n.stepMax).toNat = (n.step.toNat+1)%2^c.step.toNat := by
    have hlt := hn.step
    have hone : (1 : Word).toNat = 1 := rfl
    rw [BitVec.toNat_and, hn.stepMax, toNat_maxOf (by omega), Nat.and_two_pow_sub_one_eq_mod,
      BitVec.toNat_add, hone, Nat.mod_eq_of_lt (show n.step.toNat+1 < 2^64 by omega)]
  cases clock with
  | nil => cases h
  | cons nanos clock =>
    rw [SnowflakeNode.generate] at h
    by_cases hnow : (if (n.unit nanos).slt n.timestamp then n.timestamp else n.unit nanos) = n.timestamp
    · simp only [hnow, if_true] at h
      by_cases h0 : (n.step+1) &&& n.stepMax = 0
      · rw [h0] at h
        obtain ⟨r,hr,he⟩ := Option.map_eq_some_iff.mp h
        cases he
        exact ⟨hmoved _ _ hpos,.inl (wait_later hr)⟩
      rw [if_neg h0] at h
      cases h
      have hne : (n.step.toNat+1)%2^c.step.toNat ≠ 0 := fun hc => h0 (BitVec.eq_of_toNat_eq (hstep.trans hc))
      have hlt := hn.step
      have hsucc : (n.step.toNat+1)%2^c.step.toNat = n.step.toNat+1 := by
        refine Nat.mod_eq_of_lt (lt_of_le_of_ne hlt (fun hc => hne ?_))
        rw [hc, Nat.mod_self]
      refine ⟨hmoved _ _ ?_,.inr ⟨rfl,?_⟩⟩
      · rw [hstep]
        exact Nat.mod_lt _ hpos
      · change n.step.toNat < ((n.step+1) &&& n.stepMax).toNat
        rw [hstep, hsucc]
        exact Nat.lt_succ_self _
    simp only [hnow, if_false] at h
    cases h
    refine ⟨hmoved _ _ hpos,.inl ?_⟩
    by_cases hlt : (n.unit nanos).slt n.timestamp = true
    · rw [if_pos hlt] at hnow
      exact absurd rfl hnow
    · rw [if_neg hlt] at hnow ⊢
      rw [BitVec.slt_iff_toInt_lt, not_lt] at hlt
      exact lt_of_le_of_ne hlt (fun hc => hnow (BitVec.eq_of_toInt_eq hc.symm))

theorem Later.trans {l m : SnowflakeNode} (h : Later l m) (h' : Later m n) : Later l n := by
  rcases h with h | ⟨h,hs⟩
  · rcases h' with h' | ⟨h',_⟩
    · exact .inl (h.trans h')
    · exact .inl (by rw [h']; exact h)
  · rcases h' with h' | ⟨h',hs'⟩
    · exact .inl (by rw [← h]; exact h')
    · exact .inr ⟨h'.trans h,hs.trans hs'⟩

theorem generateAll_nodes (c : Snowflake) (w : Word) (hf : WordSized c) (k : ℕ) (n : SnowflakeNode)
    (clock : List Word) (xs : List Issued) (hn : Configured c w n) (h : generateAll k n clock = some xs) :
    ∃ ns : List SnowflakeNode, xs = ns.map issued ∧ (∀ m ∈ ns, Configured c w m ∧ Later n m) ∧
      ns.Pairwise Later := by
  induction k generalizing n clock xs with
  | zero =>
    cases h
    exact ⟨[],rfl,by simp,List.Pairwise.nil⟩
  | succ k ih =>
    obtain ⟨⟨n',rest⟩,h1,h2⟩ := Option.bind_eq_some_iff.mp h
    obtain ⟨ys,h3,h4⟩ := Option.bind_eq_some_iff.mp h2
    cases h4
    obtain ⟨hn',hl⟩ := generate_moved hf hn h1
    obtain ⟨ns,rfl,hall,hp⟩ := ih n' rest ys hn' h3
    refine ⟨n'::ns,rfl,fun m hm => ?_,pairwise_cons.mpr ⟨fun m hm => (hall m hm).2,hp⟩⟩
    rcases mem_cons.mp hm with rfl | hm
    · exact ⟨hn',hl⟩
    · exact ⟨(hall m hm).1,hl.trans (hall m hm).2⟩

theorem newSnowflakeNode_configured {c : Snowflake} (hf : WordSized c)
    (h : newSnowflakeNode c w = .ok n) : Configured c w n ∧ w.toNat < 2^c.node.toNat := by
  have hsum := hf.sum
  have htotal := hf.total
  have hpow : 2^c.node.toNat ≤ 2^62 := Nat.pow_le_pow_right (by decide) (by omega)
  have hpos : 0 < 2^c.node.toNat := Nat.two_pow_pos _
  rw [newSnowflakeNode] at h
  split at h
  · cases h
  rename_i hw
  split at h
  · cases h
  cases h
  refine ⟨⟨rfl,rfl,rfl,rfl,rfl,rfl,Nat.two_pow_pos _⟩,?_⟩
  have hmax : (maxOf c.node).toInt = (2^c.node.toNat-1 : ℕ) := by
    rw [BitVec.toInt_eq_toNat_of_lt, toNat_maxOf (by omega)]
    rw [toNat_maxOf (by omega)]
    omega
  rw [not_or, BitVec.slt_iff_toInt_lt, BitVec.slt_iff_toInt_lt, not_lt] at hw
  have hw0 : (0 : ℤ) ≤ w.toInt := hw.1
  have htn : w.toInt = w.toNat := by
    rw [BitVec.toInt_eq_toNat_of_lt]
    by_contra hge
    have hneg : w.toInt < 0 := by
      rw [BitVec.toInt_eq_toNat_cond]
      omega
    omega
  omega

/-! ## Identifiers -/

def Splits (c : Snowflake) (w : Word) (x : Issued) : Prop :=
  (x.id >>> (c.node.toNat+c.step.toNat)).toInt = x.time.toInt-c.epoch.toInt ∧
  x.id >>> c.step.toNat &&& maxOf c.node = w ∧ x.id &&& maxOf c.step = x.step

section Identifiers
variable {c : Snowflake} {w : Word} (hf : WordSized c) (hw : w.toNat < 2^c.node.toNat)
include hf hw

theorem issued_splits (hn : Configured c w n) (ht : InTime c n.timestamp) :
    Splits c w (issued n) := by
  have hsum := hf.sum
  have htotal := hf.total
  have henc := encode_toNat hf hn hw ht
  have hlow : w.toNat*2^c.step.toNat+n.step.toNat < 2^(c.node.toNat+c.step.toNat) := by
    have := fields_lt 0 0 (by decide) hw hn.step
    simpa using this
  have hhigh : fields c w n.timestamp n.step =
      2^(c.node.toNat+c.step.toNat)*(n.timestamp.toInt-c.epoch.toInt).toNat+
        (w.toNat*2^c.step.toNat+n.step.toNat) := by
    rw [fields]
    ring
  have hmid : fields c w n.timestamp n.step =
      2^c.step.toNat*((n.timestamp.toInt-c.epoch.toInt).toNat*2^c.node.toNat+w.toNat)+n.step.toNat := by
    rw [fields]
    ring
  refine ⟨?_,BitVec.eq_of_toNat_eq ?_,BitVec.eq_of_toNat_eq ?_⟩
  · have hdiv : fields c w n.timestamp n.step/2^(c.node.toNat+c.step.toNat) =
        (n.timestamp.toInt-c.epoch.toInt).toNat := by
      rw [hhigh, Nat.mul_add_div (Nat.two_pow_pos _), Nat.div_eq_of_lt hlow, Nat.add_zero]
    have hb := fields_bound hf hw hn.step ht
    have hp : 2^(totalBits c).toNat ≤ 2^63 := Nat.pow_le_pow_right (by decide) htotal
    have hshift : (n.encode >>> (c.node.toNat+c.step.toNat)).toNat =
        (n.timestamp.toInt-c.epoch.toInt).toNat := by
      rw [BitVec.toNat_ushiftRight, henc, Nat.shiftRight_eq_div_pow, hdiv]
    have hle : (n.timestamp.toInt-c.epoch.toInt).toNat ≤ fields c w n.timestamp n.step := by
      rw [← hdiv]
      exact Nat.div_le_self _ _
    change (n.encode >>> (c.node.toNat+c.step.toNat)).toInt = n.timestamp.toInt-c.epoch.toInt
    rw [BitVec.toInt_eq_toNat_of_lt (by omega), hshift, Int.toNat_of_nonneg ht.1]
  · change (n.encode >>> c.step.toNat &&& maxOf c.node).toNat = w.toNat
    rw [BitVec.toNat_and, BitVec.toNat_ushiftRight, henc, Nat.shiftRight_eq_div_pow, hmid,
      Nat.mul_add_div (Nat.two_pow_pos _), Nat.div_eq_of_lt hn.step, Nat.add_zero, toNat_maxOf (by omega),
      Nat.and_two_pow_sub_one_eq_mod, Nat.mul_comm, Nat.mul_add_mod, Nat.mod_eq_of_lt hw]
  · change (n.encode &&& maxOf c.step).toNat = n.step.toNat
    rw [BitVec.toNat_and, henc, toNat_maxOf (by omega), Nat.and_two_pow_sub_one_eq_mod, hmid,
      Nat.mul_add_mod, Nat.mod_eq_of_lt hn.step]

theorem later_id_lt {m : SnowflakeNode} (hm : Configured c w m) (hn : Configured c w n)
    (htm : InTime c m.timestamp) (htn : InTime c n.timestamp) (h : Later m n) :
    m.encode.toInt < n.encode.toInt := by
  rw [encode_toInt hf hm hw htm, encode_toInt hf hn hw htn]
  rcases h with h | ⟨h,hs⟩
  · have hlow : w.toNat*2^c.step.toNat+m.step.toNat < 2^(c.node.toNat+c.step.toNat) := by
      have := fields_lt 0 0 (by decide) hw hm.step
      simpa using this
    have h1 := htm.1
    have hd : (m.timestamp.toInt-c.epoch.toInt).toNat+1 ≤ (n.timestamp.toInt-c.epoch.toInt).toNat := by omega
    have hmul := Nat.mul_le_mul_right (2^(c.node.toNat+c.step.toNat)) hd
    rw [Nat.add_mul] at hmul
    rw [fields, fields]
    omega
  · rw [fields, fields, h]
    omega

end Identifiers

/-- The identifiers of a node increase, every one splits into its fields, and a node
of the same configuration with another worker has others. -/
theorem ids_increase_and_differ (c : Snowflake) (hf : WordSized c) (w : Word) (n : SnowflakeNode)
    (h : newSnowflakeNode c w = .ok n) (k : ℕ) (clock : List Word) (xs : List Issued)
    (hx : generateAll k n clock = some xs) (ht : ∀ x ∈ xs, InTime c x.time) :
    xs.Pairwise (fun x y => x.id.toInt < y.id.toInt) ∧ (∀ x ∈ xs, Splits c w x) ∧
    ∀ (w' : Word) (n' : SnowflakeNode) (k' : ℕ) (clock' : List Word) (ys : List Issued),
      newSnowflakeNode c w' = .ok n' → w' ≠ w → generateAll k' n' clock' = some ys →
      (∀ y ∈ ys, InTime c y.time) → ∀ x ∈ xs, ∀ y ∈ ys, x.id ≠ y.id := by
  have hsplits : ∀ (w : Word) (n : SnowflakeNode) (k : ℕ) (clock : List Word) (xs : List Issued),
      newSnowflakeNode c w = .ok n → generateAll k n clock = some xs → (∀ x ∈ xs, InTime c x.time) →
      ∀ x ∈ xs, Splits c w x := by
    intro w n k clock xs h hx ht x hxm
    obtain ⟨hc,hw⟩ := newSnowflakeNode_configured hf h
    obtain ⟨ns,rfl,hall,_⟩ := generateAll_nodes c w hf k n clock xs hc hx
    obtain ⟨m,hm,rfl⟩ := mem_map.mp hxm
    exact issued_splits hf hw (hall m hm).1 (ht _ hxm)
  refine ⟨?_,hsplits w n k clock xs h hx ht,?_⟩
  · obtain ⟨hc,hw⟩ := newSnowflakeNode_configured hf h
    obtain ⟨ns,rfl,hall,hp⟩ := generateAll_nodes c w hf k n clock xs hc hx
    refine pairwise_map.mpr (hp.imp_of_mem (fun {a b} ha hb hl => ?_))
    exact later_id_lt hf hw (hall a ha).1 (hall b hb).1 (ht _ (mem_map_of_mem ha))
      (ht _ (mem_map_of_mem hb)) hl
  intro w' n' k' clock' ys h' hne hy hty x hxm y hym he
  have h1 := (hsplits w n k clock xs h hx ht x hxm).2.1
  have h2 := (hsplits w' n' k' clock' ys h' hy hty y hym).2.1
  rw [he] at h1
  exact hne (h2.symm.trans h1)

def smallConfig : Snowflake := ⟨0,2,1,12⟩

/-- A clock that stands still and goes back while the node waits for the next second. -/
theorem waiting_node_increases : newSnowflakeNode smallConfig 2 = .ok ⟨0,2,0,0,12,1,3,1,4095⟩ ∧
    generateAll 3 ⟨0,2,0,0,12,1,3,1,4095⟩ [5000000000,5000000000,5000000000,4000000000,6000000000] =
      some [⟨44,5,0⟩,⟨45,5,1⟩,⟨52,6,0⟩] ∧
    [(⟨44,5,0⟩ : Issued),⟨45,5,1⟩,⟨52,6,0⟩].Pairwise (fun x y => x.id.toInt < y.id.toInt) := by
  have hn : newSnowflakeNode smallConfig 2 = .ok ⟨0,2,0,0,12,1,3,1,4095⟩ := rfl
  have hr : generateAll 3 ⟨0,2,0,0,12,1,3,1,4095⟩
      [5000000000,5000000000,5000000000,4000000000,6000000000] =
      some [⟨44,5,0⟩,⟨45,5,1⟩,⟨52,6,0⟩] := by decide +kernel
  exact ⟨hn,hr,(ids_increase_and_differ smallConfig ⟨by decide,by decide⟩ 2 _ hn 3 _ _ hr
    (by unfold InTime; decide)).1⟩

end GoCommon.UniqueIds
