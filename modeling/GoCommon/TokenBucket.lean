import GoCommon.ByteWords

/-!
# The token bucket

Tokens are exact rational numbers, clock readings are 64-bit integers and every call
reads the clock once. The bound on the allowed calls of a window follows from a
potential: what the bucket holds, and what it can still receive until the end of the
window. A refill that comes 2^63 nanoseconds or more after the last one is lost.
-/

set_option autoImplicit false

namespace GoCommon.TokenBucket
open List ByteWords

structure Bucket where
  capacity : ℚ
  tokens : ℚ
  fillRate : ℚ
  lastFill : ℤ

inductive Setting where
  | bucketCapacity (cap : ℤ)
  | bucketFillRate (tokens interval : ℤ)

def defaultBucketCapacity : ℚ := 10

def defaultFillRate : ℚ := 1

def defaultFillInterval : ℤ := second

def defaultTokensPerTake : ℤ := 1

namespace Bucket

def set : Setting → Bucket → Bucket
  | .bucketCapacity cap, tb => if 0 < cap then { tb with capacity := cap, tokens := cap } else tb
  | .bucketFillRate tokens interval, tb =>
    if 0 < tokens ∧ 0 < interval then { tb with fillRate := tokens/interval } else tb

def newTokenBucket (opts : List Setting) (now : ℤ) : Bucket :=
  let tb : Bucket := ⟨defaultBucketCapacity,defaultBucketCapacity,defaultFillRate/defaultFillInterval,0⟩
  { opts.foldl (fun tb opt => tb.set opt) tb with lastFill := now }

def refill (now : ℤ) (tb : Bucket) : Bucket :=
  let elapsed := int64 (now-tb.lastFill)
  if elapsed ≤ 0 then tb
  else
    let tokens := tb.tokens+elapsed*tb.fillRate
    { tb with tokens := if tb.capacity < tokens then tb.capacity else tokens, lastFill := now }

def allow (n now : ℤ) (tb : Bucket) : Bucket × Bool :=
  let tb := tb.refill now
  let cost : ℚ := n
  if tb.tokens < cost then (tb,false) else ({ tb with tokens := tb.tokens-cost },true)

def allowOne (now : ℤ) (tb : Bucket) : Bucket × Bool := tb.allow defaultTokensPerTake now

def tokensLeft (now : ℤ) (tb : Bucket) : Bucket × ℚ := (tb.refill now,(tb.refill now).tokens)

def reset (now : ℤ) (tb : Bucket) : Bucket := { tb with tokens := tb.capacity, lastFill := now }

end Bucket

/-! ## Runs -/

inductive Call where
  | allowOne
  | tokens
deriving DecidableEq

inductive Answer where
  | allowed (ok : Bool)
  | tokens (n : ℚ)
deriving DecidableEq

def call : Call → ℤ → Bucket → Bucket × Answer
  | .allowOne, now, tb => ((tb.allowOne now).1,.allowed (tb.allowOne now).2)
  | .tokens, now, tb => ((tb.tokensLeft now).1,.tokens (tb.tokensLeft now).2)

structure Entry where
  time : ℤ
  call : Call
  found : Bucket
  answer : Answer

def entries : List (ℤ × Call) → Bucket → List Entry
  | [], _ => []
  | (now,c)::calls, tb => ⟨now,c,tb,(call c now tb).2⟩::entries calls (call c now tb).1

def level (tb : Bucket) (gone : ℤ) : ℚ := min tb.capacity (tb.tokens+tb.fillRate*gone)

def allowedIn (s t : ℤ) (e : Entry) : Bool := e.answer = .allowed true ∧ s ≤ e.time ∧ e.time ≤ t

/-! ## One call -/

structure InBounds (tb : Bucket) : Prop where
  rate : 0 ≤ tb.fillRate
  tokens : 0 ≤ tb.tokens
  full : tb.tokens ≤ tb.capacity

variable {tb : Bucket} {now : ℤ}

theorem set_inBounds (opt : Setting) (h : InBounds tb) (hfull : tb.tokens = tb.capacity) :
    InBounds (tb.set opt) ∧ (tb.set opt).tokens = (tb.set opt).capacity := by
  cases opt with
  | bucketCapacity cap =>
    rw [Bucket.set]
    split
    · rename_i hcap
      have hnonneg : (0 : ℚ) ≤ cap := by exact_mod_cast hcap.le
      exact ⟨⟨h.rate,hnonneg,le_rfl⟩,rfl⟩
    · exact ⟨h,hfull⟩
  | bucketFillRate tokens interval =>
    rw [Bucket.set]
    split
    · rename_i hpos
      refine ⟨⟨?_,h.tokens,h.full⟩,hfull⟩
      exact div_nonneg (by exact_mod_cast hpos.1.le) (by exact_mod_cast hpos.2.le)
    · exact ⟨h,hfull⟩

/-- What every option keeps holds of a new bucket. -/
theorem newTokenBucket_induction (P : Bucket → Prop) (opts : List Setting) (now : ℤ)
    (h0 : P ⟨defaultBucketCapacity,defaultBucketCapacity,defaultFillRate/defaultFillInterval,0⟩)
    (hset : ∀ opt ∈ opts, ∀ tb, P tb → P (tb.set opt))
    (hnow : ∀ tb, P tb → P { tb with lastFill := now }) : P (Bucket.newTokenBucket opts now) := by
  apply hnow
  generalize (⟨_,_,_,_⟩ : Bucket) = tb at h0
  induction opts generalizing tb with
  | nil => exact h0
  | cons opt opts ih =>
    exact ih (fun o ho => hset o (mem_cons_of_mem _ ho)) _ (hset opt mem_cons_self tb h0)

theorem newTokenBucket_inBounds (opts : List Setting) (now : ℤ) :
    InBounds (Bucket.newTokenBucket opts now) ∧
      (Bucket.newTokenBucket opts now).tokens = (Bucket.newTokenBucket opts now).capacity := by
  apply newTokenBucket_induction (fun tb => InBounds tb ∧ tb.tokens = tb.capacity)
  · exact ⟨⟨by norm_num [defaultFillRate, defaultFillInterval, second],
      by norm_num [defaultBucketCapacity],le_rfl⟩,rfl⟩
  · exact fun opt _ tb h => set_inBounds opt h.1 h.2
  · exact fun tb h => ⟨⟨h.1.rate,h.1.tokens,h.1.full⟩,h.2⟩

theorem refill_spec (now : ℤ) (h : InBounds tb) :
    (tb.refill now).tokens = level tb (max 0 (int64 (now-tb.lastFill))) ∧
      (tb.refill now).capacity = tb.capacity ∧ (tb.refill now).fillRate = tb.fillRate := by
  rw [Bucket.refill]
  split
  · rename_i hle
    rw [max_eq_left hle, level, Int.cast_zero, mul_zero, add_zero, min_eq_right h.full]
    exact ⟨rfl,rfl,rfl⟩
  · rw [max_eq_right (by omega), level, min_def]
    refine ⟨?_,rfl,rfl⟩
    dsimp only
    split_ifs <;> linarith

theorem level_nonneg (h : InBounds tb) {gone : ℤ} (hg : 0 ≤ gone) : 0 ≤ level tb gone := by
  have hgain : 0 ≤ tb.fillRate*gone := mul_nonneg h.rate (by exact_mod_cast hg)
  exact le_min (h.tokens.trans h.full) (by linarith [h.tokens])

theorem refill_inBounds (now : ℤ) (h : InBounds tb) : InBounds (tb.refill now) := by
  obtain ⟨htokens,hcap,hrate⟩ := refill_spec now h
  refine ⟨hrate ▸ h.rate,?_,?_⟩
  · rw [htokens]
    exact level_nonneg h (le_max_left _ _)
  · rw [htokens, hcap]
    exact min_le_left _ _

theorem call_spec (c : Call) (now : ℤ) (h : InBounds tb) :
    InBounds (call c now tb).1 ∧ (call c now tb).1.capacity = tb.capacity ∧
      (call c now tb).1.fillRate = tb.fillRate ∧
      (call c now tb).1.lastFill = (tb.refill now).lastFill ∧
      (call c now tb).1.tokens+(if (call c now tb).2 = .allowed true then 1 else 0) =
        level tb (max 0 (int64 (now-tb.lastFill))) ∧
      ((call c now tb).2 = .allowed false ↔
        c = .allowOne ∧ level tb (max 0 (int64 (now-tb.lastFill))) < 1) := by
  obtain ⟨htokens,hcap,hrate⟩ := refill_spec now h
  have hin := refill_inBounds now h
  rw [← htokens]
  cases c with
  | tokens => exact ⟨hin,hcap,hrate,rfl,add_zero _,by simp [call]⟩
  | allowOne =>
    have hallow : tb.allowOne now = if (tb.refill now).tokens < ((1 : ℤ) : ℚ) then (tb.refill now,false)
        else ({ tb.refill now with tokens := (tb.refill now).tokens-((1 : ℤ) : ℚ) },true) := rfl
    rw [call, hallow]
    push_cast
    split
    · rename_i hlow
      exact ⟨hin,hcap,hrate,rfl,by simp,by simp [hlow]⟩
    · rename_i hlow
      refine ⟨⟨hin.rate,?_,?_⟩,hcap,hrate,rfl,by simp,by simp [hlow]⟩
      · linarith
      · linarith [hin.full]

/-! ## The clock -/

/-- A difference of less than 2^63 is refilled and moves the time of the last refill. -/
theorem call_timely (c : Call) (h : InBounds tb) (hnow : tb.lastFill ≤ now)
    (hfits : now-tb.lastFill < 2^63) :
    max 0 (int64 (now-tb.lastFill)) = now-tb.lastFill ∧ (call c now tb).1.lastFill = now := by
  have hint : int64 (now-tb.lastFill) = now-tb.lastFill := int64_of_range (by omega) hfits
  refine ⟨by omega,?_⟩
  rw [(call_spec c now h).2.2.2.1, Bucket.refill]
  split
  · omega
  · rfl

/-- A difference of 2^63 or more is negative in 64 bits: nothing is refilled. -/
theorem call_late (c : Call) (h : InBounds tb) (hlast : IsInt64 tb.lastFill) (hnow : IsInt64 now)
    (hlate : 2^63 ≤ now-tb.lastFill) :
    level tb (max 0 (int64 (now-tb.lastFill))) = tb.tokens ∧
      (call c now tb).1.lastFill = tb.lastFill := by
  have hneg : int64 (now-tb.lastFill) < 0 := int64_wrapped hlate (by
    have := hlast.1
    have := hnow.2
    omega)
  refine ⟨?_,?_⟩
  · rw [max_eq_left hneg.le, level, Int.cast_zero, mul_zero, add_zero, min_eq_right h.full]
  · rw [(call_spec c now h).2.2.2.1, Bucket.refill, if_pos hneg.le]

/-! ## Windows -/

def potential (s t : ℤ) (tb : Bucket) : ℚ :=
  if s ≤ tb.lastFill then tb.tokens+tb.fillRate*(t-tb.lastFill) else tb.capacity+tb.fillRate*(t-s)

theorem tokens_le_potential (s t : ℤ) (hst : s ≤ t) (tb : Bucket) (h : InBounds tb)
    (hlast : tb.lastFill ≤ t) : tb.tokens ≤ potential s t tb := by
  have hwindow : 0 ≤ tb.fillRate*(t-s) := mul_nonneg h.rate (sub_nonneg.mpr (by exact_mod_cast hst))
  have hrest : 0 ≤ tb.fillRate*(t-tb.lastFill) :=
    mul_nonneg h.rate (sub_nonneg.mpr (by exact_mod_cast hlast))
  rw [potential]
  split
  · linarith
  · linarith [h.full]

theorem call_potential (s t : ℤ) (c : Call) (h : InBounds tb)
    (hnow : tb.lastFill ≤ now) (hfits : now-tb.lastFill < 2^63) :
    potential s t (call c now tb).1+(if (call c now tb).2 = .allowed true ∧ s ≤ now then 1 else 0) ≤
      potential s t tb := by
  obtain ⟨_,hcap,hrate,_,htokens,_⟩ := call_spec c now h
  obtain ⟨hgone,hlast⟩ := call_timely c h hnow hfits
  rw [hgone] at htokens
  rw [potential, hlast, hcap, hrate, potential]
  by_cases hs : s ≤ now
  · rw [if_pos hs]
    simp only [hs, and_true]
    have hcap' : level tb (now-tb.lastFill) ≤ tb.capacity := min_le_left _ _
    have hgain : level tb (now-tb.lastFill) ≤ tb.tokens+tb.fillRate*((now-tb.lastFill : ℤ) : ℚ) :=
      min_le_right _ _
    push_cast at hgain
    by_cases hold : s ≤ tb.lastFill
    · rw [if_pos hold]
      linarith
    rw [if_neg hold]
    have hless : tb.fillRate*(t-now) ≤ tb.fillRate*(t-s) := by
      refine mul_le_mul_of_nonneg_left ?_ h.rate
      have : (s : ℚ) ≤ now := by exact_mod_cast hs
      linarith
    linarith
  · rw [if_neg hs, if_neg (fun hno => hs hno.2), if_neg (fun hold => hs (hold.trans hnow)), add_zero]

/-- A bucket whose last refill is too long ago is never refilled again. -/
theorem entries_late (s t : ℤ) (calls : List (ℤ × Call)) (tb : Bucket) (start : ℤ) (h : InBounds tb)
    (hlast : IsInt64 tb.lastFill) (hlate : 2^63 ≤ start-tb.lastFill) (ho : Advancing (start::calls.map Prod.fst)) :
    ((entries calls tb).countP (allowedIn s t) : ℚ) ≤ tb.tokens := by
  induction calls generalizing tb start with
  | nil => exact h.tokens
  | cons tc calls ih =>
    obtain ⟨now,c⟩ := tc
    obtain ⟨hle,hrest⟩ := ho.tail
    obtain ⟨hin,_,_,_,htokens,_⟩ := call_spec c now h
    obtain ⟨hlevel,hfill⟩ := call_late c h hlast hrest.head (by omega)
    have hmore := ih (call c now tb).1 now hin (by rw [hfill]; exact hlast)
      (by rw [hfill]; omega) hrest
    have hone : (if allowedIn s t ⟨now,c,tb,(call c now tb).2⟩ = true then 1 else 0 : ℚ) ≤
        if (call c now tb).2 = .allowed true then 1 else 0 := by
      simp only [allowedIn, decide_eq_true_eq]
      split_ifs <;> simp_all
    rw [entries, countP_cons]
    push_cast
    linarith

theorem entries_later (s t : ℤ) (calls : List (ℤ × Call)) (tb : Bucket) (start : ℤ) (hstart : t < start)
    (ho : Advancing (start::calls.map Prod.fst)) : (entries calls tb).countP (allowedIn s t) = 0 := by
  induction calls generalizing tb start with
  | nil => rfl
  | cons tc calls ih =>
    obtain ⟨now,c⟩ := tc
    obtain ⟨hle,hrest⟩ := ho.tail
    rw [entries, countP_cons, ih _ now (by omega) hrest]
    have hout : ¬(allowedIn s t ⟨now,c,tb,(call c now tb).2⟩ = true) := by
      rw [allowedIn, decide_eq_true_eq]
      rintro ⟨_,_,hin⟩
      exact absurd hin (by change ¬now ≤ t; omega)
    rw [if_neg hout]

theorem entries_window (s t : ℤ) (hst : s ≤ t) (calls : List (ℤ × Call)) (tb : Bucket)
    (h : InBounds tb) (ho : Advancing (tb.lastFill::calls.map Prod.fst)) (hlast : tb.lastFill ≤ t) :
    ((entries calls tb).countP (allowedIn s t) : ℚ) ≤ potential s t tb := by
  induction calls generalizing tb with
  | nil => exact h.tokens.trans (tokens_le_potential s t hst tb h hlast)
  | cons tc calls ih =>
    obtain ⟨now,c⟩ := tc
    obtain ⟨hle,hrest⟩ := ho.tail
    have hthis : Advancing (now::now::calls.map Prod.fst) :=
      ⟨pairwise_cons.mpr ⟨fun u hu => (mem_cons.mp hu).elim (fun he => he.ge)
        ((pairwise_cons.mp hrest.1).1 u),hrest.1⟩,forall_mem_cons.mpr ⟨hrest.head,hrest.2⟩⟩
    by_cases hfits : now-tb.lastFill < 2^63
    · by_cases hnow : now ≤ t
      · have hfill := (call_timely c h hle hfits).2
        have hmore := ih (call c now tb).1 (call_spec c now h).1 (by rw [hfill]; exact hrest)
          (by rw [hfill]; exact hnow)
        have hstep := call_potential s t c h hle hfits
        have hcount : (if allowedIn s t ⟨now,c,tb,(call c now tb).2⟩ = true then 1 else 0 : ℚ) =
            if (call c now tb).2 = .allowed true ∧ s ≤ now then 1 else 0 := by
          simp only [allowedIn, decide_eq_true_eq, hnow, and_true]
        rw [entries, countP_cons]
        push_cast
        linarith
      · rw [entries_later s t ((now,c)::calls) tb now (by omega) hthis]
        exact h.tokens.trans (tokens_le_potential s t hst tb h hlast)
    · exact (entries_late s t ((now,c)::calls) tb now h ho.head (by omega) hthis).trans
        (tokens_le_potential s t hst tb h hlast)

/-! ## Refusals -/

structure Serving (tb : Bucket) : Prop where
  inBounds : InBounds tb
  unit : 1 ≤ tb.capacity
  fast : 1 ≤ tb.fillRate*2^63

theorem newTokenBucket_serving {opts : List Setting} (now : ℤ)
    (hopts : ∀ tokens interval, .bucketFillRate tokens interval ∈ opts → interval < 2^63) :
    Serving (Bucket.newTokenBucket opts now) := by
  refine ⟨(newTokenBucket_inBounds opts now).1,?_,?_⟩
  · apply newTokenBucket_induction (fun tb => 1 ≤ tb.capacity)
    · norm_num [defaultBucketCapacity]
    · intro opt _ tb h
      cases opt with
      | bucketCapacity cap =>
        rw [Bucket.set]
        split
        · rename_i hcap
          change (1 : ℚ) ≤ cap
          exact_mod_cast hcap
        · exact h
      | bucketFillRate tokens interval =>
        rw [Bucket.set]
        split <;> exact h
    · exact fun _ h => h
  · apply newTokenBucket_induction (fun tb => 1 ≤ tb.fillRate*2^63)
    · norm_num [defaultFillRate, defaultFillInterval, second]
    · intro opt ho tb h
      cases opt with
      | bucketCapacity cap =>
        rw [Bucket.set]
        split <;> exact h
      | bucketFillRate tokens interval =>
        rw [Bucket.set]
        split
        · rename_i hpos
          have hlt : (interval : ℚ) ≤ 2^63 := by exact_mod_cast (hopts _ _ ho).le
          have hone : (1 : ℚ) ≤ tokens := by exact_mod_cast hpos.1
          have hzero : (0 : ℚ) < interval := by exact_mod_cast hpos.2
          rw [div_mul_eq_mul_div, le_div_iff₀ hzero]
          nlinarith
        · exact h
    · exact fun _ h => h

theorem call_serving (c : Call) (now : ℤ) (h : Serving tb) : Serving (call c now tb).1 := by
  obtain ⟨hin,hcap,hrate,_⟩ := call_spec c now h.inBounds
  exact ⟨hin,by rw [hcap]; exact h.unit,by rw [hrate]; exact h.fast⟩

/-- A call for a token finds one, or the last refill is less than 2^63 nanoseconds ago. -/
def Recent (e : Entry) : Prop :=
  e.call = .allowOne → 1 ≤ e.found.tokens ∨ e.time-e.found.lastFill < 2^63

theorem refused_iff (c : Call) (h : Serving tb) (hlast : IsInt64 tb.lastFill) (hnow : IsInt64 now)
    (hle : tb.lastFill ≤ now) :
    ((call c now tb).2 = .allowed false → level tb (now-tb.lastFill) < 1) ↔
      Recent ⟨now,c,tb,(call c now tb).2⟩ := by
  obtain ⟨_,_,_,_,_,hno⟩ := call_spec c now h.inBounds
  rw [hno]
  by_cases hfits : now-tb.lastFill < 2^63
  · rw [(call_timely c h.inBounds hle hfits).1]
    exact iff_of_true (fun hlow => hlow.2) (fun _ => .inr hfits)
  rw [(call_late c h.inBounds hlast hnow (by omega)).1]
  have hlevel : 1 ≤ level tb (now-tb.lastFill) := by
    refine le_min h.unit ?_
    have hlong : (2^63 : ℚ) ≤ ((now-tb.lastFill : ℤ) : ℚ) := by exact_mod_cast (not_lt.mp hfits)
    have := mul_le_mul_of_nonneg_left hlong h.inBounds.rate
    linarith [h.fast, h.inBounds.tokens]
  constructor
  · exact fun hlow hc => .inl (le_of_not_gt fun hlt => absurd (hlow ⟨hc,hlt⟩) (not_lt.mpr hlevel))
  · rintro ht ⟨hc,hlt⟩
    exact absurd hlt (not_lt.mpr ((ht hc).resolve_right hfits))

theorem entries_refused_iff (calls : List (ℤ × Call)) (tb : Bucket) (start : ℤ) (h : Serving tb)
    (hlast : IsInt64 tb.lastFill) (hle : tb.lastFill ≤ start) (ho : Advancing (start::calls.map Prod.fst)) :
    (∀ e ∈ entries calls tb, e.answer = .allowed false →
      level e.found (e.time-e.found.lastFill) < 1) ↔ ∀ e ∈ entries calls tb, Recent e := by
  induction calls generalizing tb start with
  | nil => exact iff_of_true (by simp [entries]) (by simp [entries])
  | cons tc calls ih =>
    obtain ⟨now,c⟩ := tc
    obtain ⟨hnow,hrest⟩ := ho.tail
    have hfill : IsInt64 (call c now tb).1.lastFill ∧ (call c now tb).1.lastFill ≤ now := by
      rw [(call_spec c now h.inBounds).2.2.2.1, Bucket.refill]
      split
      · exact ⟨hlast,hle.trans hnow⟩
      · exact ⟨hrest.head,le_refl now⟩
    rw [entries, forall_mem_cons, forall_mem_cons,
      refused_iff c h hlast hrest.head (hle.trans hnow)]
    exact and_congr_right fun _ => ih _ now (call_serving c now h) hfill.1 hfill.2 hrest

/-- In every window of a run the allowed calls are bounded by the capacity and the refill of
the window; and a call is refused only if the bucket, refilled, holds less than one token,
exactly if every call for a token finds one or is made less than 2^63 nanoseconds after the
last refill. -/
theorem bucket_bounds_rate (opts : List Setting) (start : ℤ) (calls : List (ℤ × Call))
    (hopts : ∀ tokens interval, .bucketFillRate tokens interval ∈ opts → interval < 2^63)
    (ho : Advancing (start::calls.map Prod.fst)) :
    let tb := Bucket.newTokenBucket opts start
    (∀ s t, s ≤ t → ((entries calls tb).countP (allowedIn s t) : ℚ) ≤ tb.capacity+tb.fillRate*(t-s)) ∧
      ((∀ e ∈ entries calls tb, e.answer = .allowed false →
        level e.found (e.time-e.found.lastFill) < 1) ↔ ∀ e ∈ entries calls tb, Recent e) := by
  intro tb
  have hs : Serving tb := newTokenBucket_serving start hopts
  have hin := hs.inBounds
  refine ⟨fun s t hst => ?_,entries_refused_iff calls tb start hs ho.head (le_refl start) ho⟩
  have hst' : (s : ℚ) ≤ t := by exact_mod_cast hst
  have hgain : 0 ≤ tb.fillRate*(t-s) := mul_nonneg hin.rate (sub_nonneg.mpr hst')
  by_cases hlast : start ≤ t
  · refine (entries_window s t hst calls tb hin ho hlast).trans ?_
    rw [potential]
    split
    · rename_i hbefore
      have hbefore' : (s : ℚ) ≤ tb.lastFill := by exact_mod_cast hbefore
      have hless : tb.fillRate*(t-tb.lastFill) ≤ tb.fillRate*(t-s) :=
        mul_le_mul_of_nonneg_left (by linarith) hin.rate
      linarith [hin.full]
    · exact le_rfl
  · rw [entries_later s t calls tb start (by omega) ho, Nat.cast_zero]
    linarith [hin.tokens, hin.full]

def burst : List (ℤ × Call) := [(0,.allowOne), (0,.allowOne), (0,.allowOne), (1000000000,.allowOne)]

/-- A burst that empties a bucket of two tokens. -/
theorem burst_bounded : Advancing (0::burst.map Prod.fst) ∧
    (∀ s t, s ≤ t → ((entries burst (Bucket.newTokenBucket [.bucketCapacity 2] 0)).countP (allowedIn s t) : ℚ) ≤
      (Bucket.newTokenBucket [.bucketCapacity 2] 0).capacity+
        (Bucket.newTokenBucket [.bucketCapacity 2] 0).fillRate*(t-s)) ∧
    ((∀ e ∈ entries burst (Bucket.newTokenBucket [.bucketCapacity 2] 0),
      e.answer = .allowed false → level e.found (e.time-e.found.lastFill) < 1) ↔
      ∀ e ∈ entries burst (Bucket.newTokenBucket [.bucketCapacity 2] 0), Recent e) := by
  have hadvancing : Advancing (0::burst.map Prod.fst) := by decide
  exact ⟨hadvancing,bucket_bounds_rate [.bucketCapacity 2] 0 burst (by simp) hadvancing⟩

/-- An empty bucket refuses the call of a clock that has come from one end of its range to
the other, although its refill would be of more than ten thousand million tokens. -/
theorem late_call_refused :
    Advancing [-9000000000000000000, -9000000000000000000, 9000000000000000000] ∧
    ¬∀ e ∈ entries [(-9000000000000000000,.allowOne), (9000000000000000000,.allowOne)]
        (Bucket.newTokenBucket [.bucketCapacity 1] (-9000000000000000000)),
      e.answer = .allowed false → level e.found (e.time-e.found.lastFill) < 1 := by
  refine ⟨by decide,fun h => ?_⟩
  have hlast := h _ (mem_cons_of_mem _ mem_cons_self) (by decide +kernel)
  exact absurd hlast (by decide +kernel)

/-! ## The level of any run -/

inductive Op where
  | allow (n : ℤ)
  | tokens
  | reset
deriving DecidableEq

def apply (now : ℤ) (tb : Bucket) : Op → Bucket
  | .allow n => (tb.allow n now).1
  | .tokens => (tb.tokensLeft now).1
  | .reset => tb.reset now

def states : List (ℤ × Op) → Bucket → List Bucket
  | [], _ => []
  | (now,o)::ops, tb => apply now tb o::states ops (apply now tb o)

def InRange (tb : Bucket) : Prop := 0 ≤ tb.tokens ∧ tb.tokens ≤ tb.capacity

def room (tb : Bucket) (now : ℤ) : ℚ :=
  tb.capacity-level tb (max 0 (int64 (now-tb.lastFill)))

/-- A call with a negative number of tokens gives back at most what there is room for. -/
def HasRoom (now : ℤ) (tb : Bucket) : Op → Prop
  | .allow n => -(n : ℚ) ≤ room tb now
  | .tokens => True
  | .reset => True

def AllFit : List (ℤ × Op) → Bucket → Prop
  | [], _ => True
  | (now,o)::ops, tb => HasRoom now tb o ∧ AllFit ops (apply now tb o)

theorem allow_in_range_iff (n now : ℤ) (h : InBounds tb) :
    InRange (tb.allow n now).1 ↔ HasRoom now tb (.allow n) := by
  obtain ⟨htokens,hcap,_⟩ := refill_spec now h
  have hsound := refill_inBounds now h
  rw [HasRoom, room, Bucket.allow]
  by_cases hlow : (tb.refill now).tokens < (n : ℚ)
  · rw [if_pos hlow]
    refine iff_of_true ⟨hsound.tokens,hsound.full⟩ ?_
    linarith [hsound.tokens, hsound.full]
  rw [if_neg hlow]
  constructor
  · rintro ⟨_,hle⟩
    linarith
  · intro hfits
    exact ⟨by linarith,by linarith⟩

theorem apply_in_range_iff (now : ℤ) (tb : Bucket) (h : InBounds tb) (o : Op) :
    InRange (apply now tb o) ↔ HasRoom now tb o := by
  cases o with
  | allow n => exact allow_in_range_iff n now h
  | tokens =>
    have hsound := refill_inBounds now h
    exact iff_of_true ⟨hsound.tokens,hsound.full⟩ trivial
  | reset => exact iff_of_true ⟨h.tokens.trans h.full,le_rfl⟩ trivial

theorem apply_rate (now : ℤ) (tb : Bucket) (h : InBounds tb) (o : Op) :
    (apply now tb o).fillRate = tb.fillRate := by
  obtain ⟨_,_,hrate⟩ := refill_spec now h
  cases o with
  | allow n =>
    rw [apply, Bucket.allow]
    split
    · exact hrate
    · exact hrate
  | tokens => exact hrate
  | reset => rfl

theorem states_in_range_iff (ops : List (ℤ × Op)) (tb : Bucket) (h : InBounds tb) :
    (∀ u ∈ states ops tb, InRange u) ↔ AllFit ops tb := by
  induction ops generalizing tb with
  | nil => exact iff_of_true nofun trivial
  | cons op ops ih =>
    obtain ⟨now,o⟩ := op
    rw [states, forall_mem_cons, apply_in_range_iff now tb h o]
    refine and_congr_right fun hfits => ih _ ?_
    obtain ⟨htokens,hfull⟩ := (apply_in_range_iff now tb h o).mpr hfits
    exact ⟨by rw [apply_rate now tb h o]; exact h.rate,htokens,hfull⟩

/-- The level is in range after every call of a run, at whatever times, exactly if no call gives
back more than there is room for. -/
theorem level_in_range_iff (opts : List Setting) (start : ℤ) (ops : List (ℤ × Op)) :
    (∀ tb ∈ states ops (Bucket.newTokenBucket opts start),
      0 ≤ tb.tokens ∧ tb.tokens ≤ tb.capacity) ↔ AllFit ops (Bucket.newTokenBucket opts start) :=
  states_in_range_iff ops _ (newTokenBucket_inBounds opts start).1

/-- A full bucket is given one token more. -/
theorem negative_call_overfills :
    ¬∀ tb ∈ states [(0,.allow (-1))] (Bucket.newTokenBucket [] 0),
      0 ≤ tb.tokens ∧ tb.tokens ≤ tb.capacity := by
  intro h
  have hlast := (h _ mem_cons_self).2
  exact absurd hlast (by decide +kernel)

end GoCommon.TokenBucket
