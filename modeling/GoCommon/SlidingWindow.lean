import GoCommon.ByteWords
import Mathlib.Algebra.Order.Field.Rat

/-!
# The sliding window counter

Two counts, for the window of the last call and the one before, estimate the events of
the last window of time. Windows start at multiples of their length. Times are 64 bit
integers, and their sums wrap; weights are exact rational numbers. Every call reads the
clock once.
-/

set_option autoImplicit false

namespace GoCommon.SlidingWindow
open List ByteWords

def defaultWindowSize : ℤ := 60*second
def defaultWindowLimit : ℤ := 60

structure Counter where
  limit : ℤ
  window : ℤ
  currStart : ℤ
  currCount : ℕ
  prevCount : ℕ

inductive Setting where
  | windowSize (d : ℤ)
  | windowLimit (n : ℤ)

namespace Counter

def set : Setting → Counter → Counter
  | .windowSize d, sw => if 0 < d then { sw with window := d } else sw
  | .windowLimit n, sw => if 0 < n then { sw with limit := n } else sw

def newSlidingWindow (opts : List Setting) (now : ℤ) : Counter :=
  let sw : Counter := ⟨defaultWindowLimit,defaultWindowSize,0,0,0⟩
  let sw := opts.foldl (fun sw opt => sw.set opt) sw
  { sw with currStart := int64 (now.tdiv sw.window*sw.window) }

def advance (now : ℤ) (sw : Counter) : Counter :=
  let windowEnd := int64 (sw.currStart+sw.window)
  if now < windowEnd then sw
  else
    let elapsed := int64 (now-sw.currStart)
    let periods := elapsed.tdiv sw.window
    if periods = 1 then
      { sw with
        prevCount := sw.currCount
        currCount := 0
        currStart := int64 (sw.currStart+sw.window) }
    else
      { sw with
        prevCount := 0
        currCount := 0
        currStart := int64 (now.tdiv sw.window*sw.window) }

def estimate (now : ℤ) (sw : Counter) : ℚ :=
  let elapsed := int64 (now-sw.currStart)
  if elapsed ≤ 0 then sw.currCount
  else
    let weight : ℚ := 1-elapsed/sw.window
    let weight := if weight < 0 then 0 else weight
    sw.prevCount*weight+sw.currCount

def allow (now : ℤ) (sw : Counter) : Counter × Bool :=
  let sw := sw.advance now
  if sw.limit ≤ sw.estimate now then (sw,false) else ({ sw with currCount := sw.currCount+1 },true)

def count (now : ℤ) (sw : Counter) : Counter × ℚ := (sw.advance now,(sw.advance now).estimate now)

end Counter

/-! ## Runs -/

inductive Call where
  | allow
  | count
deriving DecidableEq

structure History where
  sw : Counter
  events : List ℤ

def call (now : ℤ) (h : History) : Call → History
  | .allow => ⟨(h.sw.allow now).1,if (h.sw.allow now).2 then now::h.events else h.events⟩
  | .count => ⟨(h.sw.count now).1,h.events⟩

def states : List (ℤ × Call) → History → List (ℤ × History)
  | [], _ => []
  | (now,c)::calls, h => (now,call now h c)::states calls (call now h c)

def eventsFrom (start window : ℤ) (events : List ℤ) : ℕ :=
  events.countP (fun t => start ≤ t ∧ t < start+window)

structure Exact (now : ℤ) (h : History) : Prop where
  aligned : h.sw.window ∣ h.sw.currStart
  start_le : h.sw.currStart ≤ now
  lt_end : now < h.sw.currStart+h.sw.window
  curr : h.sw.currCount = eventsFrom h.sw.currStart h.sw.window h.events
  prev : h.sw.prevCount = eventsFrom (h.sw.currStart-h.sw.window) h.sw.window h.events
  limited : ∀ k : ℤ, (eventsFrom (k*h.sw.window) h.sw.window h.events : ℤ) ≤ h.sw.limit

/-- The window of the counter ends at a time that 64 bits hold, or nothing is counted. -/
def EndsAhead (sw : Counter) : Prop :=
  sw.currStart+sw.window < 2^63 ∨ sw.currCount = 0 ∧ sw.prevCount = 0

def AllAhead : List (ℤ × Call) → History → Prop
  | [], _ => True
  | (now,c)::calls, h => EndsAhead h.sw ∧ AllAhead calls (call now h c)

/-! ## Aligned windows -/

theorem aligned_eq {window start t : ℤ} (hdvd : window ∣ start) (hle : start ≤ t)
    (hlt : t < start+window) : t/window*window = start := by
  obtain ⟨k,rfl⟩ := hdvd
  have hsplit : t = (t-window*k)+window*k := by omega
  have hzero : (t-window*k)/window = 0 := Int.ediv_eq_zero_of_lt (by omega) (by omega)
  rw [hsplit, Int.add_mul_ediv_left _ _ (by omega), hzero, Int.zero_add, Int.mul_comm]

theorem floor_le {window : ℤ} (hw : 0 < window) (t : ℤ) :
    t/window*window ≤ t ∧ t < t/window*window+window := by
  have hdiv := Int.emod_add_mul_ediv t window
  have hnonneg := Int.emod_nonneg t hw.ne'
  have hlt := Int.emod_lt_of_pos t hw
  rw [Int.mul_comm] at hdiv
  omega

/-! ## Advancing -/

structure Aligned (last : ℤ) (sw : Counter) : Prop where
  window : 0 < sw.window
  windowMax : sw.window < 2^63
  time : 0 ≤ last
  aligned : sw.window ∣ sw.currStart
  start_le : sw.currStart ≤ last
  lt_end : last < sw.currStart+sw.window

section Advance
variable {sw : Counter} {last now : ℤ} (h : Aligned last sw) (hnow : last ≤ now)
  (hrange : now < 2^63)

theorem Aligned.start_nonneg (h : Aligned last sw) : 0 ≤ sw.currStart := by
  have hw := h.window
  rw [← aligned_eq h.aligned h.start_le h.lt_end]
  exact Int.mul_nonneg (Int.ediv_nonneg h.time hw.le) hw.le

theorem Aligned.far_start (h : Aligned last sw) (hfar : sw.currStart+sw.window+sw.window ≤ now) :
    sw.currStart+sw.window+sw.window ≤ now/sw.window*sw.window := by
  obtain ⟨k,hk⟩ := h.aligned
  have hdiv : k+2 ≤ now/sw.window := by
    apply Int.le_ediv_of_mul_le h.window
    rw [Int.add_mul, Int.mul_comm k]
    omega
  have hmul := Int.mul_le_mul_of_nonneg_right hdiv h.window.le
  rw [Int.add_mul, Int.mul_comm k] at hmul
  omega

include h hnow hrange

theorem elapsed_exact : int64 (now-sw.currStart) = now-sw.currStart := by
  have hstart := h.start_nonneg
  have hle := h.start_le
  exact int64_of_range (by omega) (by omega)

theorem advance_same (hsame : now < sw.currStart+sw.window) : sw.advance now =
    if sw.currStart+sw.window < 2^63 then sw else { sw with currCount := 0, prevCount := 0 } := by
  have hstart := h.start_nonneg
  have hmax := h.windowMax
  have hle := h.start_le.trans hnow
  by_cases hfits : sw.currStart+sw.window < 2^63
  · rw [if_pos hfits, Counter.advance, int64_of_range (by omega) hfits]
    exact if_pos hsame
  have hend : int64 (sw.currStart+sw.window) = sw.currStart+sw.window-2^64 := by
    simp only [int64, Int.bmod_def]
    omega
  have hzero : (now-sw.currStart)/sw.window = 0 := Int.ediv_eq_zero_of_lt (by omega) (by omega)
  rw [if_neg hfits, Counter.advance, elapsed_exact h hnow hrange]
  dsimp only
  rw [if_neg (by omega), Int.tdiv_eq_ediv_of_nonneg (by omega), if_neg (by omega),
    Int.tdiv_eq_ediv_of_nonneg (by omega), aligned_eq h.aligned hle hsame,
    int64_of_range (by omega) (by omega)]

theorem advance_next (hend : sw.currStart+sw.window ≤ now)
    (hnext : now < sw.currStart+sw.window+sw.window) : sw.advance now =
    { sw with prevCount := sw.currCount, currCount := 0, currStart := sw.currStart+sw.window } := by
  have hstart := h.start_nonneg
  have hw := h.window
  have hone : (now-sw.currStart)/sw.window = 1 := by
    rw [show now-sw.currStart = (now-sw.currStart-sw.window)+sw.window*1 by omega,
      Int.add_mul_ediv_left _ _ hw.ne', Int.ediv_eq_zero_of_lt (by omega) (by omega)]
    rfl
  rw [Counter.advance, int64_of_range (by omega) (by omega), elapsed_exact h hnow hrange]
  dsimp only
  rw [if_neg (by omega), Int.tdiv_eq_ediv_of_nonneg (by omega), hone, if_pos rfl]

theorem advance_far (hfar : sw.currStart+sw.window+sw.window ≤ now) : sw.advance now =
    { sw with prevCount := 0, currCount := 0, currStart := now/sw.window*sw.window } := by
  have hstart := h.start_nonneg
  have hw := h.window
  have htwo : 2 ≤ (now-sw.currStart)/sw.window := Int.le_ediv_of_mul_le hw (by omega)
  have hfloor := floor_le hw now
  rw [Counter.advance, int64_of_range (by omega) (by omega), elapsed_exact h hnow hrange]
  dsimp only
  rw [if_neg (by omega), Int.tdiv_eq_ediv_of_nonneg (by omega), if_neg (by omega),
    Int.tdiv_eq_ediv_of_nonneg (by omega), int64_of_range (by omega) (by omega)]

end Advance

/-! ## Events -/

variable {last now : ℤ} {h : History} {events : List ℤ}

theorem eventsFrom_later {start window last : ℤ}
    (hevents : ∀ t ∈ events, t ≤ last) (h : last < start) : eventsFrom start window events = 0 := by
  rw [eventsFrom, countP_eq_zero]
  intro t ht
  have := hevents t ht
  rw [decide_eq_true_eq]
  omega

theorem eventsFrom_cons {start window now : ℤ} :
    eventsFrom start window (now::events) =
      eventsFrom start window events+if start ≤ now ∧ now < start+window then 1 else 0 := by
  rw [eventsFrom, countP_cons]
  simp only [decide_eq_true_eq]
  rfl

structure Between (last : ℤ) (h : History) : Prop where
  window : 0 < h.sw.window
  windowMax : h.sw.window < 2^63
  time : 0 ≤ last
  events : ∀ t ∈ h.events, t ≤ last
  exact : Exact last h

theorem Between.aligned {last : ℤ} (hb : Between last h) : Aligned last h.sw :=
  ⟨hb.window,hb.windowMax,hb.time,hb.exact.aligned,hb.exact.start_le,hb.exact.lt_end⟩

theorem advance_keeps (now : ℤ) (sw : Counter) :
    (sw.advance now).window = sw.window ∧ (sw.advance now).limit = sw.limit := by
  rw [Counter.advance]
  dsimp only
  split
  · exact ⟨rfl,rfl⟩
  · split
    · exact ⟨rfl,rfl⟩
    · exact ⟨rfl,rfl⟩

section Step
variable (hb : Between last h) (hnow : last ≤ now)
  (hrange : now < 2^63)
include hb hnow hrange

theorem advance_exact (hfits : EndsAhead h.sw) : Exact now ⟨h.sw.advance now,h.events⟩ := by
  have ha := hb.aligned
  have he := hb.exact
  have hlt := he.lt_end
  by_cases hsame : now < h.sw.currStart+h.sw.window
  · have hadvance : h.sw.advance now = h.sw := by
      rw [advance_same ha hnow hrange hsame]
      split
      · rfl
      rename_i hover
      obtain ⟨hcurr,hprev⟩ := hfits.resolve_left hover
      cases hsw : h.sw
      simp only [hsw] at hcurr hprev
      rw [hcurr, hprev]
    rw [hadvance]
    exact ⟨he.aligned,he.start_le.trans hnow,hsame,he.curr,he.prev,he.limited⟩
  by_cases hnext : now < h.sw.currStart+h.sw.window+h.sw.window
  · rw [advance_next ha hnow hrange (by omega) hnext]
    refine ⟨he.aligned.add (dvd_refl _),?_,hnext,?_,?_,he.limited⟩
    · change h.sw.currStart+h.sw.window ≤ now
      omega
    · exact (eventsFrom_later hb.events hlt).symm
    · rw [Int.add_sub_cancel]
      exact he.curr
  have hfloor := floor_le hb.window now
  have hstart := ha.far_start (not_lt.mp hnext)
  rw [advance_far ha hnow hrange (by omega)]
  refine ⟨dvd_mul_left _ _,hfloor.1,hfloor.2,?_,?_,he.limited⟩
  · exact (eventsFrom_later hb.events (by dsimp only; omega)).symm
  · exact (eventsFrom_later hb.events (by dsimp only; omega)).symm

theorem call_loses (hfits : ¬EndsAhead h.sw) (c : Call) : ¬Exact now (call now h c) := by
  intro he
  rw [EndsAhead, not_or] at hfits
  have hold := hb.exact
  have hsame : now < h.sw.currStart+h.sw.window := by omega
  have hle : h.sw.currStart ≤ now := hold.start_le.trans hnow
  have hadvance := advance_same hb.aligned hnow hrange hsame
  rw [if_neg hfits.1] at hadvance
  have hcurr := he.curr
  have hprev := he.prev
  apply hfits.2
  rw [hold.curr, hold.prev]
  cases c with
  | count =>
    rw [call, Counter.count, hadvance] at hcurr hprev
    exact ⟨hcurr.symm,hprev.symm⟩
  | allow =>
    rw [call, Counter.allow, hadvance] at hcurr hprev
    split at hcurr
    · rename_i hfull
      rw [if_pos hfull] at hprev
      exact ⟨hcurr.symm,hprev.symm⟩
    rename_i hroom
    rw [if_neg hroom] at hprev
    simp only [if_true] at hcurr hprev
    rw [eventsFrom_cons, if_pos ⟨hle,hsame⟩] at hcurr
    rw [eventsFrom_cons] at hprev
    omega

end Step

theorem estimate_ge (now : ℤ) (sw : Counter) : (sw.currCount : ℚ) ≤ sw.estimate now := by
  rw [Counter.estimate]
  split
  · exact le_rfl
  apply le_add_of_nonneg_left
  apply mul_nonneg (Nat.cast_nonneg _)
  split
  · exact le_rfl
  · rename_i hweight
    exact not_lt.mp hweight

theorem Exact.record {now : ℤ} {sw : Counter} (h : Exact now ⟨sw,events⟩)
    (hroom : (sw.currCount : ℤ) < sw.limit) :
    Exact now ⟨{ sw with currCount := sw.currCount+1 },now::events⟩ := by
  have hstart := h.start_le
  have hlt := h.lt_end
  refine ⟨h.aligned,hstart,hlt,?_,?_,fun k => ?_⟩
  · rw [eventsFrom_cons, if_pos ⟨hstart,hlt⟩, h.curr]
  · change sw.prevCount = eventsFrom (sw.currStart-sw.window) sw.window (now::events)
    rw [eventsFrom_cons, if_neg (by dsimp only at hstart; omega)]
    exact h.prev
  change (eventsFrom (k*sw.window) sw.window (now::events) : ℤ) ≤ sw.limit
  have hk := h.limited k
  rw [eventsFrom_cons]
  split
  · rename_i hin
    have heq : k*sw.window = sw.currStart :=
      (aligned_eq (dvd_mul_left _ _) hin.1 hin.2).symm.trans (aligned_eq h.aligned hstart hlt)
    have hcurr := h.curr
    dsimp only at hcurr
    rw [heq]
    omega
  · exact hk

theorem call_exact (hb : Between last h) (hnow : last ≤ now)
    (hrange : now < 2^63) (hfits : EndsAhead h.sw) (c : Call) : Exact now (call now h c) := by
  have he := advance_exact hb hnow hrange hfits
  cases c with
  | count => exact he
  | allow =>
    rw [call, Counter.allow]
    split
    · exact he
    rename_i hlow
    apply he.record
    have hlt := (estimate_ge now (h.sw.advance now)).trans_lt (not_le.mp hlow)
    exact_mod_cast hlt

theorem call_exact_iff (hb : Between last h) (hnow : last ≤ now)
    (hrange : now < 2^63) (c : Call) : Exact now (call now h c) ↔ EndsAhead h.sw :=
  ⟨fun he => not_not.mp fun hfits => call_loses hb hnow hrange hfits c he,
    fun hfits => call_exact hb hnow hrange hfits c⟩

theorem call_between (hb : Between last h) (hnow : last ≤ now)
    {c : Call} (he : Exact now (call now h c)) : Between now (call now h c) := by
  have hwindow : (call now h c).sw.window = h.sw.window := by
    cases c with
    | count => exact (advance_keeps now h.sw).1
    | allow =>
      rw [call, Counter.allow]
      split
      · exact (advance_keeps now h.sw).1
      · exact (advance_keeps now h.sw).1
  have hevents : ∀ t ∈ (call now h c).events, t = now ∨ t ∈ h.events := by
    intro t ht
    cases c with
    | count => exact Or.inr ht
    | allow =>
      rw [call] at ht
      split at ht
      · exact mem_cons.mp ht
      · exact Or.inr ht
  refine ⟨hwindow ▸ hb.window,hwindow ▸ hb.windowMax,hb.time.trans hnow,fun t ht => ?_,he⟩
  rcases hevents t ht with rfl | hmem
  · exact le_rfl
  · exact (hb.events t hmem).trans hnow

/-! ## Runs keep the counts -/

structure Clock (last : ℤ) (calls : List (ℤ × Call)) : Prop where
  ordered : (last::calls.map Prod.fst).Pairwise (· ≤ ·)
  range : ∀ c ∈ calls, c.1 < 2^63

theorem Clock.tail {c : Call} {calls : List (ℤ × Call)}
    (h : Clock last ((now,c)::calls)) : last ≤ now ∧ now < 2^63 ∧ Clock now calls := by
  obtain ⟨hfirst,hrest⟩ := pairwise_cons.mp h.ordered
  exact ⟨hfirst now mem_cons_self,h.range (now,c) mem_cons_self,hrest,
    fun d hd => h.range d (mem_cons_of_mem _ hd)⟩

theorem states_exact_iff (calls : List (ℤ × Call)) (last : ℤ) (h : History) (hb : Between last h)
    (hc : Clock last calls) : (∀ p ∈ states calls h, Exact p.1 p.2) ↔ AllAhead calls h := by
  induction calls generalizing last h with
  | nil => exact iff_of_true nofun trivial
  | cons c calls ih =>
    obtain ⟨now,c⟩ := c
    obtain ⟨hnow,hrange,hrest⟩ := hc.tail
    rw [states, forall_mem_cons, call_exact_iff hb hnow hrange c]
    apply and_congr_right
    intro hfits
    exact ih now _ (call_between hb hnow (call_exact hb hnow hrange hfits c)) hrest

theorem start_exact {sw : Counter} {now : ℤ} (hw : 0 < sw.window) (hlimit : 0 < sw.limit)
    (hcounts : sw.currCount = 0 ∧ sw.prevCount = 0) (hnow : 0 ≤ now) (hrange : now < 2^63) :
    Exact now ⟨{ sw with currStart := int64 (now.tdiv sw.window*sw.window) },[]⟩ := by
  have hfloor := floor_le hw now
  have hnonneg : 0 ≤ now/sw.window*sw.window := Int.mul_nonneg (Int.ediv_nonneg hnow hw.le) hw.le
  rw [Int.tdiv_eq_ediv_of_nonneg hnow, int64_of_range (by omega) (by omega)]
  exact ⟨dvd_mul_left _ _,hfloor.1,hfloor.2,hcounts.1,hcounts.2,fun k => hlimit.le⟩

theorem settings_sound (opts : List Setting) (hopts : ∀ d, .windowSize d ∈ opts → d < 2^63)
    (sw : Counter) (hw : 0 < sw.window ∧ sw.window < 2^63) (hlimit : 0 < sw.limit)
    (hcounts : sw.currCount = 0 ∧ sw.prevCount = 0) :
    let sw' := opts.foldl (fun sw opt => sw.set opt) sw
    (0 < sw'.window ∧ sw'.window < 2^63) ∧ 0 < sw'.limit ∧
      sw'.currCount = 0 ∧ sw'.prevCount = 0 := by
  induction opts generalizing sw with
  | nil => exact ⟨hw,hlimit,hcounts⟩
  | cons opt opts ih =>
    have hrest : ∀ d, .windowSize d ∈ opts → d < 2^63 :=
      fun d hd => hopts d (mem_cons_of_mem _ hd)
    rw [foldl_cons]
    cases opt with
    | windowSize d =>
      rw [Counter.set]
      split
      · rename_i hd
        exact ih hrest _ ⟨hd,hopts d mem_cons_self⟩ hlimit hcounts
      · exact ih hrest _ hw hlimit hcounts
    | windowLimit n =>
      rw [Counter.set]
      split
      · rename_i hn
        exact ih hrest _ hw hn hcounts
      · exact ih hrest _ hw hlimit hcounts

theorem new_between (opts : List Setting) (hopts : ∀ d, .windowSize d ∈ opts → d < 2^63) {start : ℤ}
    (hstart : 0 ≤ start) (hrange : start < 2^63) :
    Between start ⟨Counter.newSlidingWindow opts start,[]⟩ := by
  obtain ⟨hw,hlimit,hcounts⟩ := settings_sound opts hopts
    ⟨defaultWindowLimit,defaultWindowSize,0,0,0⟩ (by decide) (by decide) ⟨rfl,rfl⟩
  exact ⟨hw.1,hw.2,hstart,nofun,start_exact hw.1 hlimit hcounts hstart hrange⟩

/-- The counter is exact after every call of a run exactly if every call finds a window that
ends at a time of 64 bits, or counts that are zero. -/
theorem window_counts_exact_iff (opts : List Setting) (hopts : ∀ d, .windowSize d ∈ opts → d < 2^63)
    (start : ℤ) (hstart : 0 ≤ start) (hrange : start < 2^63) (calls : List (ℤ × Call))
    (hclock : Clock start calls) :
    (∀ p ∈ states calls ⟨Counter.newSlidingWindow opts start,[]⟩, Exact p.1 p.2) ↔
      AllAhead calls ⟨Counter.newSlidingWindow opts start,[]⟩ :=
  states_exact_iff calls start _ (new_between opts hopts hstart hrange) hclock

instance (sw : Counter) : Decidable (EndsAhead sw) :=
  inferInstanceAs (Decidable (sw.currStart+sw.window < 2^63 ∨ sw.currCount = 0 ∧ sw.prevCount = 0))

def minutes : List (ℤ × Call) :=
  [(70,.allow), (119,.allow), (120,.count), (121,.allow), (240,.count)]

/-- A window of a minute over several minutes. -/
theorem minutes_exact : Clock 65 minutes ∧
    ∀ p ∈ states minutes ⟨Counter.newSlidingWindow [.windowSize 60, .windowLimit 2] 65,[]⟩,
      Exact p.1 p.2 := by
  have hclock : Clock 65 minutes := ⟨by decide,by decide⟩
  refine ⟨hclock,(window_counts_exact_iff [.windowSize 60, .windowLimit 2] ?_ 65 (by decide)
    (by decide) minutes hclock).mpr ?_⟩
  · intro d hd
    simp only [mem_cons, Setting.windowSize.injEq, reduceCtorEq, not_mem_nil,
      or_false] at hd
    omega
  · rw [minutes]
    simp only [AllAhead, and_true]
    decide +kernel

/-- A window of 190 years in the year 2175: its end wraps, every call clears the counts, and a
limit of one is passed. -/
theorem wrapped_end_passes_limit :
    let calls : List (ℤ × Call) := [(65*10^17,.allow), (65*10^17,.allow)]
    let sw := Counter.newSlidingWindow [.windowSize (6*10^18), .windowLimit 1] (65*10^17)
    Clock (65*10^17) calls ∧ ¬∀ p ∈ states calls ⟨sw,[]⟩, Exact p.1 p.2 := by
  refine ⟨⟨by decide +kernel,by decide +kernel⟩,fun h => ?_⟩
  have hlast := (h _ (mem_cons_of_mem _ mem_cons_self)).limited 1
  exact absurd hlast (by decide +kernel)

end GoCommon.SlidingWindow
