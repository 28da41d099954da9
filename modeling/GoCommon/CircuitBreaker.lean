import GoCommon.ByteWords

/-!
# The circuit breaker

Every call holds the lock from its start to its end, so that a run is a sequence of
calls with the time each one reads. The outcomes recorded since the current state was
entered and the time of the last failure are kept beside the breaker; the transitions
are stated from them. Times are 64-bit integers, and so is the difference of two.
-/

set_option autoImplicit false

namespace GoCommon.CircuitBreaker
open List ByteWords

inductive State where
  | stateClosed
  | stateOpen
  | stateHalfOpen
deriving DecidableEq, Repr

structure Breaker where
  state : State
  failureCount : ℕ
  successCount : ℕ
  failureThreshold : ℕ
  successThreshold : ℕ
  openTimeout : ℤ
  lastFailure : ℤ

inductive Setting where
  | failureThreshold (n : ℤ)
  | successThreshold (n : ℤ)
  | openTimeout (d : ℤ)

def defaultFailureThreshold : ℕ := 5

def defaultSuccessThreshold : ℕ := 2

def defaultOpenTimeout : ℤ := 30*second

abbrev Notice := Option (State × State)

inductive Reply where
  | done
  | allowed
  | errCircuitOpen
deriving DecidableEq, Repr

namespace Breaker

def set : Setting → Breaker → Breaker
  | .failureThreshold n, cb => if 0 < n then { cb with failureThreshold := n.toNat } else cb
  | .successThreshold n, cb => if 0 < n then { cb with successThreshold := n.toNat } else cb
  | .openTimeout d, cb => if 0 < d then { cb with openTimeout := d } else cb

def newCircuitBreaker (opts : List Setting) : Breaker :=
  opts.foldl (fun cb opt => cb.set opt)
    ⟨.stateClosed,0,0,defaultFailureThreshold,defaultSuccessThreshold,defaultOpenTimeout,0⟩

def transition (target : State) (cb : Breaker) : Breaker × Notice :=
  ({ cb with state := target, failureCount := 0, successCount := 0 },
    if cb.state ≠ target then some (cb.state,target) else none)

def allow (now : ℤ) (cb : Breaker) : Breaker × Notice × Reply := match cb.state with
  | .stateClosed => (cb,none,.allowed)
  | .stateOpen =>
    if cb.openTimeout ≤ int64 (now-cb.lastFailure) then
      ((cb.transition .stateHalfOpen).1,(cb.transition .stateHalfOpen).2,.allowed)
    else (cb,none,.errCircuitOpen)
  | .stateHalfOpen => (cb,none,.allowed)

def recordSuccess (cb : Breaker) : Breaker × Notice := match cb.state with
  | .stateClosed => ({ cb with failureCount := 0 },none)
  | .stateOpen => (cb,none)
  | .stateHalfOpen =>
    let cb := { cb with successCount := cb.successCount+1 }
    if cb.successThreshold ≤ cb.successCount then cb.transition .stateClosed else (cb,none)

def recordFailure (now : ℤ) (cb : Breaker) : Breaker × Notice :=
  let cb := { cb with lastFailure := now }
  match cb.state with
  | .stateClosed =>
    let cb := { cb with failureCount := cb.failureCount+1 }
    if cb.failureThreshold ≤ cb.failureCount then cb.transition .stateOpen else (cb,none)
  | .stateOpen => (cb,none)
  | .stateHalfOpen => cb.transition .stateOpen

def reset (cb : Breaker) : Breaker × Notice := cb.transition .stateClosed

end Breaker

/-! ## Runs -/

inductive Call where
  | allow
  | recordSuccess
  | recordFailure
  | reset
deriving DecidableEq, Repr

def call : Call → ℤ → Breaker → Breaker × Notice × Reply
  | .allow, now, cb => cb.allow now
  | .recordSuccess, _, cb => (cb.recordSuccess.1,cb.recordSuccess.2,.done)
  | .recordFailure, now, cb => ((cb.recordFailure now).1,(cb.recordFailure now).2,.done)
  | .reset, _, cb => (cb.reset.1,cb.reset.2,.done)

inductive Outcome where
  | success
  | failure
deriving DecidableEq, Repr

def recorded : Call → List Outcome
  | .allow => []
  | .recordSuccess => [.success]
  | .recordFailure => [.failure]
  | .reset => []

structure Watched where
  breaker : Breaker
  since : List Outcome
  failed : Option ℤ

def start (opts : List Setting) : Watched := ⟨Breaker.newCircuitBreaker opts,[],none⟩

def watch (tc : ℤ × Call) (w : Watched) : Watched :=
  let cb := (call tc.2 tc.1 w.breaker).1
  ⟨cb,if cb.state ≠ w.breaker.state ∨ tc.2 = .reset then [] else w.since++recorded tc.2,
    if tc.2 = .recordFailure then some tc.1 else w.failed⟩

def run (calls : List (ℤ × Call)) (w : Watched) : Watched := calls.foldl (fun w tc => watch tc w) w

/-! ## What every run keeps -/

structure SameSettings (new cb : Breaker) : Prop where
  failures : cb.failureThreshold = new.failureThreshold
  successes : cb.successThreshold = new.successThreshold
  timeout : cb.openTimeout = new.openTimeout

structure Tallied (w : Watched) : Prop where
  failures : w.breaker.failureCount < w.breaker.failureThreshold
  successes : w.breaker.successCount < w.breaker.successThreshold
  whenClosed : w.breaker.state = .stateClosed → w.breaker.successCount = 0 ∧
    ∃ front, w.since = front++List.replicate w.breaker.failureCount .failure ∧
      front.getLast? ≠ some .failure
  whenOpen : w.breaker.state = .stateOpen → w.breaker.failureCount = 0 ∧ w.breaker.successCount = 0 ∧
    w.failed = some w.breaker.lastFailure
  whenHalfOpen : w.breaker.state = .stateHalfOpen → w.breaker.failureCount = 0 ∧
    w.since = List.replicate w.breaker.successCount .success

theorem prefix_replicate {A : Type} {a : A} {l : List A} (h : l.head? ≠ some a) (n k : ℕ) :
    List.replicate n a <+: List.replicate k a++l ↔ n ≤ k := by
  induction k generalizing n with
  | zero => cases n with
    | zero => simp
    | succ n =>
      refine iff_of_false (fun hno => h ?_) (by omega)
      obtain ⟨rest,hrest⟩ := hno
      rw [replicate_zero, nil_append] at hrest
      rw [← hrest]
      rfl
  | succ k ih => cases n with
    | zero => simp
    | succ n =>
      rw [replicate_succ, replicate_succ, cons_append, cons_prefix_cons, ih]
      simp

theorem suffix_replicate {A : Type} {a : A} {front : List A} (h : front.getLast? ≠ some a) (n k : ℕ) :
    List.replicate n a <:+ front++List.replicate k a ↔ n ≤ k := by
  rw [← reverse_prefix, reverse_append, reverse_replicate, reverse_replicate]
  exact prefix_replicate (by rwa [List.head?_reverse]) n k

theorem replicate_append_inj {A : Type} {a : A} {k n : ℕ} :
    List.replicate k a++[a] = List.replicate n a ↔ k+1 = n := by
  rw [← replicate_succ']
  simp

theorem set_start (opt : Setting) {cb : Breaker} (hf : 0 < cb.failureThreshold) (hs : 0 < cb.successThreshold)
    (h : cb.state = .stateClosed ∧ cb.failureCount = 0 ∧ cb.successCount = 0) :
    (0 < (cb.set opt).failureThreshold ∧ 0 < (cb.set opt).successThreshold) ∧
      (cb.set opt).state = .stateClosed ∧ (cb.set opt).failureCount = 0 ∧ (cb.set opt).successCount = 0 := by
  cases opt <;> rw [Breaker.set] <;> split
  · exact ⟨⟨by change 0 < Int.toNat _; omega,hs⟩,h⟩
  · exact ⟨⟨hf,hs⟩,h⟩
  · exact ⟨⟨hf,by change 0 < Int.toNat _; omega⟩,h⟩
  · exact ⟨⟨hf,hs⟩,h⟩
  · exact ⟨⟨hf,hs⟩,h⟩
  · exact ⟨⟨hf,hs⟩,h⟩

theorem start_tallied (opts : List Setting) : Tallied (start opts) := by
  have hopts : ∀ cb : Breaker, 0 < cb.failureThreshold → 0 < cb.successThreshold →
      (cb.state = .stateClosed ∧ cb.failureCount = 0 ∧ cb.successCount = 0) →
      Tallied ⟨opts.foldl (fun cb opt => cb.set opt) cb,[],none⟩ := by
    induction opts with
    | nil =>
      intro cb hf hs ⟨hstate,hfail,hsucc⟩
      refine ⟨hfail ▸ hf,hsucc ▸ hs,fun _ => ⟨hsucc,[],?_,nofun⟩,fun hno => ?_,fun hno => ?_⟩
      · change [] = []++List.replicate cb.failureCount _
        rw [hfail]
        rfl
      · exact absurd (hstate.symm.trans hno) nofun
      · exact absurd (hstate.symm.trans hno) nofun
    | cons opt opts ih =>
      intro cb hf hs h
      obtain ⟨⟨hf',hs'⟩,h'⟩ := set_start opt hf hs h
      exact ih (cb.set opt) hf' hs' h'
  exact hopts _ (by decide) (by decide) ⟨rfl,rfl,rfl⟩

/-! ## One call -/

section Calls
variable (w : Watched) (now : ℤ)

theorem watch_reset : watch (now,.reset) w =
    ⟨{ w.breaker with state := .stateClosed, failureCount := 0, successCount := 0 },[],w.failed⟩ := by
  simp [watch, call, Breaker.reset, Breaker.transition]

def fromClosed : Call → Watched
  | .recordSuccess => ⟨{ w.breaker with failureCount := 0 },w.since++[.success],w.failed⟩
  | .recordFailure =>
    if w.breaker.failureThreshold ≤ w.breaker.failureCount+1 then
      ⟨{ w.breaker with state := .stateOpen, failureCount := 0, successCount := 0, lastFailure := now },
        [],some now⟩
    else ⟨{ w.breaker with failureCount := w.breaker.failureCount+1, lastFailure := now },
      w.since++[.failure],some now⟩
  | _ => w

def fromOpen : Call → Watched
  | .allow =>
    if w.breaker.openTimeout ≤ int64 (now-w.breaker.lastFailure) then
      ⟨{ w.breaker with state := .stateHalfOpen, failureCount := 0, successCount := 0 },[],w.failed⟩
    else w
  | .recordSuccess => { w with since := w.since++[.success] }
  | .recordFailure => ⟨{ w.breaker with lastFailure := now },w.since++[.failure],some now⟩
  | .reset => w

def fromHalfOpen : Call → Watched
  | .recordSuccess =>
    if w.breaker.successThreshold ≤ w.breaker.successCount+1 then
      ⟨{ w.breaker with state := .stateClosed, failureCount := 0, successCount := 0 },[],w.failed⟩
    else ⟨{ w.breaker with successCount := w.breaker.successCount+1 },w.since++[.success],w.failed⟩
  | .recordFailure =>
    ⟨{ w.breaker with state := .stateOpen, failureCount := 0, successCount := 0, lastFailure := now },
      [],some now⟩
  | _ => w

theorem watch_closed {c : Call} (hc : c ≠ .reset) (h : w.breaker.state = .stateClosed) :
    watch (now,c) w = fromClosed w now c := by
  cases c with
  | allow => simp [watch, call, Breaker.allow, recorded, fromClosed, h]
  | recordSuccess => simp [watch, call, Breaker.recordSuccess, recorded, fromClosed, h]
  | recordFailure =>
    by_cases hfull : w.breaker.failureThreshold ≤ w.breaker.failureCount+1
    · simp [watch, call, Breaker.recordFailure, Breaker.transition, fromClosed, h, hfull]
    · simp [watch, call, Breaker.recordFailure, recorded, fromClosed, h, hfull]
  | reset => exact absurd rfl hc

theorem watch_open {c : Call} (hc : c ≠ .reset) (h : w.breaker.state = .stateOpen) :
    watch (now,c) w = fromOpen w now c := by
  cases c with
  | allow =>
    by_cases hold : w.breaker.openTimeout ≤ int64 (now-w.breaker.lastFailure)
    · simp [watch, call, Breaker.allow, Breaker.transition, fromOpen, h, hold]
    · simp [watch, call, Breaker.allow, recorded, fromOpen, h, hold]
  | recordSuccess => simp [watch, call, Breaker.recordSuccess, recorded, fromOpen, h]
  | recordFailure => simp [watch, call, Breaker.recordFailure, recorded, fromOpen, h]
  | reset => exact absurd rfl hc

theorem watch_halfOpen {c : Call} (hc : c ≠ .reset) (h : w.breaker.state = .stateHalfOpen) :
    watch (now,c) w = fromHalfOpen w now c := by
  cases c with
  | allow => simp [watch, call, Breaker.allow, recorded, fromHalfOpen, h]
  | recordSuccess =>
    by_cases hfull : w.breaker.successThreshold ≤ w.breaker.successCount+1
    · simp [watch, call, Breaker.recordSuccess, Breaker.transition, fromHalfOpen, h, hfull]
    · simp [watch, call, Breaker.recordSuccess, recorded, fromHalfOpen, h, hfull]
  | recordFailure => simp [watch, call, Breaker.recordFailure, Breaker.transition, fromHalfOpen, h]
  | reset => exact absurd rfl hc

end Calls

theorem entered_tallied {cb : Breaker} (state : State) (now : ℤ) (failed : Option ℤ)
    (hf : 0 < cb.failureThreshold) (hs : 0 < cb.successThreshold)
    (hopen : state = .stateOpen → failed = some now) :
    Tallied ⟨{ cb with state := state, failureCount := 0, successCount := 0, lastFailure := now },[],failed⟩ :=
  ⟨hf,hs,fun _ => ⟨rfl,[],rfl,nofun⟩,fun h => ⟨rfl,rfl,hopen h⟩,fun _ => ⟨rfl,rfl⟩⟩

theorem state_ne {cb : Breaker} {s : State} (h : cb.state = s) {t : State} (ht : s ≠ t) : cb.state ≠ t :=
  fun h' => ht (h.symm.trans h')

theorem watch_tallied (tc : ℤ × Call) (w : Watched) (h : Tallied w) : Tallied (watch tc w) := by
  obtain ⟨now,c⟩ := tc
  have hf : 0 < w.breaker.failureThreshold := Nat.zero_lt_of_lt h.failures
  have hs : 0 < w.breaker.successThreshold := Nat.zero_lt_of_lt h.successes
  by_cases hc : c = .reset
  · rw [hc, watch_reset]
    exact entered_tallied .stateClosed w.breaker.lastFailure w.failed hf hs nofun
  cases hstate : w.breaker.state with
  | stateClosed =>
    have hopen : w.breaker.state ≠ .stateOpen := state_ne hstate nofun
    have hhalf : w.breaker.state ≠ .stateHalfOpen := state_ne hstate nofun
    obtain ⟨hzero,front,hsince,hfront⟩ := h.whenClosed hstate
    rw [watch_closed w now hc hstate]
    cases c with
    | allow => exact h
    | reset => exact absurd rfl hc
    | recordSuccess =>
      refine ⟨hf,h.successes,fun _ => ⟨hzero,w.since++[.success],?_,?_⟩,(absurd · hopen),(absurd · hhalf)⟩
      · exact (append_nil _).symm
      · rw [List.getLast?_concat]
        exact nofun
    | recordFailure =>
      rw [fromClosed]
      split
      · exact entered_tallied .stateOpen now (some now) hf hs (fun _ => rfl)
      rename_i hmore
      refine ⟨not_le.mp hmore,h.successes,fun _ => ⟨hzero,front,?_,hfront⟩,(absurd · hopen),(absurd · hhalf)⟩
      · rw [hsince, append_assoc, ← replicate_succ']
  | stateOpen =>
    have hclosed : w.breaker.state ≠ .stateClosed := state_ne hstate nofun
    have hhalf : w.breaker.state ≠ .stateHalfOpen := state_ne hstate nofun
    obtain ⟨hfail,hsucc,hlast⟩ := h.whenOpen hstate
    rw [watch_open w now hc hstate]
    cases c with
    | allow =>
      rw [fromOpen]
      split
      · exact entered_tallied .stateHalfOpen w.breaker.lastFailure w.failed hf hs nofun
      · exact h
    | reset => exact absurd rfl hc
    | recordSuccess =>
      exact ⟨h.failures,h.successes,(absurd · hclosed),fun _ => ⟨hfail,hsucc,hlast⟩,(absurd · hhalf)⟩
    | recordFailure =>
      exact ⟨h.failures,h.successes,(absurd · hclosed),fun _ => ⟨hfail,hsucc,rfl⟩,(absurd · hhalf)⟩
  | stateHalfOpen =>
    have hclosed : w.breaker.state ≠ .stateClosed := state_ne hstate nofun
    have hopen : w.breaker.state ≠ .stateOpen := state_ne hstate nofun
    obtain ⟨hfail,hsince⟩ := h.whenHalfOpen hstate
    rw [watch_halfOpen w now hc hstate]
    cases c with
    | allow => exact h
    | reset => exact absurd rfl hc
    | recordSuccess =>
      rw [fromHalfOpen]
      split
      · exact entered_tallied .stateClosed w.breaker.lastFailure w.failed hf hs nofun
      rename_i hmore
      refine ⟨h.failures,not_le.mp hmore,(absurd · hclosed),(absurd · hopen),fun _ => ⟨hfail,?_⟩⟩
      · rw [hsince, ← replicate_succ']
    | recordFailure => exact entered_tallied .stateOpen now (some now) hf hs (fun _ => rfl)

theorem call_settings (c : Call) (now : ℤ) (cb : Breaker) : SameSettings cb (call c now cb).1 := by
  cases c with
  | allow =>
    rw [call, Breaker.allow]
    split
    · exact ⟨rfl,rfl,rfl⟩
    · split <;> exact ⟨rfl,rfl,rfl⟩
    · exact ⟨rfl,rfl,rfl⟩
  | recordSuccess =>
    simp only [call, Breaker.recordSuccess, Breaker.transition]
    split
    · exact ⟨rfl,rfl,rfl⟩
    · exact ⟨rfl,rfl,rfl⟩
    · split <;> exact ⟨rfl,rfl,rfl⟩
  | recordFailure =>
    simp only [call, Breaker.recordFailure, Breaker.transition]
    split
    · split <;> exact ⟨rfl,rfl,rfl⟩
    · exact ⟨rfl,rfl,rfl⟩
    · exact ⟨rfl,rfl,rfl⟩
  | reset => exact ⟨rfl,rfl,rfl⟩

theorem run_tallied (calls : List (ℤ × Call)) (w : Watched) (h : Tallied w) :
    Tallied (run calls w) ∧ SameSettings w.breaker (run calls w).breaker := by
  induction calls generalizing w with
  | nil => exact ⟨h,rfl,rfl,rfl⟩
  | cons tc calls ih =>
    obtain ⟨htallied,hsame⟩ := ih (watch tc w) (watch_tallied tc w h)
    have hstep := call_settings tc.2 tc.1 w.breaker
    exact ⟨htallied,hsame.failures.trans hstep.failures,hsame.successes.trans hstep.successes,
      hsame.timeout.trans hstep.timeout⟩

/-! ## The transitions -/

structure Moves (new : Breaker) (w : Watched) (c : Call) (next : Breaker) (now : ℤ) (reply : Reply) : Prop where
  reset : c = .reset → next.state = .stateClosed
  closed : c ≠ .reset → w.breaker.state = .stateClosed →
    (next.state = .stateOpen ↔ List.replicate new.failureThreshold .failure <:+ w.since++recorded c) ∧
      next.state ≠ .stateHalfOpen
  opened : c ≠ .reset → w.breaker.state = .stateOpen → ∃ failed, w.failed = some failed ∧
    (c = .allow → now-failed < new.openTimeout → reply = .errCircuitOpen ∧ next.state = .stateOpen) ∧
      (c = .allow → new.openTimeout ≤ now-failed → reply = .allowed ∧ next.state = .stateHalfOpen) ∧
        (c ≠ .allow → next.state = .stateOpen)
  halfOpen : c ≠ .reset → w.breaker.state = .stateHalfOpen →
    (next.state = .stateClosed ↔ w.since++recorded c = List.replicate new.successThreshold .success) ∧
      (next.state = .stateOpen ↔ c = .recordFailure)

/-- An open breaker is asked less than 2^63 nanoseconds after the last failure. -/
def Timely (w : Watched) (c : Call) (now : ℤ) : Prop :=
  c = .allow → w.breaker.state = .stateOpen → ∀ failed ∈ w.failed, now-failed < 2^63

section Moved
variable {w : Watched} {now : ℤ} {c : Call} (h : Tallied w) (hc : c ≠ .reset)
include h hc

theorem closed_moves (hstate : w.breaker.state = .stateClosed) :
    ((watch (now,c) w).breaker.state = .stateOpen ↔
      List.replicate w.breaker.failureThreshold .failure <:+ w.since++recorded c) ∧
        (watch (now,c) w).breaker.state ≠ .stateHalfOpen := by
  obtain ⟨_,front,hsince,hfront⟩ := h.whenClosed hstate
  have hless := h.failures
  rw [watch_closed w now hc hstate]
  cases c with
  | allow =>
    rw [recorded, append_nil, hsince, suffix_replicate hfront]
    exact ⟨iff_of_false (state_ne hstate nofun) (by omega),state_ne hstate nofun⟩
  | reset => exact absurd rfl hc
  | recordSuccess =>
    have hend : (w.since++recorded .recordSuccess).getLast? ≠ some .failure := by
      rw [recorded, List.getLast?_concat]
      exact nofun
    have hnone := suffix_replicate hend w.breaker.failureThreshold 0
    rw [replicate_zero, append_nil] at hnone
    rw [hnone]
    exact ⟨iff_of_false (state_ne hstate nofun) (by omega),state_ne hstate nofun⟩
  | recordFailure =>
    rw [recorded, hsince, append_assoc, ← replicate_succ', suffix_replicate hfront, fromClosed]
    split
    · exact ⟨iff_of_true rfl ‹_›,nofun⟩
    · exact ⟨iff_of_false (state_ne hstate nofun) ‹_›,state_ne hstate nofun⟩

theorem halfOpen_moves (hstate : w.breaker.state = .stateHalfOpen) :
    ((watch (now,c) w).breaker.state = .stateClosed ↔
      w.since++recorded c = List.replicate w.breaker.successThreshold .success) ∧
        ((watch (now,c) w).breaker.state = .stateOpen ↔ c = .recordFailure) := by
  obtain ⟨_,hsince⟩ := h.whenHalfOpen hstate
  have hless := h.successes
  rw [watch_halfOpen w now hc hstate, hsince]
  cases c with
  | allow =>
    refine ⟨iff_of_false (state_ne hstate nofun) ?_,iff_of_false (state_ne hstate nofun) nofun⟩
    rw [recorded, append_nil, replicate_inj]
    omega
  | reset => exact absurd rfl hc
  | recordSuccess =>
    rw [recorded, replicate_append_inj, fromHalfOpen]
    split
    · exact ⟨iff_of_true rfl (by omega),iff_of_false nofun nofun⟩
    · exact ⟨iff_of_false (state_ne hstate nofun) (by omega),iff_of_false (state_ne hstate nofun) nofun⟩
  | recordFailure =>
    refine ⟨iff_of_false nofun (fun hno => ?_),iff_of_true rfl rfl⟩
    have hmem : Outcome.failure ∈ List.replicate w.breaker.successThreshold Outcome.success := by
      rw [← hno]
      exact mem_append_right _ (mem_singleton_self _)
    exact absurd (eq_of_mem_replicate hmem) nofun

end Moved

theorem tallied_moves {new : Breaker} {w : Watched} (h : Tallied w) (hsame : SameSettings new w.breaker)
    (c : Call) (now : ℤ) (hfailed : ∀ failed ∈ w.failed, failed ≤ now) (ht : Timely w c now) :
    Moves new w c (call c now w.breaker).1 now (call c now w.breaker).2.2 := by
  have hnext : (call c now w.breaker).1 = (watch (now,c) w).breaker := rfl
  refine ⟨fun hc => by rw [hnext, hc, watch_reset],
    fun hc hstate => hsame.failures ▸ closed_moves h hc hstate,fun hc hstate => ?_,
    fun hc hstate => hsame.successes ▸ halfOpen_moves h hc hstate⟩
  obtain ⟨_,_,hlast⟩ := h.whenOpen hstate
  have hexact : c = .allow → int64 (now-w.breaker.lastFailure) = now-w.breaker.lastFailure := by
    intro hallow
    have := hfailed _ hlast
    exact int64_of_range (by omega) (ht hallow hstate _ hlast)
  refine ⟨w.breaker.lastFailure,hlast,?_,?_,fun hallow => ?_⟩
  · rintro rfl hearly
    have hno : ¬w.breaker.openTimeout ≤ int64 (now-w.breaker.lastFailure) := by
      rw [hsame.timeout, hexact rfl]
      omega
    simp only [call, Breaker.allow, hstate, if_neg hno, and_self]
  · rintro rfl hlate
    rw [← hsame.timeout, ← hexact rfl] at hlate
    simp only [call, Breaker.allow, Breaker.transition, hstate, if_pos hlate, and_self]
  rw [hnext, watch_open w now hc hstate]
  cases c with
  | allow => exact absurd rfl hallow
  | reset => exact absurd rfl hc
  | recordSuccess => exact hstate
  | recordFailure => exact hstate

/-- A difference of 2^63 or more is negative in 64 bits: the call is refused, however short
the timeout. -/
theorem moves_timely {new : Breaker} {w : Watched} (h : Tallied w) (hsame : SameSettings new w.breaker)
    (hnew : 0 < new.openTimeout ∧ new.openTimeout < 2^63) (c : Call) (now : ℤ) (hnow : IsInt64 now)
    (hfailed : ∀ failed ∈ w.failed, IsInt64 failed)
    (hm : Moves new w c (call c now w.breaker).1 now (call c now w.breaker).2.2) : Timely w c now := by
  rintro rfl hstate failed hf
  by_contra hlate
  obtain ⟨failed',hf',_,hmoved,_⟩ := hm.opened nofun hstate
  have hlast := (h.whenOpen hstate).2.2
  obtain rfl : failed' = failed := Option.some.inj (hf'.symm.trans hf)
  obtain rfl : failed' = w.breaker.lastFailure := Option.some.inj (hf'.symm.trans hlast)
  have hneg : int64 (now-w.breaker.lastFailure) < 0 := int64_wrapped (by omega) (by
    have := (hfailed _ hf).1
    have := hnow.2
    omega)
  have hno : ¬w.breaker.openTimeout ≤ int64 (now-w.breaker.lastFailure) := by
    rw [hsame.timeout]
    omega
  have hreply := (hmoved rfl (by omega)).1
  simp only [call, Breaker.allow, hstate, if_neg hno] at hreply
  cases hreply

theorem new_timeout (opts : List Setting) (hopts : ∀ d, .openTimeout d ∈ opts → d < 2^63) :
    0 < (Breaker.newCircuitBreaker opts).openTimeout ∧
      (Breaker.newCircuitBreaker opts).openTimeout < 2^63 := by
  have hset : ∀ cb : Breaker, 0 < cb.openTimeout ∧ cb.openTimeout < 2^63 →
      0 < (opts.foldl (fun cb opt => cb.set opt) cb).openTimeout ∧
        (opts.foldl (fun cb opt => cb.set opt) cb).openTimeout < 2^63 := by
    induction opts with
    | nil => exact fun _ h => h
    | cons opt opts ih =>
      intro cb h
      refine ih (fun d hd => hopts d (mem_cons_of_mem _ hd)) _ ?_
      cases opt with
      | openTimeout d =>
        simp only [Breaker.set]
        split
        · exact ⟨‹_›,hopts d mem_cons_self⟩
        · exact h
      | failureThreshold n =>
        simp only [Breaker.set]
        split <;> exact h
      | successThreshold n =>
        simp only [Breaker.set]
        split <;> exact h
  exact hset _ (by decide)

theorem run_failed (calls : List (ℤ × Call)) (w : Watched) :
    ∀ failed ∈ (run calls w).failed, failed ∈ w.failed ∨ failed ∈ calls.map Prod.fst := by
  induction calls generalizing w with
  | nil => exact fun _ h => .inl h
  | cons tc calls ih =>
    intro failed hf
    rcases ih (watch tc w) failed hf with hold | hin
    · by_cases hc : tc.2 = .recordFailure
      · rw [watch, if_pos hc, Option.mem_some] at hold
        exact .inr (by simp [hold])
      · rw [watch, if_neg hc] at hold
        exact .inl hold
    · exact .inr (mem_cons_of_mem _ hin)

/-- After every sequence of calls the counters are below their thresholds and the counter that
the state does not use is zero. The next call moves the state as the outcomes recorded since the
state was entered, and the time since the last failure, say, exactly if it does not ask an open
breaker 2^63 nanoseconds or more after that failure. -/
theorem breaker_state_machine (opts : List Setting) (hopts : ∀ d, .openTimeout d ∈ opts → d < 2^63)
    (calls : List (ℤ × Call)) (now : ℤ) (c : Call) (hclock : Advancing (calls.map Prod.fst++[now])) :
    let new := Breaker.newCircuitBreaker opts
    let w := run calls (start opts)
    w.breaker.failureCount < new.failureThreshold ∧ w.breaker.successCount < new.successThreshold ∧
      (w.breaker.state ≠ .stateClosed → w.breaker.failureCount = 0) ∧
        (w.breaker.state ≠ .stateHalfOpen → w.breaker.successCount = 0) ∧
          (Moves new w c (call c now w.breaker).1 now (call c now w.breaker).2.2 ↔ Timely w c now) := by
  intro new w
  obtain ⟨htallied,hsame⟩ : Tallied w ∧ SameSettings new w.breaker :=
    run_tallied calls (start opts) (start_tallied opts)
  have hin : ∀ failed ∈ w.failed, failed ∈ calls.map Prod.fst := fun failed hf =>
    (run_failed calls (start opts) failed hf).resolve_left (by simp [start])
  have hbefore : ∀ failed ∈ w.failed, failed ≤ now := fun failed hf =>
    (pairwise_append.mp hclock.1).2.2 failed (hin failed hf) now (mem_singleton_self _)
  have hrange : ∀ failed ∈ w.failed, IsInt64 failed := fun failed hf =>
    hclock.2 failed (mem_append_left _ (hin failed hf))
  refine ⟨hsame.failures ▸ htallied.failures,hsame.successes ▸ htallied.successes,fun hstate => ?_,
    fun hstate => ?_,moves_timely htallied hsame (new_timeout opts hopts) c now
      (hclock.2 now (by simp)) hrange,tallied_moves htallied hsame c now hbefore⟩
  · cases hs : w.breaker.state with
    | stateClosed => exact absurd hs hstate
    | stateOpen => exact (htallied.whenOpen hs).1
    | stateHalfOpen => exact (htallied.whenHalfOpen hs).1
  cases hs : w.breaker.state with
  | stateClosed => exact (htallied.whenClosed hs).1
  | stateOpen => exact (htallied.whenOpen hs).2.1
  | stateHalfOpen => exact absurd hs hstate

/-- Two failures open the breaker, a call within the timeout is refused, and one after it is
let through. -/
theorem opened_breaker_moves :
    let opts : List Setting := [.failureThreshold 2, .openTimeout 10]
    let w := run [(0,.recordFailure), (5,.recordFailure), (9,.allow)] (start opts)
    w.breaker.state = .stateOpen ∧ Moves (Breaker.newCircuitBreaker opts) w .allow
      (call .allow 16 w.breaker).1 16 (call .allow 16 w.breaker).2.2 := by
  refine ⟨by decide,(breaker_state_machine [.failureThreshold 2, .openTimeout 10] (by simp)
    [(0,.recordFailure), (5,.recordFailure), (9,.allow)] 16 .allow (by decide)).2.2.2.2.mpr ?_⟩
  intro _ _ failed hf
  obtain rfl : 5 = failed := Option.some.inj hf
  decide

/-- Nearly six hundred years after the failure the breaker still refuses. -/
theorem late_call_still_open :
    let w := run [(-9000000000000000000,.recordFailure)] (start [.failureThreshold 1])
    Advancing [-9000000000000000000, 9000000000000000000] ∧
      ¬Moves (Breaker.newCircuitBreaker [.failureThreshold 1]) w .allow
        (call .allow 9000000000000000000 w.breaker).1 9000000000000000000
        (call .allow 9000000000000000000 w.breaker).2.2 := by
  refine ⟨by decide,fun h => ?_⟩
  obtain ⟨failed,hf,_,hmoved,_⟩ := h.opened nofun (by decide)
  obtain rfl : -9000000000000000000 = failed := Option.some.inj hf
  exact absurd (hmoved rfl (by decide)).1 (by decide)

end GoCommon.CircuitBreaker
