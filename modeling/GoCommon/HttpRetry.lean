import GoCommon.ByteWords
import Mathlib.Algebra.Order.Floor.Ring
import Mathlib.Data.Rat.Floor

/-!
# Requests with retries

A request is sent again after an error or a status that asks for it, and after a wait that
grows with the attempts, until the context is done or the attempts are used up. What the
transport answers, where the context is found done and which numbers are drawn is given for
every attempt. A result of none stands for a panic.
-/

set_option autoImplicit false

namespace GoCommon.HttpRetry
open List ByteWords

/-! ## Backoff -/

def millisecond : ℤ := 1000000

def defaultInitialDelay : ℤ := 100*millisecond
def defaultMaxDelay : ℤ := 30*second
def defaultMultiplier : ℚ := 2

structure ExponentialBackoff where
  initial : ℤ
  max : ℤ
  multiplier : ℚ

def newExponentialBackoff (initial max : ℤ) (multiplier : ℚ) : ExponentialBackoff where
  initial := if initial ≤ 0 then defaultInitialDelay else initial
  max := if max ≤ 0 then defaultMaxDelay else max
  multiplier := if multiplier ≤ 1 then defaultMultiplier else multiplier

def ExponentialBackoff.delay (b : ExponentialBackoff) (attempt : ℕ) : ℤ :=
  let d := b.initial*b.multiplier^attempt
  if b.max < d then b.max else ⌊d⌋

def int63n (n : ℤ) (draw : ℕ) : Option ℤ := if n ≤ 0 then none else some (draw%n)

def jitterDelay (b : ExponentialBackoff) (attempt draw : ℕ) : Option ℤ :=
  let half := (b.delay attempt).tdiv 2
  (int63n (half+1) draw).map (half+·)

/-! ## The loop -/

variable {E : Type}

structure Attempt (E : Type) where
  doneBefore : Bool
  outcome : Except E ℤ
  draw : ℕ
  doneInWait : Bool

structure Result (E : Type) where
  resp : Option ℕ
  err : Option E
  sent : ℕ
  closed : List ℕ
deriving DecidableEq

def statusTooManyRequests : ℤ := 429
def statusInternalServerError : ℤ := 500

def needsRetry (status : ℤ) : Bool :=
  status = statusTooManyRequests ∨ statusInternalServerError ≤ status

def afterAnswer (attempt : ℕ) (lastErr : Option E) (closed : List ℕ) :
    Except E ℤ → Option (Option E × List ℕ)
  | .ok status => if needsRetry status then some (lastErr,closed++[attempt]) else none
  | .error err => some (some err,closed)

def retryLoop (ctxErr : E) (env : ℕ → Attempt E) :
    ℕ → ℕ → Option E → List ℕ → Option (Result E)
  | 0, attempt, lastErr, closed => some ⟨none,lastErr,attempt,closed⟩
  | rest+1, attempt, lastErr, closed =>
    if (env attempt).doneBefore then some ⟨none,some ctxErr,attempt,closed⟩
    else match afterAnswer attempt lastErr closed (env attempt).outcome with
      | none => some ⟨some attempt,none,attempt+1,closed⟩
      | some (lastErr,closed) => do
        let backoff := newExponentialBackoff (1*second) (30*second) 2
        let _wait ← jitterDelay backoff attempt (env attempt).draw
        if (env attempt).doneInWait then some ⟨none,some ctxErr,attempt+1,closed⟩
        else retryLoop ctxErr env rest (attempt+1) lastErr closed

def requestWithRetry (ctxErr : E) (env : ℕ → Attempt E) (maxRetries : ℤ) : Option (Result E) :=
  retryLoop ctxErr env maxRetries.toNat 0 none []

/-! ## Waits -/

theorem delay_range (b : ExponentialBackoff) (hinitial : 0 < b.initial) (hmax : 0 < b.max)
    (hmultiplier : 1 < b.multiplier) (attempt : ℕ) :
    0 ≤ b.delay attempt ∧ b.delay attempt ≤ b.max := by
  rw [ExponentialBackoff.delay]
  split
  · exact ⟨hmax.le,le_rfl⟩
  rename_i hle
  have hinitial' : (0 : ℚ) ≤ b.initial := by exact_mod_cast hinitial.le
  refine ⟨Int.floor_nonneg.mpr (mul_nonneg hinitial' (pow_nonneg (by linarith) _)),?_⟩
  have hfloor := Int.floor_le ((b.initial : ℚ)*b.multiplier^attempt)
  exact_mod_cast hfloor.trans (not_lt.mp hle)

theorem new_positive (initial max : ℤ) (multiplier : ℚ) :
    0 < (newExponentialBackoff initial max multiplier).initial ∧
      0 < (newExponentialBackoff initial max multiplier).max ∧
      1 < (newExponentialBackoff initial max multiplier).multiplier := by
  refine ⟨?_,?_,?_⟩
  · rw [newExponentialBackoff]
    dsimp only
    split
    · decide
    · omega
  · rw [newExponentialBackoff]
    dsimp only
    split
    · decide
    · omega
  rw [newExponentialBackoff]
  dsimp only
  split
  · norm_num [defaultMultiplier]
  · rename_i h
    exact not_le.mp h

theorem jitter_range {d : ℤ} (h : 0 ≤ d) (draw : ℕ) :
    ∃ wait, (int63n (d.tdiv 2+1) draw).map (d.tdiv 2+·) = some wait ∧ d/2 ≤ wait ∧ wait ≤ d := by
  have hpos : 0 < d/2+1 := by omega
  have hdraw := Int.emod_nonneg (draw : ℤ) hpos.ne'
  have hlt := Int.emod_lt_of_pos (draw : ℤ) hpos
  refine ⟨d/2+(draw : ℤ)%(d/2+1),?_,by omega,by omega⟩
  rw [Int.tdiv_eq_ediv_of_nonneg h, int63n, if_neg (by omega)]
  rfl

theorem jitterDelay_range (initial max : ℤ) (multiplier : ℚ) (attempt draw : ℕ) :
    let b := newExponentialBackoff initial max multiplier
    ∃ wait, jitterDelay b attempt draw = some wait ∧
      b.delay attempt/2 ≤ wait ∧ wait ≤ b.delay attempt := by
  intro b
  obtain ⟨hinitial,hmax,hmultiplier⟩ := new_positive initial max multiplier
  exact jitter_range (delay_range b hinitial hmax hmultiplier attempt).1 draw

/-! ## Outcomes -/

def Definite (r : Result E) : Prop :=
  (∃ i, r.resp = some i ∧ r.err = none) ∨ (r.resp = none ∧ ∃ err, r.err = some err)

def Final (a : Attempt E) : Prop := ∃ status, a.outcome = .ok status ∧ needsRetry status = false

def Settles (a : Attempt E) : Prop :=
  a.doneBefore = true ∨ a.doneInWait = true ∨
    ∀ status, a.outcome = .ok status → needsRetry status = false

section Loop
variable (ctxErr : E) {env : ℕ → Attempt E}

structure Handled (env : ℕ → Attempt E) (r : Result E) : Prop where
  first : ∀ i, r.resp = some i → Final (env i) ∧ ∀ j < i, ¬Final (env j)
  closed : ∀ j < r.sent, ∀ status, (env j).outcome = .ok status → r.resp ≠ some j → j ∈ r.closed

structure Trying (env : ℕ → Attempt E) (attempt : ℕ) (lastErr : Option E) (closed : List ℕ) :
    Prop where
  notFinal : ∀ j < attempt, ¬Final (env j)
  closes : ∀ j < attempt, ∀ status, (env j).outcome = .ok status → j ∈ closed
  settled : lastErr.isSome ↔ ∃ j < attempt, Settles (env j)

theorem answer_final {attempt : ℕ} {lastErr : Option E} {closed : List ℕ}
    (h : afterAnswer attempt lastErr closed (env attempt).outcome = none) :
    Final (env attempt) := by
  cases hout : (env attempt).outcome with
  | ok status =>
    rw [hout, afterAnswer] at h
    split at h
    · cases h
    · rename_i hno
      exact ⟨status,hout,by simpa using hno⟩
  | error err =>
    rw [hout] at h
    cases h

theorem answer_cases {attempt : ℕ} {lastErr lastErr' : Option E} {closed closed' : List ℕ}
    (h : afterAnswer attempt lastErr closed (env attempt).outcome = some (lastErr',closed')) :
    (∃ status, (env attempt).outcome = .ok status ∧ needsRetry status = true ∧
      lastErr' = lastErr ∧ closed' = closed++[attempt]) ∨
      ∃ err, (env attempt).outcome = .error err ∧ lastErr' = some err ∧ closed' = closed := by
  cases hout : (env attempt).outcome with
  | ok status =>
    rw [hout, afterAnswer] at h
    split at h
    · rename_i hretry
      cases h
      exact Or.inl ⟨status,rfl,hretry,rfl,rfl⟩
    · cases h
  | error err =>
    rw [hout] at h
    cases h
    exact Or.inr ⟨err,rfl,rfl,rfl⟩

section Answer
variable {attempt : ℕ} {lastErr lastErr' : Option E} {closed closed' : List ℕ}
  (h : Trying env attempt lastErr closed)
  (hanswer : afterAnswer attempt lastErr closed (env attempt).outcome = some (lastErr',closed'))
include h hanswer

theorem Trying.next_notFinal : ∀ j < attempt+1, ¬Final (env j) := by
  intro j hj
  rcases Nat.lt_succ_iff_lt_or_eq.mp hj with hlt | rfl
  · exact h.notFinal j hlt
  rintro ⟨status,hout,hno⟩
  rcases answer_cases hanswer with ⟨status',hout',hretry,_⟩ | ⟨err,hout',_⟩
  · rw [hout'] at hout
    cases hout
    rw [hretry] at hno
    cases hno
  · rw [hout'] at hout
    cases hout

theorem Trying.next_closes :
    ∀ j < attempt+1, ∀ status, (env j).outcome = .ok status → j ∈ closed' := by
  intro j hj status hout
  rcases answer_cases hanswer with ⟨status',hout',_,_,rfl⟩ | ⟨err,hout',_,rfl⟩
  · rcases Nat.lt_succ_iff_lt_or_eq.mp hj with hlt | rfl
    · exact mem_append_left _ (h.closes j hlt status hout)
    · exact mem_append_right _ (mem_singleton_self _)
  rcases Nat.lt_succ_iff_lt_or_eq.mp hj with hlt | rfl
  · exact h.closes j hlt status hout
  · rw [hout'] at hout
    cases hout

theorem Trying.next_settled (hbefore : (env attempt).doneBefore = false)
    (hwait : (env attempt).doneInWait = false) :
    lastErr'.isSome ↔ ∃ j < attempt+1, Settles (env j) := by
  rcases answer_cases hanswer with ⟨status,hout,hretry,rfl,_⟩ | ⟨err,hout,rfl,_⟩
  · have hnot : ¬Settles (env attempt) := by
      rintro (hdone | hdone | hno)
      · rw [hbefore] at hdone
        cases hdone
      · rw [hwait] at hdone
        cases hdone
      · have := hno status hout
        rw [hretry] at this
        cases this
    rw [h.settled]
    constructor
    · rintro ⟨j,hj,hsettles⟩
      exact ⟨j,hj.trans (Nat.lt_succ_self _),hsettles⟩
    rintro ⟨j,hj,hsettles⟩
    rcases Nat.lt_succ_iff_lt_or_eq.mp hj with hlt | rfl
    · exact ⟨j,hlt,hsettles⟩
    · exact absurd hsettles hnot
  · refine iff_of_true rfl ⟨attempt,Nat.lt_succ_self _,Or.inr (Or.inr fun status hok => ?_)⟩
    rw [hout] at hok
    cases hok

end Answer

theorem retryLoop_spec (rest attempt : ℕ) (lastErr : Option E) (closed : List ℕ)
    (h : Trying env attempt lastErr closed) :
    ∃ r, retryLoop ctxErr env rest attempt lastErr closed = some r ∧ Handled env r ∧
      r.sent ≤ attempt+rest ∧ (Definite r ↔ ∃ j < attempt+rest, Settles (env j)) := by
  induction rest generalizing attempt lastErr closed with
  | zero =>
    refine ⟨_,rfl,⟨nofun,fun j hj status hout _ => h.closes j hj status hout⟩,le_rfl,?_⟩
    rw [Nat.add_zero, ← h.settled, Option.isSome_iff_exists]
    constructor
    · rintro (⟨i,hi,_⟩ | ⟨_,herr⟩)
      · cases hi
      · exact herr
    · intro herr
      exact Or.inr ⟨rfl,herr⟩
  | succ rest ih =>
    have hhere : Settles (env attempt) → ∃ j < attempt+(rest+1), Settles (env j) :=
      fun hsettles => ⟨attempt,by omega,hsettles⟩
    rw [retryLoop]
    by_cases hbefore : (env attempt).doneBefore = true
    · rw [if_pos hbefore]
      exact ⟨_,rfl,⟨nofun,fun j hj status hout _ => h.closes j hj status hout⟩,by dsimp only; omega,
        iff_of_true (Or.inr ⟨rfl,_,rfl⟩) (hhere (Or.inl hbefore))⟩
    rw [if_neg hbefore]
    cases hanswer : afterAnswer attempt lastErr closed (env attempt).outcome with
    | none =>
      have hfinal := answer_final hanswer
      refine ⟨_,rfl,⟨fun i hi => ?_,fun j hj status hout hne => ?_⟩,by dsimp only; omega,
        iff_of_true (Or.inl ⟨attempt,rfl,rfl⟩) (hhere (Or.inr (Or.inr ?_)))⟩
      · cases hi
        exact ⟨hfinal,h.notFinal⟩
      · rcases Nat.lt_succ_iff_lt_or_eq.mp hj with hlt | rfl
        · exact h.closes j hlt status hout
        · exact absurd rfl hne
      intro status hout
      obtain ⟨status',hout',hno⟩ := hfinal
      rw [hout'] at hout
      cases hout
      exact hno
    | some next =>
      obtain ⟨lastErr',closed'⟩ := next
      have hclosed := h.next_closes hanswer
      obtain ⟨wait,hwait,_⟩ :=
        jitterDelay_range (1*second) (30*second) 2 attempt (env attempt).draw
      simp only [hwait, Option.bind_eq_bind, Option.bind_some]
      by_cases hdone : (env attempt).doneInWait = true
      · rw [if_pos hdone]
        exact ⟨_,rfl,⟨nofun,fun j hj status hout _ => hclosed j hj status hout⟩,
          by dsimp only; omega,iff_of_true (Or.inr ⟨rfl,_,rfl⟩) (hhere (Or.inr (Or.inl hdone)))⟩
      rw [if_neg hdone]
      obtain ⟨r,hr,hhandled,hsent,hdefinite⟩ := ih (attempt+1) lastErr' closed'
        ⟨h.next_notFinal hanswer,hclosed,
          h.next_settled hanswer (by simpa using hbefore) (by simpa using hdone)⟩
      refine ⟨r,hr,hhandled,by omega,?_⟩
      rwa [Nat.add_right_comm] at hdefinite

end Loop

theorem sent_le {sent j : ℕ} {maxRetries : ℤ} (hsent : sent ≤ maxRetries.toNat)
    (hj : j < maxRetries.toNat) : (sent : ℤ) ≤ maxRetries := by
  omega

/-- A call ends as it should exactly if one of its attempts sees the context done or does not end
in a response to retry. -/
theorem definite_outcome_iff (ctxErr : E) (env : ℕ → Attempt E) (maxRetries : ℤ) :
    (∃ r, requestWithRetry ctxErr env maxRetries = some r ∧
      ((∃ i, r.resp = some i ∧ r.err = none) ∨ (r.resp = none ∧ ∃ err, r.err = some err)) ∧
      (∀ i, r.resp = some i → Final (env i) ∧ ∀ j < i, ¬Final (env j)) ∧
      (r.sent : ℤ) ≤ maxRetries ∧
      ∀ j < r.sent, ∀ status, (env j).outcome = .ok status → r.resp ≠ some j → j ∈ r.closed) ↔
      ∃ j : ℕ, (j : ℤ) < maxRetries ∧ Settles (env j) := by
  have hstart : Trying env 0 none [] :=
    ⟨nofun,nofun,iff_of_false nofun (fun ⟨_,hj,_⟩ => absurd hj (Nat.not_lt_zero _))⟩
  obtain ⟨r,hr,hhandled,hsent,hdefinite⟩ :=
    retryLoop_spec ctxErr maxRetries.toNat 0 none [] hstart
  rw [Nat.zero_add] at hsent hdefinite
  have hbound : (∃ j < maxRetries.toNat, Settles (env j)) ↔
      ∃ j : ℕ, (j : ℤ) < maxRetries ∧ Settles (env j) :=
    exists_congr fun j => and_congr_left' Int.lt_toNat
  rw [← hbound, ← hdefinite]
  constructor
  · rintro ⟨out,hout,hdef,_⟩
    rw [requestWithRetry, hr] at hout
    cases hout
    exact hdef
  · intro hdef
    obtain ⟨j,hj,_⟩ := hdefinite.mp hdef
    exact ⟨r,hr,hdef,hhandled.first,sent_le hsent hj,hhandled.closed⟩

/-- A server that is unavailable at the only attempt: neither a response nor an error. -/
theorem unavailable_gives_nothing :
    ∃ r, requestWithRetry "cancelled" (fun _ => ⟨false,.ok 503,0,false⟩) 1 = some r ∧
      r.resp = none ∧ r.err = none :=
  ⟨⟨none,none,1,[0]⟩,by decide +kernel,rfl,rfl⟩

end GoCommon.HttpRetry
