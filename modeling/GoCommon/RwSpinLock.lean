import Mathlib.Algebra.Order.BigOperators.Group.Finset
import Mathlib.Data.Fintype.BigOperators
import GoCommon.StepRuns

/-!
# The read-write spin lock

Every step is one atomic operation of a goroutine on the state word: a load, a
compare-and-swap or an addition. The pauses and yields between them change nothing.
A goroutine that holds the read lock several times counts as several goroutines.
-/

set_option autoImplicit false

namespace GoCommon.RwSpinLock
open Function StepRuns

def spinIterations : ℕ := 4

def maxGoschedBackoff : ℕ := 16

def int32 (x : ℤ) : ℤ := Int.bmod x (2^32)

inductive Spin where
  | active (i : ℕ)
  | backoff (n : ℕ)
deriving DecidableEq, Repr

def Spin.next : Spin → Spin
  | .active i => if i+1 < spinIterations then .active (i+1) else .backoff 1
  | .backoff n => .backoff (if n < maxGoschedBackoff then 2*n else n)

inductive Place where
  | outside
  | rlockLoad (spin : Spin)
  | rlockSwap (spin : Spin) (s : ℤ)
  | reading
  | lockSwap (spin : Spin)
  | writing
  | panicked
deriving DecidableEq, Repr

inductive Act where
  | rlock
  | runlock
  | lock
  | unlock
  | advance
deriving DecidableEq, Repr

def act : Act → Place → ℤ → Option (ℤ × Place)
  | .rlock, .outside, word => some (word,.rlockLoad (.active 0))
  | .lock, .outside, word => some (word,.lockSwap (.active 0))
  | .advance, .rlockLoad spin, word => some (word,.rlockSwap spin word)
  | .advance, .rlockSwap spin s, word =>
    if 0 ≤ s ∧ word = s then some (int32 (s+1),.reading) else some (word,.rlockLoad spin.next)
  | .advance, .lockSwap spin, word =>
    if word = 0 then some (-1,.writing) else some (word,.lockSwap spin.next)
  | .runlock, .reading, word =>
    some (int32 (word-1),if int32 (word-1) < 0 then .panicked else .outside)
  | .unlock, .writing, word =>
    if word = -1 then some (0,.outside) else some (word,.panicked)
  | _, _, _ => none

structure Lock (n : ℕ) where
  word : ℤ
  places : Fin n → Place

def newRWSpinLock (n : ℕ) : Lock n := ⟨0,fun _ => .outside⟩

def step {n : ℕ} (ga : Fin n × Act) (s : Lock n) : Option (Lock n) :=
  (act ga.2 (s.places ga.1) s.word).map
    (fun wp => ⟨wp.1,update s.places ga.1 wp.2⟩)

/-! ## Counting the readers -/

variable {n : ℕ}

def readers (places : Fin n → Place) : ℕ := (Finset.univ.filter (fun g => places g = .reading)).card

theorem readers_split (places : Fin n → Place) (g : Fin n) : readers places =
    (if places g = .reading then 1 else 0)+∑ x ∈ Finset.univ.erase g, if places x = .reading then 1 else 0 := by
  rw [readers, Finset.card_filter, ← Finset.add_sum_erase _ _ (Finset.mem_univ g)]

theorem readers_update (places : Fin n → Place) (g : Fin n) (p : Place) :
    readers (update places g p)+(if places g = .reading then 1 else 0) =
      readers places+(if p = .reading then 1 else 0) := by
  have hrest : ∑ x ∈ Finset.univ.erase g, (if update places g p x = .reading then 1 else 0) =
      ∑ x ∈ Finset.univ.erase g, if places x = .reading then 1 else 0 := by
    refine Finset.sum_congr rfl (fun x hx => ?_)
    rw [update_of_ne (Finset.ne_of_mem_erase hx)]
  rw [readers_split places g, readers_split (update places g p) g, update_self]
  omega

theorem readers_le (places : Fin n → Place) : readers places ≤ n :=
  (Finset.card_filter_le _ _).trans_eq (Finset.card_fin n)

variable {places : Fin n → Place} {g : Fin n}

theorem readers_pos (h : places g = .reading) : 0 < readers places :=
  Finset.card_pos.mpr ⟨g,Finset.mem_filter.mpr ⟨Finset.mem_univ g,h⟩⟩

theorem readers_zero (h : readers places = 0) (g : Fin n) : places g ≠ .reading :=
  fun hg => absurd h (readers_pos hg).ne'

theorem int32_of_small {x : ℤ} (hlow : -2^31 ≤ x) (hhigh : x < 2^31) : int32 x = x := by
  rw [int32, Int.bmod_def]
  split <;> omega

/-! ## The invariant -/

structure Locked (word : ℤ) (places : Fin n → Place) : Prop where
  held : (∃ w, places w = .writing ∧ ∀ g, places g = .writing → g = w) ∧ readers places = 0 ∧ word = -1 ∨
    (∀ g, places g ≠ .writing) ∧ word = readers places
  calm : ∀ g, places g ≠ .panicked

theorem new_locked : Locked (newRWSpinLock n).word (newRWSpinLock n).places := by
  refine ⟨Or.inr ⟨nofun,?_⟩,nofun⟩
  rw [readers, Finset.filter_false_of_mem nofun]
  rfl

inductive Effect (p : Place) (word : ℤ) : Place → ℤ → Prop where
  | quiet (p' : Place) : p ≠ .reading → p ≠ .writing → p' ≠ .reading → p' ≠ .writing → p' ≠ .panicked →
      Effect p word p' word
  | rlock : p ≠ .reading → p ≠ .writing → 0 ≤ word → Effect p word .reading (int32 (word+1))
  | lock : p ≠ .reading → p ≠ .writing → word = 0 → Effect p word .writing (-1)
  | runlock : p = .reading →
      Effect p word (if int32 (word-1) < 0 then .panicked else .outside) (int32 (word-1))
  | unlock : p = .writing →
      Effect p word (if word = -1 then .outside else .panicked) (if word = -1 then 0 else word)

variable {p : Place}

theorem act_effect {a : Act} {p' : Place} {word word' : ℤ} (h : act a p word = some (word',p')) :
    Effect p word p' word' := by
  cases a with
  | rlock => cases p with
    | outside =>
      cases h
      exact .quiet _ nofun nofun nofun nofun nofun
    | _ => cases h
  | lock => cases p with
    | outside =>
      cases h
      exact .quiet _ nofun nofun nofun nofun nofun
    | _ => cases h
  | runlock => cases p with
    | reading =>
      cases h
      exact .runlock rfl
    | _ => cases h
  | unlock => cases p with
    | writing =>
      have hunlock := @Effect.unlock .writing word rfl
      rw [act] at h
      split at h
      · rename_i hword
        cases h
        rwa [if_pos hword, if_pos hword] at hunlock
      · rename_i hword
        cases h
        rwa [if_neg hword, if_neg hword] at hunlock
    | _ => cases h
  | advance => cases p with
    | rlockLoad spin =>
      cases h
      exact .quiet _ nofun nofun nofun nofun nofun
    | rlockSwap spin seen =>
      rw [act] at h
      split at h
      · rename_i hswap
        cases h
        rw [← hswap.2]
        exact .rlock nofun nofun (hswap.2 ▸ hswap.1)
      · cases h
        exact .quiet _ nofun nofun nofun nofun nofun
    | lockSwap spin =>
      rw [act] at h
      split at h
      · rename_i hfree
        cases h
        exact .lock nofun nofun hfree
      · cases h
        exact .quiet _ nofun nofun nofun nofun nofun
    | _ => cases h

theorem step_some {ga : Fin n × Act} {s t : Lock n} (h : step ga s = some t) :
    ∃ p, Effect (s.places ga.1) s.word p t.word ∧ t.places = update s.places ga.1 p := by
  obtain ⟨⟨word,p⟩,hact,rfl⟩ := Option.map_eq_some_iff.mp h
  exact ⟨p,act_effect hact,rfl⟩

theorem writing_update (hold : places g ≠ .writing)
    (hp : p ≠ .writing) (x : Fin n) : update places g p x = .writing ↔ places x = .writing := by
  by_cases hx : x = g
  · subst hx
    rw [update_self]
    exact iff_of_false hp hold
  · rw [update_of_ne hx]

theorem calm_update (h : ∀ x, places x ≠ .panicked)
    (hp : p ≠ .panicked) (x : Fin n) : update places g p x ≠ .panicked := by
  by_cases hx : x = g
  · subst hx
    rw [update_self]
    exact hp
  · rw [update_of_ne hx]
    exact h x

theorem effect_locked (hn : n < 2^31) {word word' : ℤ}
    (h : Locked word places) (heffect : Effect (places g) word p word') :
    Locked word' (update places g p) := by
  have hcount := readers_update places g p
  have hle := readers_le places
  cases heffect with
  | quiet p hr hw hr' hw' hp =>
    have hsame := writing_update hw hw'
    rw [if_neg hr, if_neg hr', add_zero, add_zero] at hcount
    refine ⟨?_,calm_update h.calm hp⟩
    rcases h.held with ⟨⟨w,hww,honly⟩,hzero,hword⟩ | ⟨hnone,hword⟩
    · exact Or.inl ⟨⟨w,(hsame w).mpr hww,fun x hx => honly x ((hsame x).mp hx)⟩,hcount.trans hzero,hword⟩
    · exact Or.inr ⟨fun x hx => hnone x ((hsame x).mp hx),by rw [hcount, hword]⟩
  | rlock hr hw hpos =>
    have hsame := @writing_update _ _ _ .reading hw nofun
    rw [if_neg hr, if_pos rfl] at hcount
    refine ⟨Or.inr ?_,calm_update h.calm nofun⟩
    rcases h.held with ⟨_,_,hword⟩ | ⟨hnone,hword⟩
    · omega
    -- the new reader is one of the goroutines and was not counted before
    have hfit := readers_le (update places g .reading)
    refine ⟨fun x hx => hnone x ((hsame x).mp hx),?_⟩
    rw [int32_of_small (by omega) (by omega)]
    omega
  | lock hr hw hfree =>
    rw [if_neg hr, if_neg nofun] at hcount
    refine ⟨Or.inl ?_,calm_update h.calm nofun⟩
    rcases h.held with ⟨_,_,hword⟩ | ⟨hnone,hword⟩
    · omega
    refine ⟨⟨g,update_self ..,fun x hx => ?_⟩,by omega,rfl⟩
    by_contra hne
    rw [update_of_ne hne] at hx
    exact hnone x hx
  | runlock hr =>
    have hpos := readers_pos hr
    rcases h.held with ⟨_,hzero,_⟩ | ⟨hnone,hword⟩
    · omega
    have hnext : int32 (word-1) = word-1 := int32_of_small (by omega) (by omega)
    rw [hnext, if_neg (by omega : ¬word-1 < 0)] at hcount ⊢
    rw [if_pos hr, if_neg nofun] at hcount
    have hsame := @writing_update _ places g .outside (by rw [hr]; exact nofun) nofun
    exact ⟨Or.inr ⟨fun x hx => hnone x ((hsame x).mp hx),by omega⟩,calm_update h.calm nofun⟩
  | unlock hw =>
    rcases h.held with ⟨⟨w,hww,honly⟩,hzero,hword⟩ | ⟨hnone,_⟩
    · rw [if_pos hword] at hcount ⊢
      rw [if_pos hword]
      rw [if_neg (by rw [hw]; exact nofun), if_neg nofun] at hcount
      refine ⟨Or.inr ⟨fun x hx => ?_,by omega⟩,calm_update h.calm nofun⟩
      by_cases hx' : x = g
      · rw [hx', update_self] at hx
        cases hx
      · rw [update_of_ne hx'] at hx
        exact hx' ((honly x hx).trans (honly g hw).symm)
    · exact absurd hw (hnone g)

theorem step_locked (hn : n < 2^31) {ga : Fin n × Act} {s t : Lock n} (h : Locked s.word s.places)
    (hstep : step ga s = some t) : Locked t.word t.places := by
  obtain ⟨p,heffect,hplaces⟩ := step_some hstep
  rw [hplaces]
  exact effect_locked hn h heffect

/-! ## Exclusion -/

/-- In every interleaving a writer is alone, the word tells who holds the lock, and no unlock
panics. -/
theorem rw_lock_excludes (hn : n < 2^31) (s : Lock n)
    (h : Reaches (fun ga s t => step ga s = some t) (fun _ _ => True) (newRWSpinLock n) s) :
    (∀ g g', s.places g = .writing → g' ≠ g → s.places g' ≠ .writing ∧ s.places g' ≠ .reading) ∧
      ((∃ g, s.places g = .writing) → s.word = -1) ∧
        ((∀ g, s.places g ≠ .writing) → s.word = readers s.places) ∧ ∀ g, s.places g ≠ .panicked := by
  have hkept : Locked s.word s.places := h.invariant (fun s => Locked s.word s.places) new_locked
    (fun ga t u ht _ hstep => step_locked hn ht hstep)
  rcases hkept.held with ⟨⟨w,hw,honly⟩,hzero,hword⟩ | ⟨hnone,hword⟩
  · refine ⟨fun g g' hg hne => ⟨fun hg' => ?_,readers_zero hzero g'⟩,fun _ => hword,fun hno => ?_,hkept.calm⟩
    · exact hne ((honly g' hg').trans (honly g hg).symm)
    · exact absurd hw (hno w)
  · exact ⟨fun g _ hg => absurd hg (hnone g),fun ⟨g,hg⟩ => absurd hg (hnone g),fun _ => hword,hkept.calm⟩

def overlap : List (Fin 2 × Act) := [(0,.rlock), (0,.advance), (0,.advance), (1,.lock), (1,.advance),
  (0,.runlock), (1,.advance)]

/-- A reader and a writer whose calls overlap. -/
theorem overlapping_calls_exclude : ∃ s : Lock 2,
    Reaches (fun ga s t => step ga s = some t) (fun _ _ => True) (newRWSpinLock 2) s ∧
      s.places 1 = .writing ∧
        ((∀ g g', s.places g = .writing → g' ≠ g → s.places g' ≠ .writing ∧ s.places g' ≠ .reading) ∧
          ((∃ g, s.places g = .writing) → s.word = -1) ∧
            ((∀ g, s.places g ≠ .writing) → s.word = readers s.places) ∧ ∀ g, s.places g ≠ .panicked) := by
  obtain ⟨s,hs,hall⟩ : ∃ s ∈ runAll step overlap (newRWSpinLock 2), s.places 1 = .writing := by
    decide +kernel
  have hreach := reaches_of_runAll step (fun _ _ => True)
    (along_true step overlap (newRWSpinLock 2)) hs
  exact ⟨s,hreach,hall,rw_lock_excludes (by decide) s hreach⟩

end GoCommon.RwSpinLock
