import Mathlib.Tactic

/-!
# Runs of a labelled transition system

A run is a chain of steps each of which meets a condition in the state it
starts from. What holds at the start and survives every such step holds in
every state that is reached.
-/

set_option autoImplicit false

namespace GoCommon.StepRuns

variable {σ ι : Type}

inductive Reaches (step : ι → σ → σ → Prop) (good : ι → σ → Prop) (s : σ) : σ → Prop where
  | start : Reaches step good s s
  | next (i : ι) (t u : σ) : Reaches step good s t → good i t → step i t u → Reaches step good s u

theorem Reaches.invariant {step : ι → σ → σ → Prop} {good : ι → σ → Prop} {s t : σ}
    (h : Reaches step good s t) (I : σ → Prop) (h0 : I s)
    (hs : ∀ i t u, I t → good i t → step i t u → I u) : I t := by
  induction h with
  | start => exact h0
  | next i t u _ hg hst ih => exact hs i t u ih hg hst

theorem Reaches.weaken {step : ι → σ → σ → Prop} {good good' : ι → σ → Prop} {s t : σ}
    (h : Reaches step good s t) (hg : ∀ i s, good i s → good' i s) : Reaches step good' s t := by
  induction h with
  | start => exact .start
  | next i t u _ hi hst ih => exact ih.next i t u (hg i t hi) hst

/-! ## Runs of a step function -/

section Functions
variable (f : ι → σ → Option σ) (good : ι → σ → Prop)

def runAll : List ι → σ → Option σ
  | [], s => some s
  | i::is, s => (f i s).bind (runAll is)

theorem runAll_append (is js : List ι) (s : σ) :
    runAll f (is++js) s = (runAll f is s).bind (runAll f js) := by
  induction is generalizing s with
  | nil => rfl
  | cons i is ih =>
    rw [List.cons_append, runAll, runAll, Option.bind_assoc]
    exact congrArg _ (funext ih)

def Along : List ι → σ → Prop
  | [], _ => True
  | i::is, s => good i s ∧ ∀ t ∈ f i s, Along is t

instance decidableAlong [∀ i s, Decidable (good i s)] :
    ∀ (is : List ι) (s : σ), Decidable (Along f good is s)
  | [], _ => isTrue trivial
  | i::is, s => match h : f i s with
    | none => decidable_of_iff (good i s) (by simp [Along, h])
    | some t =>
      have := decidableAlong is t
      decidable_of_iff (good i s ∧ Along f good is t) (by simp [Along, h])

theorem along_true (is : List ι) (s : σ) : Along f (fun _ _ => True) is s := by
  induction is generalizing s with
  | nil => trivial
  | cons i is ih => exact ⟨trivial,fun t _ => ih t⟩

theorem reaches_of_runAll {s t : σ} {is : List ι} (hg : Along f good is s)
    (hr : runAll f is s = some t) : Reaches (fun i s t => f i s = some t) good s t := by
  have hall : ∀ (is : List ι) (u : σ), Reaches (fun i s t => f i s = some t) good s u →
      Along f good is u → runAll f is u = some t →
      Reaches (fun i s t => f i s = some t) good s t := by
    intro is
    induction is with
    | nil =>
      intro u hu _ hr
      cases hr
      exact hu
    | cons i is ih =>
      intro u hu hg hr
      obtain ⟨v,hv,hrv⟩ := Option.bind_eq_some_iff.mp hr
      exact ih v (hu.next i u v hg.1 hv) (hg.2 v hv) hrv
  exact hall is s .start hg hr

theorem computed {α : Type} {o : Option α} {P : α → Prop} (h : ∃ a ∈ o, P a) :
    ∃ a, o = some a ∧ P a := h

/-! ## Histories -/

def recorded (i : ι) : List σ → Option (List σ)
  | [] => none
  | s::past => (f i s).map (fun t => t::s::past)

def onLatest (i : ι) : List σ → Prop
  | [] => True
  | s::_ => good i s

instance [∀ i s, Decidable (good i s)] (i : ι) : ∀ hist, Decidable (onLatest good i hist)
  | [] => isTrue trivial
  | s::_ => inferInstanceAs (Decidable (good i s))

theorem recorded_some {i : ι} {hist next : List σ} (h : recorded f i hist = some next) :
    ∃ s past t, hist = s::past ∧ f i s = some t ∧ next = t::s::past := by
  cases hist with
  | nil => cases h
  | cons s past =>
    obtain ⟨t,ht,rfl⟩ := Option.map_eq_some_iff.mp h
    exact ⟨s,past,t,rfl,ht,rfl⟩

end Functions

/-! ## Replies -/

section Replies
variable {τ ρ : Type}

def runReplies (f : ι → σ → Option (σ × ρ)) : List ι → σ → Option (σ × List ρ)
  | [], s => some (s,[])
  | i::is, s => (f i s).bind (fun (t,r) => (runReplies f is t).map (fun (u,rs) => (u,r::rs)))

/-- A system whose steps follow those of another, with the same replies, follows its runs. -/
theorem runReplies_follows {f : ι → σ → Option (σ × ρ)} {g : ι → τ → Option (τ × ρ)} {R : σ → τ → Prop}
    (hstep : ∀ i s t t' r, R s t → g i t = some (t',r) → ∃ s', f i s = some (s',r) ∧ R s' t')
    (is : List ι) (s : σ) (t t' : τ) (rs : List ρ) (h : R s t) (hrun : runReplies g is t = some (t',rs)) :
    ∃ s', runReplies f is s = some (s',rs) ∧ R s' t' := by
  induction is generalizing s t rs with
  | nil =>
    cases hrun
    exact ⟨s,rfl,h⟩
  | cons i is ih =>
    obtain ⟨⟨u,r⟩,hg,hrest⟩ := Option.bind_eq_some_iff.mp hrun
    obtain ⟨⟨v,rs'⟩,hrun',heq⟩ := Option.map_eq_some_iff.mp hrest
    cases heq
    obtain ⟨s',hf,hs'⟩ := hstep i s t u r h hg
    obtain ⟨s'',hruns,hs''⟩ := ih s' u rs' hs' hrun'
    refine ⟨s'',?_,hs''⟩
    simp only [runReplies, hf, Option.bind_some, hruns, Option.map_some]

end Replies

end GoCommon.StepRuns
