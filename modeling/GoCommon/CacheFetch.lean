import Mathlib.Data.Set.Basic
import Mathlib.Logic.Function.Basic
import GoCommon.StepRuns

/-!
# Fetch over a shared cache and a singleflight group

Calls of Fetch and the goroutines that refresh take their places in one numbered
family. The cache may lose an entry at any moment, a loader may reply with anything,
and a hit may start a refresh at will. Every reply of a loader is kept with the key it
was called for.
-/

set_option autoImplicit false

namespace GoCommon.CacheFetch
open List Function StepRuns

abbrev Key := List UInt8

def negativeSuffix : Key := [58,110,101,103]

def refreshSuffix : Key := [58,114,101,102,114,101,115,104]

inductive Err where
  | errNotFound
  | wrapped (err : Err)
  | other (text : Key)
  deriving DecidableEq

def Err.isNotFound : Err → Bool
  | .errNotFound => true
  | .wrapped err => err.isNotFound
  | .other _ => false

abbrev Outcome (T : Type) := Except Err T

variable {T : Type}

inductive Entry (T : Type) where
  | envelope (value : T)
  | negativeMarker

structure Call (T : Type) where
  key : Key
  refresh : Bool
  result : Option (Outcome T)

def Call.group (call : Call T) : Key := if call.refresh then call.key++refreshSuffix else call.key

structure Shared (T : Type) where
  cache : Key → Option (Entry T)
  group : Key → Option ℕ
  calls : List (Call T)
  log : List (Key × Outcome T)

inductive Place (T : Type) where
  | idle
  | lookup (key : Key)
  | lookupNegative (key : Key)
  | enter (key : Key)
  | recheck (key : Key) (call : ℕ)
  | recheckNegative (key : Key) (call : ℕ)
  | refreshing (key : Key)
  | loading (key : Key) (call : ℕ)
  | storing (key : Key) (call : ℕ) (out : Outcome T)
  | marking (key : Key) (call : ℕ) (err : Err)
  | ending (key : Key) (call : ℕ) (out : Outcome T)
  | waiting (key : Key) (call : ℕ)
  | returned (key : Key) (out : Outcome T)

def getEnvelope (cache : Key → Option (Entry T)) (key : Key) : Option T := match cache key with
  | some (.envelope value) => some value
  | _ => none

def getNegative (cache : Key → Option (Entry T)) (key : Key) : Bool :=
  match cache (key++negativeSuffix) with
  | some .negativeMarker => true
  | _ => false

def start (key : Key) (refresh : Bool) (s : Shared T) : Shared T := { s with
  group := update s.group (Call.group (⟨key,refresh,none⟩ : Call T)) (some s.calls.length)
  calls := s.calls++[⟨key,refresh,none⟩] }

def finish (c : ℕ) (call : Call T) (out : Outcome T) (s : Shared T) : Shared T := { s with
  group := update s.group call.group none
  calls := s.calls.set c { call with result := some out } }

def advance : Place T → Shared T → Option (Place T × Shared T)
  | .lookup key, s => match getEnvelope s.cache key with
    | some value => some (.returned key (.ok value),s)
    | none => some (.lookupNegative key,s)
  | .lookupNegative key, s =>
    if getNegative s.cache key then some (.returned key (.error .errNotFound),s)
    else some (.enter key,s)
  | .enter key, s => match s.group key with
    | some c => some (.waiting key c,s)
    | none => some (.recheck key s.calls.length,start key false s)
  | .recheck key c, s => match getEnvelope s.cache key with
    | some value => some (.ending key c (.ok value),s)
    | none => some (.recheckNegative key c,s)
  | .recheckNegative key c, s =>
    if getNegative s.cache key then some (.ending key c (.error .errNotFound),s)
    else some (.loading key c,s)
  | .refreshing key, s => match s.group (key++refreshSuffix) with
    -- the goroutine waits for the call in flight and drops what it gives
    | some _ => some (.idle,s)
    | none => some (.loading key s.calls.length,start key true s)
  | .storing key c (.ok value), s => some (.ending key c (.ok value),
      { s with cache := update s.cache key (some (.envelope value)) })
  | .storing key c (.error err), s =>
    if err.isNotFound then
      some (.marking key c err,{ s with cache := update s.cache key none })
    else some (.ending key c (.error err),s)
  | .marking key c err, s => some (.ending key c (.error err),
      { s with cache := update s.cache (key++negativeSuffix) (some .negativeMarker) })
  | .ending key c out, s => match s.calls[c]? with
    | some call => some (if call.refresh then .idle else .returned key out,finish c call out s)
    | none => none
  | .waiting key c, s => match s.calls[c]? with
    | some ⟨_,_,some out⟩ => some (.returned key out,s)
    | _ => none
  | .idle, _ => none
  | .loading .., _ => none
  | .returned .., _ => none

structure State (T : Type) where
  shared : Shared T
  places : ℕ → Place T

def new : State T := ⟨⟨fun _ => none,fun _ => none,[],[]⟩,fun _ => .idle⟩

inductive Act (T : Type) where
  | fetch (i : ℕ) (key : Key)
  | advance (i : ℕ)
  | refresh (i j : ℕ)
  | reply (i : ℕ) (out : Outcome T)
  | vanish (key : Key)

def step : Act T → State T → Option (State T)
  | .fetch i key, s => match s.places i with
    | .idle => some { s with places := update s.places i (.lookup key) }
    | _ => none
  | .advance i, s => (advance (s.places i) s.shared).map
      (fun next => ⟨next.2,update s.places i next.1⟩)
  | .refresh i j, s => match s.places i, s.places j with
    | .lookup key, .idle => match getEnvelope s.shared.cache key with
      | some value => some { s with
          places := update (update s.places j (.refreshing key)) i
            (.returned key (.ok value)) }
      | none => none
    | _, _ => none
  | .reply i out, s => match s.places i with
    | .loading key c => some ⟨{ s.shared with log := s.shared.log++[(key,out)] },
        update s.places i (.storing key c out)⟩
    | _ => none
  | .vanish key, s =>
    some { s with shared := { s.shared with cache := update s.shared.cache key none } }

/-! ## What a result rests on -/

def Justified (log : List (Key × Outcome T)) (key : Key) : Outcome T → Prop
  | .ok value => (key,.ok value) ∈ log
  | .error err => err.isNotFound → ∃ err' : Err, err'.isNotFound ∧ (key,.error err') ∈ log

structure Backed (A : Set Key) (s : Shared T) : Prop where
  values : ∀ key value, s.cache key = some (.envelope value) → Justified s.log key (.ok value)
  markers : ∀ key, s.cache (key++negativeSuffix) = some .negativeMarker →
    Justified s.log key (.error .errNotFound)
  group : ∀ key c, s.group key = some c → ∃ call, s.calls[c]? = some call ∧ call.group = key
  calls : ∀ (c : ℕ) call, s.calls[c]? = some call →
    call.key ∈ A ∧ ∀ out ∈ call.result, Justified s.log call.key out

def Runs (s : Shared T) (c : ℕ) (key : Key) : Prop := ∃ call, s.calls[c]? = some call ∧ call.key = key

def PlaceBacked (A : Set Key) (s : Shared T) : Place T → Prop
  | .idle => True
  | .lookup key => key ∈ A
  | .lookupNegative key => key ∈ A
  | .enter key => key ∈ A
  | .refreshing key => key ∈ A
  | .recheck key c => Runs s c key
  | .recheckNegative key c => Runs s c key
  | .loading key c => Runs s c key
  | .storing key c out => Runs s c key ∧ Justified s.log key out
  | .marking key c err => Runs s c key ∧ Justified s.log key (.error err) ∧ err.isNotFound
  | .ending key c out => Runs s c key ∧ Justified s.log key out
  | .waiting key c => key ∈ A ∧ ∃ call, s.calls[c]? = some call ∧ call.group = key
  | .returned key out => Justified s.log key out

structure Extends (s t : Shared T) : Prop where
  log : s.log ⊆ t.log
  calls : ∀ (c : ℕ) call, s.calls[c]? = some call →
    ∃ call', t.calls[c]? = some call' ∧ call'.key = call.key ∧ call'.group = call.group

theorem Extends.rfl {s : Shared T} : Extends s s :=
  ⟨fun _ h => h,fun _ call h => ⟨call,h,by rfl,by rfl⟩⟩

section Steps
variable {A : Set Key} {s t : Shared T}

theorem Justified.mono {log log' : List (Key × Outcome T)} (h : log ⊆ log') {key : Key} {out : Outcome T}
    (hj : Justified log key out) : Justified log' key out := by
  cases out with
  | ok value => exact h hj
  | error err =>
    intro hnf
    obtain ⟨err',hnf',hmem⟩ := hj hnf
    exact ⟨err',hnf',h hmem⟩

theorem Runs.mono (h : Extends s t) {c : ℕ} {key : Key} (hr : Runs s c key) : Runs t c key := by
  obtain ⟨call,hc,hkey⟩ := hr
  obtain ⟨call',hc',hkey',_⟩ := h.calls c call hc
  exact ⟨call',hc',hkey'.trans hkey⟩

theorem PlaceBacked.mono (h : Extends s t) {p : Place T} (hp : PlaceBacked A s p) : PlaceBacked A t p := by
  cases p with
  | idle => trivial
  | lookup key => exact hp
  | lookupNegative key => exact hp
  | enter key => exact hp
  | refreshing key => exact hp
  | recheck key c => exact Runs.mono h hp
  | recheckNegative key c => exact Runs.mono h hp
  | loading key c => exact Runs.mono h hp
  | storing key c out => exact ⟨hp.1.mono h,hp.2.mono h.log⟩
  | marking key c err => exact ⟨hp.1.mono h,hp.2.1.mono h.log,hp.2.2⟩
  | ending key c out => exact ⟨hp.1.mono h,hp.2.mono h.log⟩
  | waiting key c =>
    obtain ⟨hA,call,hc,hgroup⟩ := hp
    obtain ⟨call',hc',_,hgroup'⟩ := h.calls c call hc
    exact ⟨hA,call',hc',hgroup'.trans hgroup⟩
  | returned key out => exact Justified.mono h.log hp

theorem getEnvelope_backed (h : Backed A s) {key : Key} {value : T}
    (hget : getEnvelope s.cache key = some value) : Justified s.log key (.ok value) := by
  refine h.values key value ?_
  rw [getEnvelope] at hget
  split at hget
  · rename_i v hv
    rw [hv, Option.some.inj hget]
  · cases hget

theorem getNegative_backed (h : Backed A s) {key : Key} (hget : getNegative s.cache key) :
    Justified s.log key (.error .errNotFound) := by
  refine h.markers key ?_
  rw [getNegative] at hget
  split at hget
  · rename_i hv
    exact hv
  · cases hget

theorem Backed.recache (h : Backed A s) (key : Key) (entry : Option (Entry T))
    (hvalue : ∀ value, entry = some (.envelope value) → Justified s.log key (.ok value))
    (hmarker : ∀ base, key = base++negativeSuffix → entry = some .negativeMarker →
      Justified s.log base (.error .errNotFound)) :
    Backed A { s with cache := update s.cache key entry } := by
  refine ⟨fun k value hk => ?_,fun k hk => ?_,h.group,h.calls⟩
  · change update s.cache key entry k = _ at hk
    by_cases heq : k = key
    · rw [heq, update_self] at hk
      exact heq ▸ hvalue value hk
    · rw [update_of_ne heq] at hk
      exact h.values k value hk
  change update s.cache key entry (k++negativeSuffix) = _ at hk
  by_cases heq : k++negativeSuffix = key
  · rw [heq, update_self] at hk
    exact hmarker k heq.symm hk
  · rw [update_of_ne heq] at hk
    exact h.markers k hk

theorem start_backed (h : Backed A s) {key : Key} (hA : key ∈ A) (refresh : Bool) :
    Backed A (start key refresh s) ∧ Runs (start key refresh s) s.calls.length key ∧
      Extends s (start key refresh s) := by
  have hnew : (start key refresh s).calls[s.calls.length]? = some ⟨key,refresh,none⟩ :=
    List.getElem?_concat_length
  have hold : ∀ (c : ℕ) call, s.calls[c]? = some call → (start key refresh s).calls[c]? = some call :=
    fun c call hc => (List.getElem?_append_left (List.getElem?_eq_some_iff.mp hc).1).trans hc
  refine ⟨⟨h.values,h.markers,fun k c hk => ?_,fun c call hc => ?_⟩,⟨_,hnew,rfl⟩,
    ⟨fun _ hmem => hmem,fun c call hc => ⟨call,hold c call hc,rfl,rfl⟩⟩⟩
  · change update s.group (Call.group ⟨key,refresh,none⟩) (some s.calls.length) k = _ at hk
    rw [update_apply] at hk
    split at hk
    · rename_i heq
      rw [← Option.some.inj hk]
      exact ⟨_,hnew,heq.symm⟩
    · obtain ⟨call,hc,hgroup⟩ := h.group k c hk
      exact ⟨call,hold c call hc,hgroup⟩
  rcases lt_or_ge c s.calls.length with hlt | hge
  · exact h.calls c call ((List.getElem?_append_left hlt).symm.trans hc)
  have hc' : [(⟨key,refresh,none⟩ : Call T)][c-s.calls.length]? = some call :=
    (List.getElem?_append_right hge).symm.trans hc
  obtain rfl := mem_singleton.mp (mem_of_getElem? hc')
  exact ⟨hA,nofun⟩

theorem finish_backed (h : Backed A s) {c : ℕ} {call : Call T} {out : Outcome T}
    (hc : s.calls[c]? = some call) (hout : Justified s.log call.key out) :
    Backed A (finish c call out s) ∧ Extends s (finish c call out s) := by
  have hlt := (List.getElem?_eq_some_iff.mp hc).1
  have hnew : (finish c call out s).calls[c]? = some { call with result := some out } :=
    List.getElem?_set_self hlt
  have hold : ∀ c', c' ≠ c → (finish c call out s).calls[c']? = s.calls[c']? :=
    fun c' hne => List.getElem?_set_ne (Ne.symm hne)
  have hext : Extends s (finish c call out s) := by
    refine ⟨fun _ hmem => hmem,fun c' call' hc' => ?_⟩
    by_cases heq : c' = c
    · subst heq
      obtain rfl := Option.some.inj (hc.symm.trans hc')
      exact ⟨_,hnew,rfl,rfl⟩
    · exact ⟨call',(hold c' heq).trans hc',rfl,rfl⟩
  refine ⟨⟨h.values,h.markers,fun k c' hk => ?_,fun c' call' hc' => ?_⟩,hext⟩
  · change update s.group call.group none k = _ at hk
    rw [update_apply] at hk
    split at hk
    · cases hk
    · obtain ⟨call',hc',hgroup⟩ := h.group k c' hk
      obtain ⟨call'',hc'',_,hgroup'⟩ := hext.calls c' call' hc'
      exact ⟨call'',hc'',hgroup'.trans hgroup⟩
  by_cases heq : c' = c
  · rw [heq, hnew, Option.some.injEq] at hc'
    subst hc'
    refine ⟨(h.calls c call hc).1,fun out' hout' => ?_⟩
    rw [← Option.some.inj hout']
    exact hout
  · exact h.calls c' call' ((hold c' heq).symm.trans hc')

def Apart (A : Set Key) : Prop := ∀ key ∈ A, key++refreshSuffix ∉ A

theorem Apart.group_eq (hA : Apart A) {call : Call T} (hcall : call.key ∈ A) (hgroup : call.group ∈ A) :
    call.group = call.key := by
  rw [Call.group] at hgroup ⊢
  split at hgroup
  · exact absurd hgroup (hA call.key hcall)
  · rename_i hfore
    rw [if_neg hfore]

theorem advance_backed (hA : Apart A) (h : Backed A s) {p q : Place T} (hp : PlaceBacked A s p)
    (hstep : advance p s = some (q,t)) : Backed A t ∧ PlaceBacked A t q ∧ Extends s t := by
  cases p with
  | idle => cases hstep
  | loading key c => cases hstep
  | returned key out => cases hstep
  | lookup key =>
    rw [advance] at hstep
    split at hstep
    · rename_i value hget
      cases hstep
      exact ⟨h,getEnvelope_backed h hget,.rfl⟩
    · cases hstep
      exact ⟨h,hp,.rfl⟩
  | lookupNegative key =>
    rw [advance] at hstep
    split at hstep
    · rename_i hget
      cases hstep
      exact ⟨h,getNegative_backed h hget,.rfl⟩
    · cases hstep
      exact ⟨h,hp,.rfl⟩
  | enter key =>
    rw [advance] at hstep
    split at hstep
    · rename_i c hc
      cases hstep
      exact ⟨h,⟨hp,h.group key c hc⟩,.rfl⟩
    · cases hstep
      exact start_backed h hp false
  | recheck key c =>
    rw [advance] at hstep
    split at hstep
    · rename_i value hget
      cases hstep
      exact ⟨h,⟨hp,getEnvelope_backed h hget⟩,.rfl⟩
    · cases hstep
      exact ⟨h,hp,.rfl⟩
  | recheckNegative key c =>
    rw [advance] at hstep
    split at hstep
    · rename_i hget
      cases hstep
      exact ⟨h,⟨hp,getNegative_backed h hget⟩,.rfl⟩
    · cases hstep
      exact ⟨h,hp,.rfl⟩
  | refreshing key =>
    rw [advance] at hstep
    split at hstep
    · cases hstep
      exact ⟨h,trivial,.rfl⟩
    · cases hstep
      exact start_backed h hp true
  | storing key c out =>
    cases out with
    | ok value =>
      cases hstep
      refine ⟨h.recache key _ (fun v hv => ?_) (fun _ _ hno => by cases hno),hp,⟨fun _ hm => hm,Extends.rfl.calls⟩⟩
      obtain rfl := Entry.envelope.inj (Option.some.inj hv)
      exact hp.2
    | error err =>
      rw [advance] at hstep
      split at hstep
      · rename_i hnf
        cases hstep
        exact ⟨h.recache key none nofun nofun,⟨hp.1,hp.2,hnf⟩,⟨fun _ hm => hm,Extends.rfl.calls⟩⟩
      · cases hstep
        exact ⟨h,hp,.rfl⟩
  | marking key c err =>
    cases hstep
    refine ⟨h.recache _ _ (fun _ hno => by cases hno) (fun base heq _ _ => ?_),⟨hp.1,hp.2.1⟩,
      ⟨fun _ hm => hm,Extends.rfl.calls⟩⟩
    rw [← append_cancel_right heq]
    exact hp.2.1 hp.2.2
  | ending key c out =>
    obtain ⟨⟨call,hc,hkey⟩,hout⟩ := hp
    rw [advance, hc] at hstep
    cases hstep
    obtain ⟨hsound,hext⟩ := finish_backed h hc (hkey ▸ hout)
    refine ⟨hsound,?_,hext⟩
    split
    · trivial
    · exact hout.mono hext.log
  | waiting key c =>
    obtain ⟨hkey,call,hc,hgroup⟩ := hp
    obtain ⟨hcall,hres⟩ := h.calls c call hc
    rw [advance, hc] at hstep
    split at hstep
    · rename_i k r out heq
      cases hstep
      -- a refresh of another key would be known under a key that is not one of these
      have hsame := hA.group_eq hcall (hgroup ▸ hkey)
      refine ⟨h,?_,.rfl⟩
      rw [← hgroup, hsame]
      obtain rfl := Option.some.inj heq
      exact hres out rfl
    · cases hstep

structure Safe (A : Set Key) (s : State T) : Prop where
  shared : Backed A s.shared
  places : ∀ i, PlaceBacked A s.shared (s.places i)

theorem new_safe : Safe A (new : State T) := by
  refine ⟨⟨nofun,nofun,nofun,fun c call hc => ?_⟩,fun _ => trivial⟩
  exact absurd (mem_of_getElem? hc) not_mem_nil

theorem Safe.move {s : State T} (h : Safe A s) (i : ℕ) {p : Place T} (hs : Backed A t)
    (hp : PlaceBacked A t p) (hext : Extends s.shared t) : Safe A ⟨t,update s.places i p⟩ := by
  refine ⟨hs,fun j => ?_⟩
  change PlaceBacked A t (update s.places i p j)
  by_cases hj : j = i
  · rw [hj, update_self]
    exact hp
  · rw [update_of_ne hj]
    exact (h.places j).mono hext

theorem reply_backed (h : Backed A s) (key : Key) (out : Outcome T) :
    Backed A { s with log := s.log++[(key,out)] } ∧ Extends s { s with log := s.log++[(key,out)] } ∧
      Justified (s.log++[(key,out)]) key out := by
  have hsub : s.log ⊆ s.log++[(key,out)] := subset_append_left ..
  refine ⟨⟨fun k v hk => (h.values k v hk).mono hsub,fun k hk => (h.markers k hk).mono hsub,h.group,
    fun c call hc => ⟨(h.calls c call hc).1,fun o ho => ((h.calls c call hc).2 o ho).mono hsub⟩⟩,
      ⟨hsub,Extends.rfl.calls⟩,?_⟩
  have hmem : (key,out) ∈ s.log++[(key,out)] := mem_append_right _ (mem_singleton_self _)
  cases out with
  | ok value => exact hmem
  | error err => exact fun hnf => ⟨err,hnf,hmem⟩

def Uses (A : Set Key) : Act T → State T → Prop
  | .fetch _ key, _ => key ∈ A
  | _, _ => True

theorem step_safe (hA : Apart A) {act : Act T} {s s' : State T} (h : Safe A s) (huse : Uses A act s)
    (hstep : step act s = some s') : Safe A s' := by
  cases act with
  | fetch i key =>
    rw [step] at hstep
    split at hstep
    · cases hstep
      exact h.move i h.shared huse .rfl
    · cases hstep
  | advance i =>
    obtain ⟨⟨q,t⟩,hadv,rfl⟩ := Option.map_eq_some_iff.mp hstep
    obtain ⟨hs,hq,hext⟩ := advance_backed hA h.shared (h.places i) hadv
    exact h.move i hs hq hext
  | refresh i j =>
    rw [step] at hstep
    split at hstep
    · rename_i key hi hj
      split at hstep
      · rename_i value hget
        cases hstep
        have hkey : PlaceBacked A s.shared (.lookup key) := hi ▸ h.places i
        have hspawn : Safe A ⟨s.shared,update s.places j (.refreshing key)⟩ :=
          h.move j h.shared hkey .rfl
        exact hspawn.move i h.shared (getEnvelope_backed h.shared hget) .rfl
      · cases hstep
    · cases hstep
  | reply i out =>
    rw [step] at hstep
    split at hstep
    · rename_i key c hi
      cases hstep
      obtain ⟨hs,hext,hout⟩ := reply_backed h.shared key out
      have hrun : PlaceBacked A s.shared (.loading key c) := hi ▸ h.places i
      exact h.move i hs ⟨hrun.mono hext,hout⟩ hext
    · cases hstep
  | vanish key =>
    cases hstep
    refine ⟨h.shared.recache key none nofun nofun,fun i => ?_⟩
    exact (h.places i).mono ⟨fun _ hm => hm,Extends.rfl.calls⟩

end Steps

/-! ## Two keys that meet -/

def missing (i : ℕ) (key : Key) : List (Act T) :=
  [.fetch i key, .advance i, .advance i, .advance i, .advance i, .advance i]

def joining (i : ℕ) (key : Key) : List (Act T) := [.fetch i key, .advance i, .advance i, .advance i]

def storing (i : ℕ) (value : T) : List (Act T) := [.reply i (.ok value), .advance i]

def refreshing (i j : ℕ) (key : Key) : List (Act T) := [.fetch i key, .refresh i j, .advance j]

theorem missing_loads (s : State T) (i : ℕ) (key : Key) (hidle : s.places i = .idle)
    (hget : getEnvelope s.shared.cache key = none) (hneg : getNegative s.shared.cache key = false)
    (hgroup : s.shared.group key = none) : runAll step (missing i key) s =
      some ⟨start key false s.shared,update s.places i (.loading key s.shared.calls.length)⟩ := by
  simp [runAll, missing, step, advance, start, hidle, hget, hneg, hgroup]

theorem joining_waits (s : State T) (i c : ℕ) (key : Key) (hidle : s.places i = .idle)
    (hget : getEnvelope s.shared.cache key = none) (hneg : getNegative s.shared.cache key = false)
    (hgroup : s.shared.group key = some c) : runAll step (joining i key) s =
      some ⟨s.shared,update s.places i (.waiting key c)⟩ := by
  simp [runAll, joining, step, advance, hidle, hget, hneg, hgroup]

theorem storing_ends (s : State T) (i c : ℕ) (key : Key) (value : T) (hloading : s.places i = .loading key c) :
    runAll step (storing i value) s = some ⟨{ s.shared with
      log := s.shared.log++[(key,.ok value)]
      cache := update s.shared.cache key (some (.envelope value)) },
        update s.places i (.ending key c (.ok value))⟩ := by
  simp [runAll, storing, step, advance, hloading]

theorem refreshing_loads (s : State T) (i j : ℕ) (key : Key) (value : T) (hij : i ≠ j)
    (hi : s.places i = .idle) (hj : s.places j = .idle) (hget : getEnvelope s.shared.cache key = some value)
    (hgroup : s.shared.group (key++refreshSuffix) = none) :
    ∃ places, runAll step (refreshing i j key) s = some ⟨start key true s.shared,places⟩ ∧
      places j = .loading key s.shared.calls.length ∧ ∀ k, k ≠ i → k ≠ j → places k = s.places k := by
  refine ⟨update (update (update (update s.places i (.lookup key)) j
    (.refreshing key)) i (.returned key (.ok value))) j (.loading key s.shared.calls.length),?_,?_,?_⟩
  · simp [runAll, refreshing, step, advance, hij.symm, hi, hj, hget, hgroup]
  · exact update_self ..
  · intro k hki hkj
    simp [hki, hkj]

def clash (key : Key) (value : T) : List (Act T) :=
  missing 0 key++(storing 0 value++(refreshing 1 2 key++(joining 3 (key++refreshSuffix)++
    (storing 2 value++[.advance 2, .advance 3]))))

theorem clash_returns (key : Key) (value : T) : ∃ s, runAll step (clash key value) new = some s ∧
    s.places 3 = .returned (key++refreshSuffix) (.ok value) ∧
      s.shared.log = [(key,.ok value), (key,.ok value)] := by
  have hne : key++refreshSuffix ≠ key := fun h => by
    have := congrArg List.length h
    simp [refreshSuffix] at this
  let loaded : Shared T := { start key false new.shared with
    log := [(key,.ok value)]
    cache := update (fun _ => none) key (some (.envelope value)) }
  have hget : getEnvelope loaded.cache key = some value := by simp [loaded, getEnvelope]
  have hapart : loaded.group (key++refreshSuffix) = none := by simp [loaded, start, new, Call.group, hne]
  obtain ⟨places,hrefresh,h2,hothers⟩ := refreshing_loads
    ⟨loaded,update (update new.places 0 (.loading key 0)) 0 (.ending key 0 (.ok value))⟩
    1 2 key value (by decide) rfl rfl hget hapart
  have hmiss : getEnvelope (start key true loaded).cache (key++refreshSuffix) = none := by
    simp [loaded, start, getEnvelope, hne]
  have hneg : getNegative (start key true loaded).cache (key++refreshSuffix) = false := by
    simp only [loaded, start, getNegative, update_apply]
    split_ifs <;> rfl
  have hflight : (start key true loaded).group (key++refreshSuffix) = some 1 := by
    simp [loaded, start, new, Call.group]
  have hwait := joining_waits ⟨start key true loaded,places⟩ 3 1 (key++refreshSuffix)
    (hothers 3 (by decide) (by decide)) hmiss hneg hflight
  have hloading : update places 3 (.waiting (key++refreshSuffix) 1) 2 = .loading key 1 :=
    (update_of_ne (by decide) ..).trans h2
  have hstore := storing_ends ⟨start key true loaded,update places 3 (.waiting (key++refreshSuffix) 1)⟩
    2 1 key value hloading
  have hrun : runAll step (clash key value) new = (runAll step (storing 2 value) ⟨start key true loaded,
      update places 3 (.waiting (key++refreshSuffix) 1)⟩).bind
        (runAll step [.advance 2, .advance 3]) := by
    rw [clash, runAll_append, missing_loads new 0 key rfl rfl rfl rfl, Option.bind_some, runAll_append,
      storing_ends _ 0 0 key value rfl, Option.bind_some, runAll_append]
    change (runAll step (refreshing 1 2 key) ⟨loaded,update (update new.places 0
      (.loading key 0)) 0 (.ending key 0 (.ok value))⟩).bind _ = _
    rw [hrefresh, Option.bind_some, runAll_append, hwait, Option.bind_some, runAll_append]
  rw [hrun, hstore]
  exact ⟨_,rfl,by simp,rfl⟩

theorem clash_uses {A : Set Key} {key : Key} (value : T) (hkey : key ∈ A) (hclash : key++refreshSuffix ∈ A) :
    Along step (Uses A) (clash key value) new := by
  have hall : ∀ acts : List (Act T), (∀ act ∈ acts, ∀ s, Uses A act s) → ∀ s, Along step (Uses A) acts s := by
    intro acts hacts
    induction acts with
    | nil => exact fun _ => trivial
    | cons act acts ih =>
      exact fun s => ⟨hacts act mem_cons_self s,
        fun t _ => ih (fun a ha => hacts a (mem_cons_of_mem _ ha)) t⟩
  refine hall _ (fun act hact s => ?_) new
  revert act
  simp [clash, missing, storing, refreshing, joining, Uses, hkey, hclash]

/-- What Fetch returns for a key rests on a loader of that key, whatever the interleaving, exactly
when no two keys in use differ by the suffix of the refreshes. -/
theorem fetch_apart_iff (A : Set Key) (zero : T) :
    (∀ s : State T, Reaches (fun act s t => step act s = some t) (Uses A) new s →
      ∀ i key out, s.places i = .returned key out → Justified s.shared.log key out) ↔ Apart A := by
  constructor
  · intro hsafe key hkey hclash
    obtain ⟨s,hs,hplace,hlog⟩ := clash_returns key zero
    have hreach := reaches_of_runAll step (Uses A) (clash_uses zero hkey hclash) hs
    have hmem : (key++refreshSuffix,Except.ok zero) ∈ s.shared.log := hsafe s hreach 3 _ _ hplace
    have hlen : (key++refreshSuffix).length = key.length := by
      rw [hlog] at hmem
      simp only [mem_cons, not_mem_nil, or_false, or_self, Prod.mk.injEq] at hmem
      rw [hmem.1]
    simp [refreshSuffix] at hlen
  intro hA s hreach i key out hplace
  have hkept : Safe A s := hreach.invariant (Safe A) new_safe
    (fun act t u ht huse hstep => step_safe hA ht huse hstep)
  have hp := hkept.places i
  rw [hplace] at hp
  exact hp

/-- The keys `a` and `a:refresh`: the second gets the value that was loaded for the first. -/
theorem refresh_reaches_other_key : ∃ s : State ℕ,
    Reaches (fun act s t => step act s = some t) (Uses {[97], [97]++refreshSuffix}) new s ∧
      s.places 3 = .returned ([97]++refreshSuffix) (.ok 7) ∧
        s.shared.log = [([97],.ok 7), ([97],.ok 7)] ∧
          ¬Justified s.shared.log ([97]++refreshSuffix) (.ok 7) := by
  obtain ⟨s,hs,hplace,hlog⟩ := clash_returns [97] 7
  refine ⟨s,?_,hplace,hlog,?_⟩
  · exact reaches_of_runAll step _
      (clash_uses 7 (Set.mem_insert ..) (Set.mem_insert_of_mem _ rfl)) hs
  · rw [hlog]
    simp [Justified, refreshSuffix]

end GoCommon.CacheFetch
