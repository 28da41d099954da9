import GoCommon.MpmcDelivery

/-!
# Calls of the queue that return false

A consumer that finds the slot of the tail without an item reports an empty
queue, although the producer of that slot may have won it and stopped, and
producers of later slots may have returned. In the same way a producer reports a
full queue when the consumer of its slot has stopped and consumers of later slots
have returned. In the runs without such an overtaking the reports are true.
-/

set_option autoImplicit false

namespace GoCommon.MpmcOutcomes
open List Mpmc MpmcDelivery StepRuns

variable {α : Type}

def Fails (s : State α) (τ : ℕ) (c : Call α) : Prop :=
  ∃ pos, s.pcs τ = .check c pos ∧ s.position c.side = pos

def During (τ : ℕ) (hist : List (State α)) (s : State α) : Prop :=
  s ∈ hist.takeWhile (fun s => !(s.pcs τ).isIdle)

def AllTaken (s : State α) : Prop := ∀ p ∈ s.stored, p ∈ s.deqWon

def Full (s : State α) : Prop :=
  ((s.enqWon.map Prod.fst).filter (fun p => p ∉ s.returned.map Prod.fst)).length = s.capacity

instance (s : State α) : Decidable (AllTaken s) := inferInstanceAs (Decidable (∀ p ∈ _, _))

instance (s : State α) : Decidable (Full s) := inferInstanceAs (Decidable (_ = _))

/-- When a call loads the turn of a slot, the goroutine that is still in the slot has not been
overtaken on its side: no call of a later position has returned. -/
def NotOvertaken : Step α → State α → Prop
  | .call _ _, _ => True
  | .advance τ, s => match s.pcs τ with
    | .turn .dequeue pos => (∃ τ', owned (s.pcs τ') = some (.enqueue,pos)) → ∀ p ∈ s.stored, p ≤ pos
    | .turn (.enqueue _) pos => (∃ τ', owned (s.pcs τ') = some (.dequeue,pos-s.capacity)) →
        ∀ p ∈ s.returned.map Prod.fst, p ≤ pos-s.capacity
    | _ => True

variable {s : State α} {i : Step α}

theorem allTaken_of_turn (h : Inv s) (hturn : (cell s s.tail).turn ≠ due s .dequeue s.tail)
    (hgood : (∃ τ', owned (s.pcs τ') = some (.enqueue,s.tail)) → ∀ p ∈ s.stored, p ≤ s.tail) :
    AllTaken s := by
  obtain ⟨hs,ht⟩ := h
  have hle := hs.next_turn .dequeue
  change (cell s s.tail).turn ≤ due s .dequeue s.tail at hle
  have hidle : ¬due s .enqueue s.tail < (cell s s.tail).turn := by
    simp only [due, Side.bit] at hle hturn ⊢
    omega
  intro p hp
  rw [show s.deqWon = _ from hs.wins .dequeue, mem_reverse, mem_range]
  change p < s.tail
  by_contra hge
  have hstored := (hs.done .enqueue p).mp hp
  have hne : p ≠ s.tail := by
    rintro rfl
    exact hidle hstored
  have hlt : s.tail < s.head := by
    have : p < s.head := hs.high .enqueue p hstored
    omega
  have hlow := hs.low .enqueue s.tail hlt
  obtain ⟨τ',hτ⟩ := ht.held .enqueue s.tail ⟨hlt,by omega⟩
  have := hgood ⟨τ',hτ⟩ p hp
  omega

theorem filter_last {h c : ℕ} (hc : c ≤ h) (P : ℕ → Prop) [DecidablePred P]
    (hlow : ∀ p, p+c < h → ¬P p) (hhigh : ∀ p, p < h → h ≤ p+c → P p) :
    ((List.range h).filter (fun p => P p)).length = c := by
  have hsplit : h = h-c+c := by omega
  have hfirst : (List.range (h-c)).filter (fun p => P p) = [] := by
    rw [filter_eq_nil_iff]
    intro p hp
    rw [mem_range] at hp
    simpa using hlow p (by omega)
  have hlast : ((List.range c).map (h-c+·)).filter (fun p => P p) = (List.range c).map (h-c+·) := by
    rw [filter_eq_self]
    intro p hp
    obtain ⟨i,hi,rfl⟩ := mem_map.mp hp
    rw [mem_range] at hi
    simpa using hhigh (h-c+i) (by omega) (by omega)
  rw [hsplit, range_add, filter_append, hfirst, hlast, nil_append, length_map,
    length_range]

theorem full_of_turn (h : Inv s) (hturn : (cell s s.head).turn ≠ due s .enqueue s.head)
    (hgood : (∃ τ', owned (s.pcs τ') = some (.dequeue,s.head-s.capacity)) →
      ∀ p ∈ s.returned.map Prod.fst, p ≤ s.head-s.capacity) : Full s := by
  obtain ⟨hs,ht⟩ := h
  have hc := hs.shape.pos
  have hle := hs.next_turn .enqueue
  change (cell s s.head).turn ≤ due s .enqueue s.head at hle
  have hlap : 0 < s.head/s.capacity := by
    simp only [due, Side.bit] at hle hturn
    omega
  have hcap : s.capacity ≤ s.head := (Nat.div_pos_iff.mp hlap).2
  -- the slot of the head one lap before
  have hmod : (s.head-s.capacity)%s.capacity = s.head%s.capacity := (Nat.mod_eq_sub_mod hcap).symm
  have hdiv : (s.head-s.capacity)/s.capacity+1 = s.head/s.capacity :=
    (Nat.div_eq_sub_div hc hcap).symm
  have hprev : (cell s (s.head-s.capacity)).turn ≤ due s .dequeue (s.head-s.capacity) := by
    rw [cell, hmod, ← cell]
    simp only [due, Side.bit] at hle hturn ⊢
    omega
  have hunreturned : ∀ p, s.head ≤ p+s.capacity → p ∉ s.returned.map Prod.fst := by
    intro p hp hmem
    have hdone := (hs.done .dequeue p).mp hmem
    have hlt : p < s.tail := hs.high .dequeue p hdone
    have hne : p ≠ s.head-s.capacity := by
      rintro rfl
      omega
    have howned : s.head-s.capacity < s.tail := by omega
    have hlow := hs.low .dequeue (s.head-s.capacity) howned
    obtain ⟨τ',hτ⟩ := ht.held .dequeue (s.head-s.capacity) ⟨howned,by omega⟩
    have := hgood ⟨τ',hτ⟩ p hmem
    omega
  have hreturned : ∀ p, p+s.capacity < s.head → p ∈ s.returned.map Prod.fst := by
    intro p hp
    have hlow := hs.low .enqueue (p+s.capacity) hp
    rw [cell, Nat.add_mod_right, ← cell] at hlow
    refine (hs.done .dequeue p).mpr ?_
    simp only [due, Side.bit, Nat.add_div_right _ hc] at hlow ⊢
    omega
  rw [Full, show s.enqWon.map Prod.fst = _ from hs.wins .enqueue, filter_reverse, length_reverse]
  exact filter_last hcap (fun p => p ∉ s.returned.map Prod.fst)
    (fun p hp hno => hno (hreturned p hp)) (fun p _ hp => hunreturned p hp)

def Reported (s : State α) : Call α → Prop
  | .enqueue _ => Full s
  | .dequeue => AllTaken s

def Truthful (hist : List (State α)) : Prop := ∀ s past, hist = s::past → ∀ τ c, Fails s τ c →
  ∃ m, During τ hist m ∧ Reported m c

theorem during_cons {τ : ℕ} {t : State α} (s : State α) (past : List (State α)) (h : (t.pcs τ).isIdle = false) :
    During τ (t::s::past) t ∧ ∀ m, During τ (s::past) m → During τ (t::s::past) m := by
  have hcons : (t::s::past).takeWhile (fun s => !(s.pcs τ).isIdle) =
      t::(s::past).takeWhile (fun s => !(s.pcs τ).isIdle) := by
    rw [takeWhile_cons, h]
    rfl
  refine ⟨?_,fun m hm => ?_⟩
  · rw [During, hcons]
    exact mem_cons_self ..
  · rw [During, hcons]
    exact mem_cons_of_mem _ hm

/-! ## The steps -/

def actor : Step α → ℕ
  | .call τ _ => τ
  | .advance τ => τ

theorem goto_pcs (s : State α) (τ τ' : ℕ) {pc : Pc α} :
    (s.goto τ pc).pcs τ' = if τ' = τ then pc else s.pcs τ' := Function.update_apply ..

theorem advance_frame {zero : α} {τ : ℕ} {s t : State α} (ht : advance zero τ s = some t) :
    (∀ τ', τ' ≠ τ → t.pcs τ' = s.pcs τ') ∧ ∀ side, s.position side ≤ t.position side := by
  have hgoto : ∀ (u : State α) (pc : Pc α), u.pcs = s.pcs → (∀ side, s.position side ≤ u.position side) →
      (∀ τ', τ' ≠ τ → (u.goto τ pc).pcs τ' = s.pcs τ') ∧
        ∀ side, s.position side ≤ (u.goto τ pc).position side := by
    intro u pc hpcs hpos
    refine ⟨fun τ' hne => ?_,fun side => ?_⟩
    · rw [goto_pcs, if_neg hne, hpcs]
    · cases side <;> exact hpos _
  have hsame := fun pc => hgoto s pc rfl (fun _ => le_rfl)
  rw [advance] at ht
  split at ht
  · cases ht
  · cases ht
    exact hsame _
  · split at ht <;> cases ht <;> exact hsame _
  · rename_i c pos _
    split at ht <;> cases ht
    · rename_i hpos
      refine hgoto _ _ (by cases c <;> rfl) (fun side => ?_)
      rw [win_position side hpos]
      split
      · rename_i hside
        rw [hside]
        omega
      · exact le_rfl
    · exact hsame _
  · split at ht <;> cases ht <;> exact hsame _
  · cases ht
    exact hgoto _ _ rfl (fun side => by cases side <;> exact le_rfl)
  · cases ht
    exact hsame _
  · cases ht
    exact hgoto _ _ rfl (fun side => by cases side <;> exact le_rfl)
  · rename_i c pos data _
    cases ht
    exact hgoto _ _ (by cases c <;> rfl) (fun side => by cases c <;> cases side <;> exact le_rfl)

theorem step_frame {zero : α} {s t : State α} (ht : step zero i s = some t) :
    (∀ τ, τ ≠ actor i → t.pcs τ = s.pcs τ) ∧ ∀ side, s.position side ≤ t.position side := by
  cases i with
  | advance τ => exact advance_frame ht
  | call τ c =>
    rw [step] at ht
    split at ht
    · cases ht
      refine ⟨fun τ' hne => ?_,fun side => ?_⟩
      · exact (goto_pcs s τ τ').trans (if_neg hne)
      · cases side <;> exact le_rfl
    · cases ht

theorem step_check {zero : α} {s t : State α} {c : Call α} {pos : ℕ}
    (ht : step zero i s = some t) (hpc : t.pcs (actor i) = .check c pos) :
    i = .advance (actor i) ∧ s.pcs (actor i) = .turn c pos ∧ t = s.goto (actor i) (.check c pos) ∧
      (s.slots (s.idx pos)).turn ≠ s.expectedTurn c.side pos := by
  have hmine : ∀ (u : State α) (pc : Pc α), some (u.goto (actor i) pc) = some t → pc = .check c pos := by
    intro u pc heq
    cases heq
    rw [goto_pcs, if_pos rfl] at hpc
    exact hpc
  cases i with
  | call τ c' =>
    rw [step] at ht
    split at ht
    · cases hmine _ _ ht
    · cases ht
  | advance τ =>
    rw [step, advance] at ht
    split at ht
    · cases ht
    · cases hmine _ _ ht
    · rename_i hturn
      split at ht
      · cases hmine _ _ ht
      · cases hmine _ _ ht
        exact ⟨rfl,hturn,(Option.some.inj ht).symm,‹_›⟩
    · rename_i c' _ _
      split at ht
      · cases c' <;> cases hmine _ _ ht
      · cases hmine _ _ ht
    · split at ht <;> cases hmine _ _ ht
    · cases hmine _ _ ht
    · cases hmine _ _ ht
    · cases hmine _ _ ht
    · cases hmine _ _ ht

theorem reported_of_turn (h : Inv s) {τ : ℕ} {c : Call α} {pos : ℕ}
    (hpc : s.pcs τ = .turn c pos) (hpos : s.position c.side = pos)
    (hturn : (s.slots (s.idx pos)).turn ≠ s.expectedTurn c.side pos)
    (hgood : NotOvertaken (.advance τ) s) : Reported s c := by
  rw [h.1.shape.idx_eq, h.1.shape.expectedTurn_eq] at hturn
  simp only [NotOvertaken, hpc] at hgood
  subst hpos
  cases c with
  | enqueue item => exact full_of_turn h hturn hgood
  | dequeue => exact allTaken_of_turn h hturn hgood

theorem truthful_step {zero : α} {s t : State α} {past : List (State α)} (h : Inv s)
    (hist : Truthful (s::past)) (hgood : NotOvertaken i s) (ht : step zero i s = some t) :
    Truthful (t::s::past) := by
  intro t' past' heq τ c hfails
  cases heq
  obtain ⟨pos,hpc,hpos⟩ := hfails
  have hbusy : (t.pcs τ).isIdle = false := by rw [hpc]; rfl
  obtain ⟨hnow,hbefore⟩ := during_cons s past hbusy
  obtain ⟨hothers,hgrow⟩ := step_frame ht
  by_cases hτ : τ = actor i
  · subst hτ
    obtain ⟨hi,hturn,rfl,hne⟩ := step_check ht hpc
    rw [hi] at hgood
    have hrep := reported_of_turn h hturn (by cases c <;> exact hpos) hne hgood
    refine ⟨_,hnow,?_⟩
    cases c <;> exact hrep
  rw [hothers τ hτ] at hpc
  have hle : pos ≤ s.position c.side := by
    have hok := h.2.ok τ
    rw [hpc] at hok
    exact hok
  have hfails : Fails s τ c := ⟨pos,hpc,le_antisymm (hpos ▸ hgrow c.side) hle⟩
  obtain ⟨m,hm,hrep⟩ := hist s past rfl τ c hfails
  exact ⟨m,hbefore m hm,hrep⟩

/-- The naturals of the model are the 64-bit words of the source as long as this holds. -/
def Words (s : State α) : Prop := s.head < 2^64 ∧ s.tail < 2^64 ∧ ∀ p, (cell s p).turn < 2^64

theorem words_of_head (h : Shared s) (hhead : s.head < 2^63) : Words s := by
  have hle := h.tail_le_head
  refine ⟨by omega,by omega,?_⟩
  intro p
  by_contra hbig
  -- the turn before this one is that of a position of the slot, which has been won
  have hc := h.shape.pos
  let q := ((cell s p).turn-1)/2*s.capacity+p%s.capacity
  have hslot : q%s.capacity = p%s.capacity := by
    rw [Nat.mul_add_mod', Nat.mod_mod]
  have hlap : q/s.capacity = ((cell s p).turn-1)/2 := by
    change (_*s.capacity+p%s.capacity)/s.capacity = _
    rw [Nat.mul_comm, Nat.mul_add_div hc, Nat.div_eq_of_lt (Nat.mod_lt p hc), Nat.add_zero]
  have hcell : cell s q = cell s p := by rw [cell, cell, hslot]
  have hwon := h.high .enqueue q (by rw [hcell, due, Side.bit]; omega)
  change q < s.head at hwon
  have hq : ((cell s p).turn-1)/2 ≤ q :=
    (Nat.le_mul_of_pos_right _ hc).trans (Nat.le_add_right ..)
  omega

/-- In every run in which no goroutine that is still in a slot has been overtaken when the
turn of the slot is loaded, as long as the positions stay below 2^63: if a call is about to
return false, there was a state during the call in which all stored items had been taken, or
the queue was full. -/
theorem failed_calls_truthful (zero : α) (capacity : ℤ) (s₀ : State α)
    (hnew : newMPMC zero capacity = some s₀) (s : State α) (past : List (State α))
    (hrun : Reaches (fun i hist next => recorded (step zero) i hist = some next)
      (onLatest NotOvertaken) [s₀] (s::past)) (hhead : s.head < 2^63) (τ : ℕ) :
    Words s ∧ (Fails s τ .dequeue → ∃ m, During τ (s::past) m ∧ AllTaken m) ∧
      ∀ item, Fails s τ (.enqueue item) → ∃ m, During τ (s::past) m ∧ Full m := by
  have hinv := hrun.invariant (fun hist => Truthful hist ∧ ∀ s past, hist = s::past → Inv s) ?_ ?_
  · exact ⟨words_of_head (hinv.2 s past rfl).1 hhead,
      fun hf => hinv.1 s past rfl τ .dequeue hf,fun item hf => hinv.1 s past rfl τ (.enqueue item) hf⟩
  · refine ⟨?_,?_⟩
    · rintro u past heq τ c ⟨pos,hpc,_⟩
      cases heq
      rw [newMPMC] at hnew
      generalize (if capacity < 2 then 2 else capacity) = n at hnew
      by_cases hlarge : PowersOfTwo.maxIntHeadBit < n
      · rw [if_pos hlarge] at hnew
        cases hnew
      · rw [if_neg hlarge] at hnew
        cases hnew
        cases hpc
    · rintro u past heq
      cases heq
      exact newMPMC_inv hnew
  rintro i hist next ⟨htrue,hinv⟩ hgood hstep
  obtain ⟨u,past,t,rfl,ht,rfl⟩ := recorded_some (step zero) hstep
  have hu := hinv u past rfl
  refine ⟨truthful_step hu htrue hgood ht,?_⟩
  rintro v past' heq
  cases heq
  exact step_inv hu ht

def noLater : Step α → State α → Bool
  | .call _ _, _ => true
  | .advance τ, s => match s.pcs τ with
    | .turn .dequeue pos => s.stored.all (· ≤ pos)
    | .turn (.enqueue _) pos => (s.returned.map Prod.fst).all (· ≤ pos-s.capacity)
    | _ => true

theorem notOvertaken_of_noLater (h : noLater i s = true) : NotOvertaken i s := by
  cases i with
  | call τ c => trivial
  | advance τ =>
    rw [NotOvertaken]
    rw [noLater] at h
    split
    · rename_i hpc
      rw [hpc] at h
      intro _
      simpa using h
    · rename_i hpc
      rw [hpc] at h
      intro _
      simpa using h
    · trivial

/-- Two producers load the same head and one of them stores its item; while a consumer is
taking it and the other producer is about to try again, a second consumer finds the queue
empty. -/
theorem overlapped_call_reports : ∃ (s₀ s : State ℕ) (past : List (State ℕ)),
    newMPMC 0 2 = some s₀ ∧ s.pcs 1 = .load (.enqueue 8) ∧ s.pcs 2 = .read 0 ∧ s.stored = [0] ∧
      Fails s 3 .dequeue ∧ ∃ m, During 3 (s::past) m ∧ AllTaken m := by
  let s₀ : State ℕ := ⟨2,1,1,fun _ => ⟨0,0⟩,0,0,fun _ => .idle,[],[],[],[]⟩
  let steps : List (Step ℕ) := [.call 0 (.enqueue 7), .call 1 (.enqueue 8), .advance 0, .advance 1,
    .advance 0, .advance 1, .advance 0, .advance 1, .advance 0, .advance 0, .call 2 .dequeue,
    .call 3 .dequeue, .advance 2, .advance 2, .advance 2, .advance 3, .advance 3]
  have hsome : (runAll (recorded (step 0)) steps [s₀]).isSome := by decide +kernel
  have halong : Along (recorded (step 0)) (onLatest (fun i s => noLater i s = true)) steps [s₀] := by
    decide +kernel
  have hall : ∀ hist ∈ runAll (recorded (step 0)) steps [s₀], hist.isEmpty = false ∧
      ∀ s ∈ hist.head?, s.pcs 1 = .load (.enqueue 8) ∧ s.pcs 2 = .read 0 ∧ s.stored = [0] ∧
        s.pcs 3 = .check .dequeue 1 ∧ s.tail = 1 ∧ s.head = 1 := by decide +kernel
  obtain ⟨hist,hrun⟩ := Option.isSome_iff_exists.mp hsome
  obtain ⟨hne,hlast⟩ := hall hist hrun
  have hreach := (reaches_of_runAll (recorded (step 0)) _ halong hrun).weaken
    (fun i hist hg => show onLatest NotOvertaken i hist by
      cases hist with
      | nil => trivial
      | cons s past => exact notOvertaken_of_noLater hg)
  cases hist with
  | nil => cases hne
  | cons s past =>
    obtain ⟨h1,h2,h3,hpc,htail,hhead⟩ := hlast s rfl
    have hfails : Fails s 3 .dequeue := ⟨1,hpc,htail⟩
    obtain ⟨_,hempty,_⟩ := failed_calls_truthful 0 2 s₀ rfl s past hreach (by omega) 3
    exact ⟨s₀,s,past,rfl,h1,h2,h3,hfails,hempty hfails⟩

/-- A producer stops after it has won the first position, another stores an item behind it,
and a consumer reports an empty queue; the item has not been taken at any time of that call. -/
theorem stored_item_hidden : ∃ (s₀ s : State ℕ) (past : List (State ℕ)), newMPMC 0 2 = some s₀ ∧
    Reaches (fun i hist next => recorded (step 0) i hist = some next) (fun _ _ => True) [s₀] (s::past) ∧
      Fails s 2 .dequeue ∧ ∀ m, During 2 (s::past) m → ¬AllTaken m := by
  let s₀ : State ℕ := ⟨2,1,1,fun _ => ⟨0,0⟩,0,0,fun _ => .idle,[],[],[],[]⟩
  let steps : List (Step ℕ) := [.call 0 (.enqueue 7), .advance 0, .advance 0, .advance 0,
    .call 1 (.enqueue 8), .advance 1, .advance 1, .advance 1, .advance 1, .advance 1,
    .call 2 .dequeue, .advance 2, .advance 2]
  have hsome : (runAll (recorded (step 0)) steps [s₀]).isSome := by decide +kernel
  have hall : ∀ hist ∈ runAll (recorded (step 0)) steps [s₀], hist.isEmpty = false ∧
      (∀ s ∈ hist.head?, s.pcs 2 = .check .dequeue 0 ∧ s.tail = 0) ∧
        ∀ m ∈ hist.takeWhile (fun s => !(s.pcs 2).isIdle), ¬AllTaken m := by decide +kernel
  obtain ⟨hist,hrun⟩ := Option.isSome_iff_exists.mp hsome
  obtain ⟨hne,hfails,hnever⟩ := hall hist hrun
  have hreach := reaches_of_runAll (recorded (step 0)) _ (along_true _ _ _) hrun
  cases hist with
  | nil => cases hne
  | cons s past =>
    obtain ⟨hpc,htail⟩ := hfails s rfl
    exact ⟨s₀,s,past,rfl,hreach,⟨0,hpc,htail⟩,hnever⟩

end GoCommon.MpmcOutcomes
