import GoCommon.Mpmc

/-!
# Delivery of the queue of many producers and consumers

The turn of the slot of a position, compared with twice its lap, says whether the
position has been won and given up on either side. From this the order of head
and tail follows, and that the winner of a position is alone in its slot. The item
stays in the slot until its consumer reads it.
-/

set_option autoImplicit false

namespace GoCommon.MpmcDelivery
open List Function PowersOfTwo Mpmc StepRuns

variable {α : Type}

def cell (s : State α) (p : ℕ) : Slot α := s.slots (p%s.capacity)

def due (s : State α) (side : Side) (p : ℕ) : ℕ := 2*(p/s.capacity)+side.bit

def wonBy (s : State α) : Side → List ℕ
  | .enqueue => s.enqWon.map Prod.fst
  | .dequeue => s.deqWon

def doneBy (s : State α) : Side → List ℕ
  | .enqueue => s.stored
  | .dequeue => s.returned.map Prod.fst

def Shape (s : State α) : Prop := ∃ k, s.capacity = 2^k ∧ s.mask = 2^k-1 ∧ s.capacityLog2 = k

variable {s : State α} {c : Call α} {data : α} {pc : Pc α}

theorem Shape.pos (h : Shape s) : 0 < s.capacity := by
  obtain ⟨k,hc,_⟩ := h
  rw [hc]
  positivity

theorem Shape.idx_eq (h : Shape s) (p : ℕ) : s.idx p = p%s.capacity := by
  obtain ⟨k,hc,hm,_⟩ := h
  rw [State.idx, hm, hc, Nat.and_two_pow_sub_one_eq_mod]

theorem Shape.expectedTurn_eq (h : Shape s) (side : Side) (p : ℕ) :
    s.expectedTurn side p = due s side p := by
  obtain ⟨k,hc,_,hk⟩ := h
  rw [State.expectedTurn, State.turn, due, hk, hc, Nat.shiftRight_eq_div_pow, Nat.mul_comm]

variable {p pos τ : ℕ} {side : Side}

theorem due_injective {side' : Side} {p' : ℕ} (hslot : p%s.capacity = p'%s.capacity)
    (hdue : due s side p = due s side' p') : side = side' ∧ p = p' := by
  have hlap : p/s.capacity = p'/s.capacity → p = p' := by
    intro heq
    rw [← Nat.div_add_mod p s.capacity, ← Nat.div_add_mod p' s.capacity, hslot, heq]
  unfold due at hdue
  cases side <;> cases side' <;> simp only [Side.bit] at hdue
  · exact ⟨rfl,hlap (by omega)⟩
  · omega
  · omega
  · exact ⟨rfl,hlap (by omega)⟩

def Owns (s : State α) (side : Side) (p : ℕ) : Prop :=
  p < s.position side ∧ (cell s p).turn = due s side p

def PcOk (s : State α) : Pc α → Prop
  | .idle => True
  | .load _ => True
  | .turn c pos => pos ≤ s.position c.side
  | .check c pos => pos ≤ s.position c.side
  | .swap c pos => pos ≤ s.position c.side ∧ due s c.side pos ≤ (cell s pos).turn
  | .write item pos => Owns s .enqueue pos ∧ (pos,item) ∈ s.enqWon
  | .read pos => Owns s .dequeue pos ∧ ∀ x, (pos,x) ∈ s.enqWon → (cell s pos).data = x
  | .clear pos data => Owns s .dequeue pos ∧ (pos,data) ∈ s.enqWon
  | .publish c pos data => Owns s c.side pos ∧ (pos,data) ∈ s.enqWon ∧
      (c.side = .enqueue → (cell s pos).data = data)

theorem PcOk.owns (h : PcOk s pc) (ho : owned pc = some (side,p)) : Owns s side p := by
  cases pc with
  | write item pos => cases ho; exact h.1
  | read pos => cases ho; exact h.1
  | clear pos data => cases ho; exact h.1
  | publish c pos data => cases ho; exact h.1
  | idle => cases ho
  | load c => cases ho
  | turn c pos => cases ho
  | swap c pos => cases ho
  | check c pos => cases ho

/-- What a goroutine relies on survives the steps of the others: positions and turns only
grow, and nobody else accesses its slot. -/
theorem PcOk.transfer {s t : State α} (h : PcOk s pc) (hcap : t.capacity = s.capacity)
    (hpos : ∀ side, s.position side ≤ t.position side)
    (hturn : ∀ p, (cell s p).turn ≤ (cell t p).turn)
    (hcell : ∀ side p, owned pc = some (side,p) → cell t p = cell s p)
    (hwon : ∀ e ∈ s.enqWon, e ∈ t.enqWon)
    (hback : ∀ p x, p < s.tail → (p,x) ∈ t.enqWon → (p,x) ∈ s.enqWon) : PcOk t pc := by
  have hdue : ∀ side p, due t side p = due s side p := fun side p => by rw [due, due, hcap]
  have howns : ∀ side p, owned pc = some (side,p) → Owns s side p → Owns t side p := by
    intro side p ho hs
    exact ⟨lt_of_lt_of_le hs.1 (hpos side),by rw [hcell side p ho, hdue]; exact hs.2⟩
  cases pc with
  | idle => trivial
  | load c => trivial
  | turn c pos => exact le_trans h (hpos _)
  | check c pos => exact le_trans h (hpos _)
  | swap c pos => exact ⟨le_trans h.1 (hpos _),by rw [hdue]; exact le_trans h.2 (hturn pos)⟩
  | write item pos => exact ⟨howns _ _ rfl h.1,hwon _ h.2⟩
  | read pos =>
    exact ⟨howns _ _ rfl h.1,fun x hx => by rw [hcell _ _ rfl]; exact h.2 x (hback pos x h.1.1 hx)⟩
  | clear pos data => exact ⟨howns _ _ rfl h.1,hwon _ h.2⟩
  | publish c pos data =>
    exact ⟨howns _ _ rfl h.1,hwon _ h.2.1,fun he => by rw [hcell _ _ rfl]; exact h.2.2 he⟩

structure Shared (s : State α) : Prop where
  shape : Shape s
  low : ∀ side p, p < s.position side → due s side p ≤ (cell s p).turn
  high : ∀ side p, due s side p < (cell s p).turn → p < s.position side
  wins : ∀ side, wonBy s side = (List.range (s.position side)).reverse
  kept : ∀ p x, (p,x) ∈ s.enqWon → (cell s p).turn = due s .dequeue p → s.tail ≤ p →
    (cell s p).data = x
  done : ∀ side p, p ∈ doneBy s side ↔ due s side p < (cell s p).turn
  once : ∀ side, (doneBy s side).Nodup
  right : ∀ e ∈ s.returned, e ∈ s.enqWon

structure Threads (s : State α) : Prop where
  ok : ∀ τ, PcOk s (s.pcs τ)
  unique : ∀ τ τ' e, owned (s.pcs τ) = some e → owned (s.pcs τ') = some e → τ = τ'
  held : ∀ side p, Owns s side p → ∃ τ, owned (s.pcs τ) = some (side,p)

namespace Shared

theorem tail_le_head (h : Shared s) : s.tail ≤ s.head := by
  by_contra hlt
  have h1 := h.low .dequeue s.head (by change s.head < s.tail; omega)
  have h2 := h.high .enqueue s.head (by simp only [due, Side.bit] at h1 ⊢; omega)
  exact absurd h2 (lt_irrefl _)

theorem head_le (h : Shared s) : s.head ≤ s.tail+s.capacity := by
  by_contra hlt
  have hc := h.shape.pos
  have h1 := h.low .enqueue (s.tail+s.capacity) (by change _ < s.head; omega)
  rw [cell, Nat.add_mod_right] at h1
  have h2 := h.high .dequeue s.tail (by
    simp only [due, Side.bit, Nat.add_div_right _ hc] at h1 ⊢
    change _ < (s.slots (s.tail%s.capacity)).turn
    omega)
  exact absurd h2 (lt_irrefl _)

theorem item_unique (h : Shared s) {x y : α} (hx : (p,x) ∈ s.enqWon) (hy : (p,y) ∈ s.enqWon) :
    x = y := by
  have hnodup : (s.enqWon.map Prod.fst).Nodup := by
    rw [show s.enqWon.map Prod.fst = _ from h.wins .enqueue, nodup_reverse]
    exact nodup_range
  exact congrArg Prod.snd (inj_on_of_nodup_map hnodup hx hy rfl)

theorem item_exists (h : Shared s) (hp : p < s.head) : ∃ x, (p,x) ∈ s.enqWon := by
  have hmem : p ∈ s.enqWon.map Prod.fst := by
    rw [show s.enqWon.map Prod.fst = _ from h.wins .enqueue, mem_reverse, mem_range]
    exact hp
  obtain ⟨⟨q,x⟩,hx,rfl⟩ := mem_map.mp hmem
  exact ⟨x,hx⟩

theorem next_turn (h : Shared s) (side : Side) : (cell s (s.position side)).turn ≤ due s side (s.position side) := by
  by_contra hlt
  exact absurd (h.high side _ (by omega)) (lt_irrefl _)

theorem goto (h : Shared s) (τ : ℕ) (pc : Pc α) : Shared (s.goto τ pc) :=
  ⟨h.shape,h.low,h.high,h.wins,h.kept,h.done,h.once,h.right⟩

end Shared

theorem Threads.alone (h : Threads s) {τ' : ℕ} {side' : Side} {p' : ℕ}
    (ho : owned (s.pcs τ) = some (side,p)) (ho' : owned (s.pcs τ') = some (side',p'))
    (hslot : p%s.capacity = p'%s.capacity) : τ = τ' := by
  have hp := ((h.ok τ).owns ho).2
  have hp' := ((h.ok τ').owns ho').2
  rw [cell, hslot] at hp
  obtain ⟨rfl,rfl⟩ := due_injective hslot (hp.symm.trans hp')
  exact h.unique τ τ' _ ho ho'

theorem pcOk_goto (τ : ℕ) (pc : Pc α) {x : Pc α} (h : PcOk s x) : PcOk (s.goto τ pc) x :=
  h.transfer rfl (fun _ => le_rfl) (fun _ => le_rfl) (fun _ _ _ => rfl) (fun _ he => he) (fun _ _ _ he => he)

theorem Threads.move {s t : State α} (h : Threads s) (τ : ℕ) (pc : Pc α) (hpcs : t.pcs = s.pcs)
    (hothers : ∀ τ', τ' ≠ τ → PcOk t (s.pcs τ')) (hown : PcOk t pc)
    (hfree : ∀ τ' e, τ' ≠ τ → owned (s.pcs τ') = some e → owned pc ≠ some e)
    (hheld : ∀ side p, Owns t side p → owned pc = some (side,p) ∨
      ∃ τ', τ' ≠ τ ∧ owned (s.pcs τ') = some (side,p)) : Threads (t.goto τ pc) := by
  have hpc : ∀ τ', (t.goto τ pc).pcs τ' = if τ' = τ then pc else s.pcs τ' := by
    intro τ'
    change update t.pcs τ pc τ' = _
    rw [update_apply, hpcs]
  refine ⟨?_,?_,?_⟩
  · intro τ'
    rw [hpc]
    split
    · exact pcOk_goto τ pc hown
    · exact pcOk_goto τ pc (hothers τ' ‹_›)
  · intro a b e ha hb
    rw [hpc] at ha hb
    split at ha <;> split at hb
    · rename_i h1 h2
      rw [h1, h2]
    · exact absurd ha (hfree b e ‹_› hb)
    · exact absurd hb (hfree a e ‹_› ha)
    · exact h.unique a b e ha hb
  intro side p ho
  rcases hheld side p ho with hnew | ⟨τ',hne,hold⟩
  · exact ⟨τ,by rw [hpc, if_pos rfl]; exact hnew⟩
  · exact ⟨τ',by rw [hpc, if_neg hne]; exact hold⟩

/-! ## The steps -/

def Inv (s : State α) : Prop := Shared s ∧ Threads s

theorem Inv.quiet (h : Inv s) (τ : ℕ) (hown : owned pc = owned (s.pcs τ)) (hok : PcOk s pc) :
    Inv (s.goto τ pc) := by
  refine ⟨h.1.goto τ pc,h.2.move τ pc rfl (fun τ' _ => h.2.ok τ') hok ?_ ?_⟩
  · intro τ' e hne he heq
    exact hne (h.2.unique τ' τ e he (hown ▸ heq))
  intro side p ho
  obtain ⟨τ',hτ⟩ := h.2.held side p ho
  by_cases heq : τ' = τ
  · left
    rw [hown, ← heq]
    exact hτ
  · exact Or.inr ⟨τ',heq,hτ⟩

theorem win_position (side : Side) (hpos : s.position c.side = pos) :
    (s.win c pos).position side = if side = c.side then pos+1 else s.position side := by
  cases c <;> cases side <;> rfl

theorem cell_win {p : ℕ} : cell (s.win c pos) p = cell s p := by
  cases c <;> rfl

theorem due_win {side : Side} {p : ℕ} : due (s.win c pos) side p = due s side p := by
  cases c <;> rfl

theorem win_shared (h : Shared s) (hpos : s.position c.side = pos)
    (hturn : (cell s pos).turn = due s c.side pos) : Shared (s.win c pos) := by
  refine ⟨?_,?_,?_,?_,?_,?_,?_,?_⟩
  · cases c <;> exact h.shape
  · intro side p hp
    rw [cell_win, due_win]
    rw [win_position side hpos] at hp
    split at hp
    · rename_i hside
      subst hside
      rcases Nat.lt_succ_iff_lt_or_eq.mp hp with hlt | rfl
      · exact h.low _ p (by omega)
      · exact hturn.ge
    · exact h.low side p hp
  · intro side p hp
    rw [cell_win, due_win] at hp
    have := h.high side p hp
    rw [win_position side hpos]
    split
    · rename_i hside
      subst hside
      omega
    · exact this
  · intro side
    have hw := h.wins side
    rw [win_position side hpos]
    cases c <;> cases side <;> simp only [Call.side, reduceCtorEq, if_false, if_true] at hpos ⊢
    · change pos::s.enqWon.map Prod.fst = _
      rw [show s.enqWon.map Prod.fst = _ from hw, range_succ, reverse_append]
      change pos::_ = pos::(List.range pos).reverse
      rw [hpos]
    · exact hw
    · exact hw
    change pos::s.deqWon = _
    rw [show s.deqWon = _ from hw, range_succ, reverse_append]
    change pos::_ = pos::(List.range pos).reverse
    rw [hpos]
  · intro p x hx hp ht
    rw [cell_win] at *
    cases c with
    | enqueue item =>
      rcases mem_cons.mp hx with heq | hold
      · cases heq
        rw [hturn] at hp
        simp only [due, Call.side, Side.bit] at hp
        omega
      · exact h.kept p x hold hp ht
    | dequeue =>
      have hle : s.tail ≤ p := by
        change pos+1 ≤ p at ht
        have : s.tail = pos := hpos
        omega
      exact h.kept p x hx hp hle
  · intro side p
    rw [cell_win, due_win, ← h.done]
    cases c <;> cases side <;> exact Iff.rfl
  · intro side
    have honce := h.once side
    cases c <;> cases side <;> exact honce
  intro e he
  cases c with
  | enqueue item => exact mem_cons_of_mem _ (h.right e he)
  | dequeue => exact h.right e he

theorem Inv.win (h : Inv s) (hpc : s.pcs τ = .swap c pos)
    (hpos : s.position c.side = pos) : Inv ((s.win c pos).goto τ (access c pos)) := by
  obtain ⟨hs,ht⟩ := h
  have hok := ht.ok τ
  rw [hpc] at hok
  have hturn : (cell s pos).turn = due s c.side pos := by
    have := hs.next_turn c.side
    rw [hpos] at this
    exact le_antisymm this hok.2
  have hcap : (s.win c pos).capacity = s.capacity := by cases c <;> rfl
  have hgrow : ∀ side, s.position side ≤ (s.win c pos).position side := by
    intro side
    rw [win_position side hpos]
    split
    · rename_i hside
      rw [hside]
      omega
    · exact le_rfl
  have hwon : ∀ e ∈ s.enqWon, e ∈ (s.win c pos).enqWon := by
    cases c with
    | enqueue item => exact fun e he => mem_cons_of_mem _ he
    | dequeue => exact fun e he => he
  have hback : ∀ p x, p < s.tail → (p,x) ∈ (s.win c pos).enqWon → (p,x) ∈ s.enqWon := by
    intro p x hp hx
    cases c with
    | enqueue item =>
      rcases mem_cons.mp hx with heq | hold
      · cases heq
        have hle := hs.tail_le_head
        have : s.head = pos := hpos
        omega
      · exact hold
    | dequeue => exact hx
  have hmine : owned (access c pos) = some (c.side,pos) := by cases c <;> rfl
  have hlt : pos < (s.win c pos).position c.side := by
    rw [win_position _ hpos, if_pos rfl]
    omega
  have howns : Owns (s.win c pos) c.side pos := ⟨hlt,by rw [cell_win, due_win]; exact hturn⟩
  refine ⟨(win_shared hs hpos hturn).goto τ _,ht.move τ _ (by cases c <;> rfl) ?_ ?_ ?_ ?_⟩
  · intro τ' _
    exact (ht.ok τ').transfer hcap hgrow (fun p => by rw [cell_win]) (fun _ p _ => cell_win) hwon hback
  · cases c with
    | enqueue item => exact ⟨howns,mem_cons_self ..⟩
    | dequeue =>
      refine ⟨howns,fun x hx => ?_⟩
      exact hs.kept pos x hx hturn (le_of_eq hpos)
  · intro τ' e _ he heq
    rw [hmine] at heq
    cases heq
    have := ((ht.ok τ').owns he).1
    omega
  intro side p hp
  have hturn' := hp.2
  rw [cell_win, due_win] at hturn'
  have hlt' := hp.1
  rw [win_position side hpos] at hlt'
  by_cases hnew : side = c.side ∧ p = pos
  · obtain ⟨rfl,rfl⟩ := hnew
    exact Or.inl hmine
  have hold : p < s.position side := by
    split at hlt'
    · rename_i hside
      subst hside
      have : p ≠ pos := fun heq => hnew ⟨rfl,heq⟩
      omega
    · exact hlt'
  obtain ⟨τ',hτ⟩ := ht.held side p ⟨hold,hturn'⟩
  refine Or.inr ⟨τ',?_,hτ⟩
  rintro rfl
  rw [hpc] at hτ
  cases hτ

theorem cell_setData (h : Shape s) (pos p : ℕ) (x : α) :
    cell (s.setData pos x) p = if p%s.capacity = pos%s.capacity then ⟨(cell s p).turn,x⟩ else cell s p := by
  change update s.slots (s.idx pos) _ (p%s.capacity) = _
  rw [update_apply, h.idx_eq]
  split
  · rename_i heq
    rw [cell, heq]
  · rfl

theorem Inv.setData (h : Inv s) (τ : ℕ) (side : Side) (pos : ℕ) (x : α)
    (ho : owned (s.pcs τ) = some (side,pos)) (hpc : owned pc = some (side,pos))
    (hok : PcOk (s.setData pos x) pc) : Inv ((s.setData pos x).goto τ pc) := by
  obtain ⟨hs,ht⟩ := h
  have howns := (ht.ok τ).owns ho
  have hcell := cell_setData (x := x) hs.shape pos
  have hturn : ∀ p, (cell (s.setData pos x) p).turn = (cell s p).turn := by
    intro p
    rw [hcell]
    split <;> rfl
  refine ⟨Shared.goto ?_ τ pc,ht.move τ pc rfl ?_ hok ?_ ?_⟩
  · refine ⟨hs.shape,?_,?_,hs.wins,?_,?_,hs.once,hs.right⟩
    · exact fun side p hp => by rw [hturn]; exact hs.low side p hp
    · exact fun side p hp => hs.high side p (by rw [hturn] at hp; exact hp)
    · intro p y hy hp htail
      rw [hturn] at hp
      rw [hcell, if_neg]
      · exact hs.kept p y hy hp htail
      -- the slot of a stored item that nobody has won is not that of the writer
      intro hslot
      have hdue : due s side pos = due s .dequeue p := by
        rw [← howns.2, cell, ← hslot]
        exact hp
      obtain ⟨rfl,rfl⟩ := due_injective hslot.symm hdue
      exact absurd howns.1 (Nat.not_lt.mpr htail)
    · exact fun side p => by rw [hturn]; exact hs.done side p
  · intro τ' hne
    refine (ht.ok τ').transfer rfl (fun _ => le_rfl) (fun p => by rw [hturn]) ?_ (fun _ he => he)
      (fun _ _ _ he => he)
    intro side' p hp
    rw [hcell, if_neg (fun hslot => hne (ht.alone hp ho hslot))]
  · intro τ' e hne he heq
    rw [hpc] at heq
    exact hne (ht.unique τ' τ e he (heq ▸ ho))
  intro side' p hp
  obtain ⟨τ',hτ⟩ := ht.held side' p ⟨hp.1,by rw [← hturn]; exact hp.2⟩
  by_cases heq : τ' = τ
  · left
    rw [hpc, ← ho, ← heq]
    exact hτ
  · exact Or.inr ⟨τ',heq,hτ⟩

def published (c : Call α) (pos : ℕ) (data : α) (s : State α) : State α :=
  (s.setTurn pos (s.expectedTurn c.side pos+1)).finish c pos data

theorem due_published {side : Side} {p : ℕ} :
    due (published c pos data s) side p = due s side p := by
  cases c <;> rfl

theorem position_published {side : Side} :
    (published c pos data s).position side = s.position side := by
  cases c <;> cases side <;> rfl

theorem enqWon_published : (published c pos data s).enqWon = s.enqWon := by
  cases c <;> rfl

theorem Owns.turn_eq {p : ℕ} (h : Owns s side pos) (hslot : p%s.capacity = pos%s.capacity) :
    (cell s p).turn = due s side pos := by
  rw [cell, hslot]
  exact h.2

theorem cell_published (h : Shape s) (c : Call α) (pos p : ℕ) (data : α) :
    cell (published c pos data s) p = if p%s.capacity = pos%s.capacity
      then ⟨due s c.side pos+1,(cell s p).data⟩ else cell s p := by
  have hset : cell (published c pos data s) p =
      update s.slots (s.idx pos) ⟨s.expectedTurn c.side pos+1,(s.slots (s.idx pos)).data⟩
        (p%s.capacity) := by cases c <;> rfl
  rw [hset, update_apply, h.idx_eq, h.expectedTurn_eq]
  split
  · rename_i heq
    rw [cell, heq]
  · rfl

theorem doneBy_published :
    doneBy (published c pos data s) side = if side = c.side then pos::doneBy s side else doneBy s side := by
  cases c <;> cases side <;> rfl

theorem turn_published (h : Shape s) (c : Call α) (pos : ℕ) (data : α) (side : Side) (p : ℕ)
    (howns : Owns s c.side pos) :
    due s side p < (cell (published c pos data s) p).turn ↔
      due s side p < (cell s p).turn ∨ side = c.side ∧ p = pos := by
  rw [cell_published h]
  split
  · rename_i hslot
    have hcell := howns.turn_eq hslot
    change due s side p < due s c.side pos+1 ↔ _
    rw [hcell]
    constructor
    · intro hlt
      rcases Nat.lt_succ_iff_lt_or_eq.mp hlt with hless | heq
      · exact Or.inl hless
      · exact Or.inr (due_injective hslot heq)
    · rintro (hless | ⟨rfl,rfl⟩) <;> omega
  rename_i hslot
  refine ⟨Or.inl,?_⟩
  rintro (hless | ⟨rfl,rfl⟩)
  · exact hless
  · exact absurd rfl hslot

theorem published_shared (h : Shared s) (howns : Owns s c.side pos)
    (hwon : (pos,data) ∈ s.enqWon) (hdata : c.side = .enqueue → (cell s pos).data = data) :
    Shared (published c pos data s) := by
  have hturn := turn_published h.shape c pos data
  refine ⟨?_,?_,?_,?_,?_,?_,?_,?_⟩
  · cases c <;> exact h.shape
  · intro side p hp
    rw [position_published] at hp
    rw [due_published, cell_published h.shape]
    have hlow := h.low side p hp
    split
    · rename_i hslot
      rw [cell, hslot, ← cell, howns.2] at hlow
      exact le_trans hlow (Nat.le_succ _)
    · exact hlow
  · intro side p hp
    rw [due_published, hturn side p howns] at hp
    rw [position_published]
    rcases hp with hold | ⟨rfl,rfl⟩
    · exact h.high side p hold
    · exact howns.1
  · intro side
    have hw := h.wins side
    rw [position_published, ← hw]
    cases c <;> cases side <;> rfl
  · intro p x hx hp htail
    rw [enqWon_published] at hx
    have htail' : s.tail ≤ p := by cases c <;> exact htail
    rw [due_published, cell_published h.shape] at hp
    rw [cell_published h.shape]
    split at hp
    · rename_i hslot
      have henqueue : due s c.side pos = due s .enqueue p := by
        simp only [due, Side.bit] at hp ⊢
        omega
      obtain ⟨hside,rfl⟩ := due_injective hslot.symm henqueue
      rw [if_pos rfl]
      rw [hdata hside]
      exact h.item_unique hwon hx
    · rw [if_neg ‹_›]
      exact h.kept p x hx hp htail'
  · intro side p
    rw [due_published, hturn side p howns, doneBy_published, ← h.done]
    split
    · rename_i hside
      rw [mem_cons]
      exact ⟨fun hp => hp.elim (fun heq => Or.inr ⟨hside,heq⟩) Or.inl,
        fun hp => hp.elim Or.inr (fun heq => Or.inl heq.2)⟩
    · rename_i hside
      exact ⟨Or.inl,fun hp => hp.elim id (fun heq => absurd heq.1 hside)⟩
  · intro side
    rw [doneBy_published]
    split
    · rename_i hside
      refine nodup_cons.mpr ⟨fun hmem => ?_,h.once side⟩
      rw [h.done, hside, howns.2] at hmem
      exact absurd hmem (lt_irrefl _)
    · exact h.once side
  intro e he
  cases c with
  | enqueue item => exact h.right e he
  | dequeue =>
    rcases mem_cons.mp he with rfl | hold
    · exact hwon
    · exact h.right e hold

theorem Inv.publish (h : Inv s)
    (hpc : s.pcs τ = .publish c pos data) : Inv ((published c pos data s).goto τ .idle) := by
  obtain ⟨hs,ht⟩ := h
  have hok := ht.ok τ
  have ho : owned (s.pcs τ) = some (c.side,pos) := by rw [hpc]; rfl
  rw [hpc] at hok
  obtain ⟨howns,hwon,hdata⟩ := hok
  refine ⟨(published_shared hs howns hwon hdata).goto τ _,
    ht.move τ _ (by cases c <;> rfl) ?_ trivial ?_ ?_⟩
  · intro τ' hne
    refine (ht.ok τ').transfer (by cases c <;> rfl) (fun side => position_published.ge) ?_ ?_
      (fun e he => by rw [enqWon_published]; exact he) (fun p x _ he => by rw [enqWon_published] at he; exact he)
    · intro p
      rw [cell_published hs.shape]
      split
      · rename_i hslot
        have := howns.turn_eq hslot
        change (cell s p).turn ≤ due s c.side pos+1
        omega
      · exact le_rfl
    · intro side p hp
      rw [cell_published hs.shape, if_neg]
      exact fun hslot => hne (ht.alone hp ho hslot)
  · intro τ' e _ _ heq
    cases heq
  intro side p hp
  obtain ⟨hlt,hturn⟩ := hp
  rw [position_published] at hlt
  rw [due_published, cell_published hs.shape] at hturn
  have hlow := hs.low side p hlt
  split at hturn
  · rename_i hslot
    have := howns.turn_eq hslot
    change due s c.side pos+1 = _ at hturn
    omega
  rename_i hslot
  obtain ⟨τ',hτ⟩ := ht.held side p ⟨hlt,hturn⟩
  refine Or.inr ⟨τ',?_,hτ⟩
  rintro rfl
  rw [ho] at hτ
  cases hτ
  exact hslot rfl

theorem advance_inv {zero : α} {s t : State α} (h : Inv s) (ht : advance zero τ s = some t) :
    Inv t := by
  have hok := h.2.ok τ
  rw [advance] at ht
  cases hpc : s.pcs τ with
  | idle => rw [hpc] at ht; cases ht
  | load c =>
    rw [hpc] at ht
    cases ht
    exact h.quiet τ (by rw [hpc]; rfl) le_rfl
  | turn c pos =>
    rw [hpc] at ht hok
    dsimp only at ht
    rw [h.1.shape.idx_eq, h.1.shape.expectedTurn_eq] at ht
    split at ht <;> cases ht
    · exact h.quiet τ (by rw [hpc]; rfl) ⟨hok,ge_of_eq ‹_›⟩
    · exact h.quiet τ (by rw [hpc]; rfl) hok
  | swap c pos =>
    rw [hpc] at ht
    dsimp only at ht
    split at ht <;> cases ht
    · exact h.win hpc ‹_›
    · exact h.quiet τ (by rw [hpc]; rfl) trivial
  | check c pos =>
    rw [hpc] at ht
    dsimp only at ht
    split at ht <;> cases ht <;> exact h.quiet τ (by rw [hpc]; rfl) trivial
  | write item pos =>
    rw [hpc] at ht hok
    cases ht
    refine h.setData τ .enqueue pos item (by rw [hpc]; rfl) rfl ?_
    have hcell := cell_setData (x := item) h.1.shape pos pos
    rw [if_pos rfl] at hcell
    exact ⟨⟨hok.1.1,by rw [hcell]; exact hok.1.2⟩,hok.2,fun _ => by rw [hcell]⟩
  | read pos =>
    rw [hpc] at ht hok
    cases ht
    refine h.quiet τ (by rw [hpc]; rfl) ⟨hok.1,?_⟩
    obtain ⟨x,hx⟩ := h.1.item_exists (lt_of_lt_of_le hok.1.1 h.1.tail_le_head)
    rw [h.1.shape.idx_eq, show (s.slots (pos%s.capacity)).data = x from hok.2 x hx]
    exact hx
  | clear pos data =>
    rw [hpc] at ht hok
    cases ht
    refine h.setData τ .dequeue pos zero (by rw [hpc]; rfl) rfl ?_
    have hcell := cell_setData (x := zero) h.1.shape pos pos
    rw [if_pos rfl] at hcell
    exact ⟨⟨hok.1.1,by rw [hcell]; exact hok.1.2⟩,hok.2,fun hside => by cases hside⟩
  | publish c pos data =>
    rw [hpc] at ht
    cases ht
    exact h.publish hpc

theorem step_inv {zero : α} {i : Step α} {s t : State α} (h : Inv s) (ht : step zero i s = some t) :
    Inv t := by
  cases i with
  | call τ c =>
    rw [step] at ht
    split at ht
    · rename_i hpc
      cases ht
      exact h.quiet τ (by rw [hpc]; rfl) trivial
    · cases ht
  | advance τ => exact advance_inv h ht

theorem trailingZeros_pow (fuel k : ℕ) (h : k < fuel) : trailingZeros fuel (2^k) = k := by
  induction k generalizing fuel with
  | zero =>
    obtain ⟨fuel,rfl⟩ := Nat.exists_eq_succ_of_ne_zero (show fuel ≠ 0 by omega)
    rfl
  | succ k ih =>
    obtain ⟨fuel,rfl⟩ := Nat.exists_eq_succ_of_ne_zero (show fuel ≠ 0 by omega)
    rw [trailingZeros, if_pos (by omega), pow_succ, Nat.mul_div_cancel _ (by decide),
      ih fuel (by omega)]

theorem newMPMC_inv {zero : α} {capacity : ℤ} (h : newMPMC zero capacity = some s) : Inv s := by
  rw [newMPMC] at h
  generalize (if capacity < 2 then 2 else capacity) = c at h
  by_cases hlarge : maxIntHeadBit < c
  · rw [if_pos hlarge] at h
    cases h
  rw [if_neg hlarge] at h
  cases h
  obtain ⟨k,_,hk,hpow⟩ := ceilToPowerOfTwo_eq_pow c (by omega)
  refine ⟨⟨⟨k,hpow,by rw [hpow],?_⟩,?_,?_,?_,?_,?_,?_,?_⟩,⟨fun _ => trivial,?_,?_⟩⟩
  · rw [hpow, trailingZeros_pow 64 k (by omega)]
  · intro side p hp
    cases side <;> exact absurd hp (Nat.not_lt_zero p)
  · intro side p hp
    exact absurd hp (Nat.not_lt_zero _)
  · intro side
    cases side <;> rfl
  · intro p x hx
    cases hx
  · intro side p
    cases side <;> exact iff_of_false (by simp [doneBy]) (Nat.not_lt_zero _)
  · intro side
    cases side <;> exact nodup_nil
  · intro e he
    cases he
  · intro τ τ' e he
    cases he
  · intro side p hp
    cases side <;> exact absurd hp.1 (Nat.not_lt_zero p)

/-! ## Runs -/

def Accesses (s : State α) (τ i : ℕ) : Prop := ∃ side p, owned (s.pcs τ) = some (side,p) ∧ s.idx p = i

/-- In every state of every run, the tail, the head and the capacity are in order; every
position has been won at most once on each side; a slot is accessed by one winner at
most; and no position is returned twice, and what is returned for a position is the item of
the call that won it. -/
theorem items_delivered_once (zero : α) (capacity : ℤ) (s₀ s : State α)
    (hnew : newMPMC zero capacity = some s₀)
    (hrun : Reaches (fun i s t => step zero i s = some t) (fun _ _ => True) s₀ s) :
    s.tail ≤ s.head ∧ s.head ≤ s.tail+s.capacity ∧ (s.enqWon.map Prod.fst).Nodup ∧ s.deqWon.Nodup ∧
      (∀ τ τ' i, Accesses s τ i → Accesses s τ' i → τ = τ') ∧
        (s.returned.map Prod.fst).Nodup ∧ ∀ p x, (p,x) ∈ s.returned → (p,x) ∈ s.enqWon := by
  have hinv : Inv s := hrun.invariant Inv (newMPMC_inv hnew)
    (fun i s t hs _ ht => step_inv hs ht)
  obtain ⟨hs,ht⟩ := hinv
  have hnodup : ∀ side, (wonBy s side).Nodup := by
    intro side
    rw [hs.wins, nodup_reverse]
    exact nodup_range
  refine ⟨hs.tail_le_head,hs.head_le,hnodup .enqueue,hnodup .dequeue,?_,hs.once .dequeue,
    fun p x hx => hs.right _ hx⟩
  rintro τ τ' i ⟨side,p,ho,hi⟩ ⟨side',p',ho',hi'⟩
  rw [hs.shape.idx_eq] at hi hi'
  exact ht.alone ho ho' (hi.trans hi'.symm)

/-- Two producers load the same head, one of them wins it, and its item is returned. -/
theorem overlapping_calls_deliver : ∃ s₀ s : State ℕ, newMPMC 0 2 = some s₀ ∧ s.returned = [(0,7)] ∧
    s.tail ≤ s.head ∧ s.head ≤ s.tail+s.capacity ∧ (0,7) ∈ s.enqWon := by
  let steps : List (Step ℕ) := [.call 0 (.enqueue 7), .call 1 (.enqueue 8), .advance 0, .advance 1,
    .advance 0, .advance 1, .advance 0, .advance 1, .advance 0, .advance 0, .call 2 .dequeue,
    .advance 2, .advance 2, .advance 2, .advance 2, .advance 2, .advance 2]
  have hsome : ((newMPMC 0 2).bind (runAll (step 0) steps)).isSome := by decide +kernel
  have hall : ∀ s ∈ (newMPMC 0 2).bind (runAll (step 0) steps), s.returned = [(0,7)] := by decide +kernel
  obtain ⟨s,hs⟩ := Option.isSome_iff_exists.mp hsome
  obtain ⟨s₀,hnew,hrun⟩ := Option.bind_eq_some_iff.mp hs
  have hret := hall s hs
  obtain ⟨h1,h2,_,_,_,_,h3⟩ := items_delivered_once 0 2 s₀ s hnew
    (reaches_of_runAll (step 0) _ (along_true _ _ _) hrun)
  exact ⟨s₀,s,hnew,hret,h1,h2,h3 0 7 (by rw [hret]; exact mem_cons_self ..)⟩

end GoCommon.MpmcDelivery
