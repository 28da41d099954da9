import GoCommon.RingBuffer

/-!
# The contents of a ring buffer

A ring represents a list of bytes when its window is that list. Every reading of
the ring follows from the list. Writing and growing keep the representation at
any capacity. Moving the read position keeps it where the mask of the capacity
is the remainder by the capacity.
-/

set_option autoImplicit false

namespace GoCommon.RingContents
open List CircularWindow PowersOfTwo RingBuffer

def oldest : List UInt8 → Except RingError UInt8
  | [] => .error .ringEmpty
  | b::_ => .ok b

structure Rep (rb : Ring) (q : List UInt8) : Prop where
  fits : q.length ≤ rb.capacity
  within : rb.readPos < rb.capacity ∨ rb.capacity = 0 ∧ rb.readPos = 0
  ahead : rb.writePos = (rb.readPos+q.length)%rb.capacity
  flag : rb.empty = q.isEmpty
  idle : q = [] → rb.readPos = 0
  cells : window rb.buf rb.capacity rb.readPos q.length = q

namespace Rep
variable {rb : Ring} {q : List UInt8}

theorem empty_iff (h : Rep rb q) : rb.empty = true ↔ q = [] := by
  rw [h.flag, List.isEmpty_iff]

theorem inside (h : Rep rb q) (hq : q ≠ []) : rb.readPos < rb.capacity ∧ 0 < q.length := by
  have hpos : 0 < q.length := length_pos_iff.mpr hq
  have := h.fits
  rcases h.within with hw | ⟨hc,_⟩
  · exact ⟨hw,hpos⟩
  · omega

theorem positions (h : Rep rb q) (hc : 0 < rb.capacity) :
    rb.readPos < rb.capacity ∧ rb.writePos < rb.capacity := by
  refine ⟨?_,?_⟩
  · rcases h.within with hw | hw <;> omega
  · rw [h.ahead]
    exact Nat.mod_lt _ hc

theorem writePos_eq (h : Rep rb q) (hr : rb.readPos < rb.capacity) :
    rb.writePos = if rb.readPos+q.length < rb.capacity then rb.readPos+q.length
      else rb.readPos+q.length-rb.capacity := h.ahead.trans (mod_cases _ _ _ hr h.fits)

theorem writePos_cases (h : Rep rb q) (hq : q ≠ []) :
    rb.readPos+q.length < rb.capacity ∧ rb.writePos = rb.readPos+q.length ∨
      rb.capacity ≤ rb.readPos+q.length ∧ rb.writePos = rb.readPos+q.length-rb.capacity := by
  have hw := h.writePos_eq (h.inside hq).1
  split at hw
  · exact Or.inl ⟨‹_›,hw⟩
  · exact Or.inr ⟨by omega,hw⟩

theorem at_rest (h : Rep rb []) : rb.readPos = 0 ∧ rb.writePos = 0 ∧ rb.empty = true := by
  have hr := h.idle rfl
  refine ⟨hr,?_,h.empty_iff.mpr rfl⟩
  rw [h.ahead, hr]
  exact Nat.zero_mod _

theorem buffered_eq (h : Rep rb q) : rb.buffered = q.length := by
  by_cases hq : q = []
  · subst hq
    obtain ⟨hr,hw,he⟩ := h.at_rest
    rw [Ring.buffered, hr, hw, if_pos he]
    rfl
  have hf : ¬rb.empty = true := fun he => hq (h.empty_iff.mp he)
  have hi := h.inside hq
  have hc := h.fits
  rw [Ring.buffered]
  rcases h.writePos_cases hq with ⟨h1,h2⟩ | ⟨h1,h2⟩ <;> split_ifs <;> omega

theorem available_eq (h : Rep rb q) : rb.available = rb.capacity-q.length := by
  by_cases hq : q = []
  · subst hq
    obtain ⟨hr,hw,he⟩ := h.at_rest
    rw [Ring.available, hr, hw, if_pos he]
    rfl
  have hf : ¬rb.empty = true := fun he => hq (h.empty_iff.mp he)
  have hi := h.inside hq
  have hc := h.fits
  rw [Ring.available]
  rcases h.writePos_cases hq with ⟨h1,h2⟩ | ⟨h1,h2⟩ <;> split_ifs <;> omega

theorem first (h : Rep rb q) (n : ℕ) : window rb.buf rb.capacity rb.readPos (min n q.length) = q.take n := by
  conv_rhs => rw [← h.cells, take_window]

theorem segments (h : Rep rb q) (hq : q ≠ []) {n : ℕ} (hn : n ≤ q.length) :
    (if n ≤ rb.capacity-rb.readPos then segment rb.buf rb.readPos n
      else segment rb.buf rb.readPos (rb.capacity-rb.readPos)++
        segment rb.buf 0 (n-(rb.capacity-rb.readPos))) = q.take n := by
  have hi := h.inside hq
  have hc := h.fits
  rw [← h.first, Nat.min_eq_left hn]
  split
  · exact (window_eq_segment _ _ _ _ (by omega)).symm
  · rw [window_wrap _ (by omega) (by omega) (by omega),
      show rb.readPos+n-rb.capacity = n-(rb.capacity-rb.readPos) by omega]

theorem straight (h : Rep rb q) (hq : q ≠ []) (hlt : rb.readPos < rb.writePos) {n : ℕ}
    (hn : n ≤ q.length) : segment rb.buf rb.readPos n = q.take n := by
  have hc := h.fits
  rw [← h.segments hq hn, if_pos]
  rcases h.writePos_cases hq with ⟨h1,h2⟩ | ⟨h1,h2⟩ <;> omega

theorem bytes_eq (h : Rep rb q) : rb.bytes = q := by
  by_cases hq : q = []
  · rw [Ring.bytes, if_pos (h.empty_iff.mpr hq), hq]
  have hf : ¬rb.empty = true := fun he => hq (h.empty_iff.mp he)
  have hi := h.inside hq
  have hc := h.fits
  rw [Ring.bytes, if_neg hf]
  split
  · rename_i hlt
    have hw : rb.writePos-rb.readPos = q.length := by
      rcases h.writePos_cases hq with ⟨h1,h2⟩ | ⟨h1,h2⟩ <;> omega
    rw [hw, h.straight hq hlt le_rfl, take_length]
  rcases h.writePos_cases hq with ⟨h1,h2⟩ | ⟨h1,h2⟩
  · omega
  have htail : (if 0 < rb.writePos then segment rb.buf 0 rb.writePos else []) =
      segment rb.buf 0 rb.writePos := by
    split
    · rfl
    · rw [show rb.writePos = 0 by omega]
      rfl
  rw [htail, h2, ← window_wrap _ (by omega) hc h1, h.cells]

theorem peekAll_eq {rb : Ring} : rb.peekAll.1++rb.peekAll.2 = rb.bytes := by
  rw [Ring.peekAll, Ring.bytes]
  split_ifs <;> simp

theorem peek_eq (h : Rep rb q) (n : ℤ) :
    (rb.peek n).1++(rb.peek n).2 = if n ≤ 0 then q else q.take n.toNat := by
  by_cases hq : q = []
  · rw [Ring.peek, if_pos (h.empty_iff.mpr hq), hq]
    simp
  have hf : ¬rb.empty = true := fun he => hq (h.empty_iff.mp he)
  rw [Ring.peek, if_neg hf]
  split
  · rw [peekAll_eq, h.bytes_eq]
  rw [h.buffered_eq]
  have hmin : (if q.length < n.toNat then q.length else n.toNat) ≤ q.length := by
    split <;> omega
  have htake : q.take (if q.length < n.toNat then q.length else n.toNat) = q.take n.toNat := by
    split
    · rw [take_length, take_of_length_le (by omega)]
    · rfl
  have hseg := h.segments hq hmin
  dsimp only
  split
  · rename_i hlt
    rw [append_nil, h.straight hq hlt hmin, htake]
  · rw [← htake, ← hseg]
    split_ifs <;> simp

end Rep

/-! ## Moving the read position -/

def Masked (rb : Ring) (k : ℕ) : Prop :=
  (rb.readPos+k) &&& (rb.capacity-1) = (rb.readPos+k)%rb.capacity

instance (rb : Ring) (k : ℕ) : Decidable (Masked rb k) := inferInstanceAs (Decidable (_ = _))

theorem reset_rep (rb : Ring) : Rep rb.reset [] where
  fits := Nat.zero_le _
  within := by
    rcases Nat.eq_zero_or_pos rb.capacity with h | h
    · exact Or.inr ⟨h,rfl⟩
    · exact Or.inl h
  ahead := (Nat.zero_mod _).symm
  flag := rfl
  idle := fun _ => rfl
  cells := rfl

theorem wrapIndex_eq {rb : Ring} (idx : ℕ) (h : 0 < rb.capacity) :
    rb.wrapIndex idx = idx &&& (rb.capacity-1) := by
  rw [Ring.wrapIndex, if_neg (by omega)]

theorem wrapIndex_lt (rb : Ring) (idx : ℕ) (h : 0 < rb.capacity) : rb.wrapIndex idx < rb.capacity := by
  rw [wrapIndex_eq idx h]
  have := Nat.and_le_right (n := idx) (m := rb.capacity-1)
  omega

namespace Rep
variable {rb : Ring} {q : List UInt8}

theorem moved (h : Rep rb q) {k : ℕ} (hk : k < q.length) :
    Rep { rb with readPos := (rb.readPos+k)%rb.capacity } (q.drop k) where
  fits := by
    have := h.fits
    change (q.drop k).length ≤ rb.capacity
    rw [length_drop]
    omega
  within := by
    have := h.fits
    exact Or.inl (Nat.mod_lt _ (by omega))
  ahead := by
    rw [length_drop, Nat.mod_add_mod, h.ahead]
    exact congrArg (· % rb.capacity) (by omega)
  flag := by
    have hq : q ≠ [] := by
      rintro rfl
      exact absurd hk (Nat.not_lt_zero k)
    have hd : q.drop k ≠ [] := by
      rw [Ne, drop_eq_nil_iff]
      omega
    rw [h.flag, isEmpty_eq_false_iff.mpr hq, isEmpty_eq_false_iff.mpr hd]
  idle := by
    intro hd
    rw [drop_eq_nil_iff] at hd
    omega
  cells := by
    rw [window_mod, length_drop, ← drop_window _ (by omega), h.cells]

theorem advanced (h : Rep rb q) (hq : q ≠ []) (k : ℕ) (hpos : 0 < k) (hk : k ≤ q.length) :
    Rep (rb.advance ((rb.readPos+k)%rb.capacity)) (q.drop k) := by
  have hi := h.inside hq
  have hc := h.fits
  rcases Nat.lt_or_eq_of_le hk with hlt | heq
  · have hne : (rb.readPos+k)%rb.capacity ≠ rb.writePos := by
      rw [h.ahead, mod_cases _ _ _ hi.1 (by omega), mod_cases _ _ _ hi.1 hc]
      split_ifs <;> omega
    rw [Ring.advance, if_neg hne]
    exact h.moved hlt
  · rw [Ring.advance, heq, if_pos h.ahead.symm, drop_length]
    exact reset_rep rb

theorem strayed (h : Rep rb q) (hq : q ≠ []) (k : ℕ) {pos : ℕ} (hk : k ≤ q.length) (hpos : pos < rb.capacity)
    (hne : pos ≠ (rb.readPos+k)%rb.capacity) : (rb.advance pos).buffered ≠ q.length-k := by
  have hi := h.inside hq
  have hc := h.fits
  rw [mod_cases _ _ _ hi.1 (by omega)] at hne
  rw [Ring.advance]
  split
  · change 0 ≠ q.length-k
    rcases h.writePos_cases hq with ⟨h1,h2⟩ | ⟨h1,h2⟩ <;> split_ifs at hne <;> omega
  change (if pos = rb.writePos then if rb.empty then 0 else rb.capacity
    else if pos < rb.writePos then rb.writePos-pos else rb.capacity-pos+rb.writePos) ≠ _
  rcases h.writePos_cases hq with ⟨h1,h2⟩ | ⟨h1,h2⟩ <;> split_ifs at hne ⊢ <;> omega

theorem repositioned (h : Rep rb q) {k pos : ℕ} (hk : k < q.length) (hpos : pos < rb.capacity)
    (hne : pos ≠ (rb.readPos+k)%rb.capacity) :
    ({ rb with readPos := pos } : Ring).buffered ≠ (q.drop k).length := by
  have hq : q ≠ [] := by
    rintro rfl
    exact absurd hk (Nat.not_lt_zero _)
  have hstray := h.strayed hq k (by omega) hpos hne
  have hfits := h.fits
  have hf : ¬rb.empty = true := fun he => hq (h.empty_iff.mp he)
  rw [length_drop]
  by_cases hw : pos = rb.writePos
  · change (if pos = rb.writePos then if rb.empty then 0 else rb.capacity else _) ≠ _
    rw [if_pos hw, if_neg hf]
    have := h.inside hq
    by_cases hk0 : k = 0
    · rw [hk0, Nat.add_zero, Nat.mod_eq_of_lt this.1] at hne
      rcases h.writePos_cases hq with ⟨h1,h2⟩ | ⟨h1,h2⟩ <;> omega
    · omega
  · rw [Ring.advance, if_neg hw] at hstray
    exact hstray

theorem read_bytes (h : Rep rb q) (m : ℕ) (hm : 0 < m) :
    (rb.read m).2 = if q = [] then .error .ringEmpty else .ok (q.take m) := by
  rw [Ring.read, if_neg (by omega)]
  by_cases hq : q = []
  · rw [if_pos (h.empty_iff.mpr hq), if_pos hq]
  have hf : ¬rb.empty = true := fun he => hq (h.empty_iff.mp he)
  rw [if_neg hf, h.buffered_eq]
  have hmin : (if m < q.length then m else q.length) ≤ q.length := by split <;> omega
  have htake : q.take (if m < q.length then m else q.length) = q.take m := by
    split
    · rfl
    · rw [take_length, take_of_length_le (by omega)]
  dsimp only
  split
  · rename_i hlt
    rw [h.straight hq hlt hmin, htake]
  · rw [h.segments hq hmin, htake]

theorem read_state (h : Rep rb q) (hq : q ≠ []) (m : ℕ) (hm : 0 < m) :
    (rb.read m).1 = rb.advance (if rb.readPos < rb.writePos then rb.readPos+min m q.length
      else rb.wrapIndex (rb.readPos+min m q.length)) := by
  have hf : ¬rb.empty = true := fun he => hq (h.empty_iff.mp he)
  have hmin : (if m < q.length then m else q.length) = min m q.length := by
    split <;> omega
  rw [Ring.read, if_neg (by omega), if_neg hf, h.buffered_eq, hmin]
  split <;> rfl

theorem drop_min {q : List UInt8} {m : ℕ} : q.drop (min m q.length) = q.drop m := by
  rcases Nat.le_total m q.length with hle | hle
  · rw [Nat.min_eq_left hle]
  · rw [Nat.min_eq_right hle, drop_length, drop_eq_nil_of_le hle]

theorem read_rep_iff (h : Rep rb q) (hq : q ≠ []) (m : ℕ) (hm : 0 < m) :
    ((rb.writePos ≤ rb.readPos → Masked rb (min m q.length)) → Rep (rb.read m).1 (q.drop m)) ∧
      (¬(rb.writePos ≤ rb.readPos → Masked rb (min m q.length)) →
        (rb.read m).1.buffered ≠ (q.drop m).length) := by
  have hi := h.inside hq
  have hc := h.fits
  rw [h.read_state hq m hm]
  constructor
  · intro hmask
    rw [← drop_min]
    by_cases hlt : rb.readPos < rb.writePos
    · have hw : rb.readPos+q.length = rb.writePos := by
        rcases h.writePos_cases hq with ⟨h1,h2⟩ | ⟨h1,h2⟩ <;> omega
      have hsmall : rb.writePos < rb.capacity := by
        rw [h.ahead]
        exact Nat.mod_lt _ (by omega)
      rw [if_pos hlt, ← Nat.mod_eq_of_lt (show rb.readPos+min m q.length < rb.capacity by omega)]
      exact h.advanced hq _ (by omega) (by omega)
    · rw [if_neg hlt, wrapIndex_eq _ (by omega), hmask (by omega)]
      exact h.advanced hq _ (by omega) (by omega)
  intro hmask
  rw [Classical.not_imp] at hmask
  rw [if_neg (by omega), length_drop]
  have hne := h.strayed hq (min m q.length) (by omega)
    (wrapIndex_lt rb (rb.readPos+min m q.length) (by omega))
    (by rw [wrapIndex_eq _ (by omega)]; exact hmask.2)
  omega

theorem readByte_bytes (h : Rep rb q) : rb.readByte.2 = oldest q := by
  cases q with
  | nil =>
    rw [Ring.readByte, if_pos (h.empty_iff.mpr rfl)]
    rfl
  | cons b bs =>
    have hf : ¬rb.empty = true := fun he => cons_ne_nil b bs (h.empty_iff.mp he)
    have hi := h.inside (cons_ne_nil b bs)
    have hfirst := h.first 1
    rw [window_eq_segment _ _ _ _ (by omega)] at hfirst
    rw [Ring.readByte, if_neg hf]
    exact congrArg Except.ok (List.cons.inj hfirst).1

theorem readByte_rep (h : Rep rb q) : Rep rb.readByte.1 q.tail := by
  by_cases hq : q = []
  · subst hq
    rw [Ring.readByte, if_pos (h.empty_iff.mpr rfl)]
    exact h
  have hf : ¬rb.empty = true := fun he => hq (h.empty_iff.mp he)
  have hi := h.inside hq
  have hpos : (if rb.readPos+1 = rb.capacity then 0 else rb.readPos+1) = (rb.readPos+1)%rb.capacity := by
    rw [mod_cases _ _ _ hi.1 (by omega)]
    split_ifs <;> omega
  rw [Ring.readByte, if_neg hf, ← drop_one]
  dsimp only
  rw [hpos]
  exact h.advanced hq 1 (by omega) (by omega)

theorem discard_count (h : Rep rb q) (n : ℤ) : (rb.discard n).2 = min n.toNat q.length := by
  rw [Ring.discard, h.buffered_eq]
  split_ifs <;> dsimp only <;> omega

theorem discard_rep_iff (h : Rep rb q) (n : ℤ) :
    ((0 < n → n.toNat < q.length → Masked rb n.toNat) → Rep (rb.discard n).1 (q.drop n.toNat)) ∧
      (¬(0 < n → n.toNat < q.length → Masked rb n.toNat) →
        (rb.discard n).1.buffered ≠ (q.drop n.toNat).length) := by
  rw [Ring.discard, h.buffered_eq]
  by_cases hn : n ≤ 0
  · rw [if_pos hn, Int.toNat_eq_zero.mpr hn]
    exact ⟨fun _ => h,fun hno => absurd (fun hpos => absurd hn (by omega)) hno⟩
  rw [if_neg hn]
  by_cases hlt : n.toNat < q.length
  · have hq : q ≠ [] := by
      rintro rfl
      exact absurd hlt (Nat.not_lt_zero _)
    have hi := h.inside hq
    rw [if_pos hlt]
    constructor
    · intro hmask
      rw [wrapIndex_eq _ (by omega), hmask (by omega) hlt]
      exact h.moved hlt
    intro hmask
    refine h.repositioned hlt (wrapIndex_lt rb _ (by omega)) ?_
    rw [wrapIndex_eq _ (by omega)]
    exact fun heq => hmask (fun _ _ => heq)
  · rw [if_neg hlt, drop_eq_nil_of_le (by omega)]
    exact ⟨fun _ => reset_rep rb,fun hno => absurd (fun _ hl => absurd hl hlt) hno⟩

end Rep

/-! ## Writing -/

theorem le_quarterLoop (minCap fuel newCap : ℕ) (h4 : 4 ≤ newCap) (hf : minCap ≤ newCap+fuel) :
    minCap ≤ Ring.quarterLoop minCap fuel newCap := by
  induction fuel generalizing newCap with
  | zero => exact hf
  | succ fuel ih =>
    rw [Ring.quarterLoop]
    split
    · exact ih (newCap+newCap/4) (by omega) (by omega)
    · omega

theorem le_calculateGrowth (rb : Ring) (minCap : ℕ) : minCap ≤ rb.calculateGrowth minCap := by
  have hquarter := le_quarterLoop minCap minCap rb.capacity
  have hceil := le_ceilToPowerOfTwo minCap
  rw [Ring.calculateGrowth]
  dsimp only
  split_ifs with h0 h1 h2 h3 h4
  · exact h1
  · exact hceil
  · exact h2
  · exact hquarter (by rw [ringGrowThreshold] at h3; omega) (by omega)
  · exact le_rfl
  · exact le_rfl

namespace Rep
variable {rb : Ring} {q : List UInt8}

theorem grow_larger (h : Rep rb q) (fresh : Cells) {minCap : ℕ}
    (hcap : q.length < rb.calculateGrowth minCap) : Rep (rb.grow fresh minCap) q := by
  have hread := h.read_bytes (rb.calculateGrowth minCap) (by omega)
  refine ⟨?_,Or.inl ?_,?_,?_,fun _ => rfl,?_⟩
  · exact le_of_lt (by omega : q.length < rb.calculateGrowth minCap)
  · exact (by omega : 0 < rb.calculateGrowth minCap)
  · change rb.buffered = (0+q.length)%rb.calculateGrowth minCap
    rw [h.buffered_eq, Nat.zero_add, Nat.mod_eq_of_lt (by omega)]
  · change (if 0 < rb.buffered then false else (rb.read (rb.calculateGrowth minCap)).1.empty) = _
    rw [h.buffered_eq]
    cases q with
    | nil =>
      rw [if_neg (by simp), Ring.read, if_neg (by omega), if_pos (h.empty_iff.mpr rfl)]
      exact h.flag
    | cons b bs => rfl
  simp only [Ring.grow, hread]
  rw [window_eq_segment _ _ _ _ (by omega)]
  by_cases hq : q = []
  · subst hq
    rfl
  · rw [if_neg hq, take_of_length_le (by omega)]
    exact segment_store fresh 0 q

theorem grow_rep (h : Rep rb q) (fresh : Cells) {minCap : ℕ} (hm : q.length < minCap) :
    Rep (rb.grow fresh minCap) q :=
  h.grow_larger fresh (lt_of_lt_of_le hm (le_calculateGrowth rb minCap))

end Rep

theorem place_eq {rb : Ring} (p : List UInt8) (hw : rb.writePos < rb.capacity)
    (hp : p.length ≤ rb.capacity) (hr : rb.writePos < rb.readPos → rb.writePos+p.length < rb.capacity) :
    rb.place p = { rb with
      buf := if rb.writePos+p.length ≤ rb.capacity then store rb.buf rb.writePos p
        else store (store rb.buf rb.writePos (p.take (rb.capacity-rb.writePos))) 0
          (p.drop (rb.capacity-rb.writePos))
      writePos := (rb.writePos+p.length)%rb.capacity
      empty := false } := by
  rw [mod_cases _ _ _ hw hp, Ring.place]
  by_cases hfit : rb.writePos+p.length ≤ rb.capacity
  · have hcopy : ∀ x y : Ring, (if rb.readPos ≤ rb.writePos then
        if p.length ≤ rb.capacity-rb.writePos then x else y else x) = x := by
      intro x y
      rw [if_pos (show p.length ≤ rb.capacity-rb.writePos by omega), ite_self]
    rw [if_pos hfit]
    rw [hcopy]
    dsimp only
    congr 1
    split_ifs <;> omega
  rw [if_pos (show rb.readPos ≤ rb.writePos by omega), if_neg hfit]
  rw [if_neg (show ¬p.length ≤ rb.capacity-rb.writePos by omega)]
  dsimp only
  congr 1
  split_ifs <;> omega

namespace Rep
variable {rb : Ring} {q : List UInt8}

theorem place_rep (h : Rep rb q) {p : List UInt8} (hp : p ≠ []) (hfit : q.length+p.length ≤ rb.capacity) :
    Rep (rb.place p) (q++p) := by
  have hlen : 0 < p.length := length_pos_iff.mpr hp
  obtain ⟨hr,hw⟩ := h.positions (by omega)
  have hpos := h.writePos_eq hr
  rw [place_eq p hw (by omega) (by split_ifs at hpos <;> omega)]
  refine ⟨?_,Or.inl hr,?_,?_,?_,?_⟩
  · rw [length_append]
    exact hfit
  · rw [h.ahead, Nat.mod_add_mod, length_append, Nat.add_assoc]
  · rw [isEmpty_eq_false_iff.mpr (append_ne_nil_of_right_ne_nil q hp)]
  · exact fun hnil => absurd hnil (append_ne_nil_of_right_ne_nil q hp)
  have hwhole := h.ahead
  rw [length_append, hwhole]
  split
  · rw [window_store _ _ _ hr hfit ‹_›, h.cells]
  · rw [window_store_wrap _ hr hfit (by omega), h.cells]

theorem write_rep (h : Rep rb q) (fresh : Cells) (p : List UInt8) :
    Rep (rb.write fresh p).1 (q++p) ∧ (rb.write fresh p).2 = p.length := by
  by_cases hp : p = []
  · subst hp
    rw [append_nil]
    exact ⟨h,rfl⟩
  have hlen : 0 < p.length := length_pos_iff.mpr hp
  have hc := h.fits
  rw [Ring.write, if_neg (by omega), h.available_eq]
  refine ⟨?_,rfl⟩
  change Rep (Ring.place p (if _ then _ else _)) _
  split
  · have hcap := le_calculateGrowth rb (rb.capacity+p.length-(rb.capacity-q.length))
    exact (h.grow_rep fresh (by omega)).place_rep hp
      (le_trans (by omega) hcap)
  · exact h.place_rep hp (by omega)

end Rep

theorem newRing_rep (fresh : Cells) (capacity : ℤ) : Rep (newRing fresh capacity) [] := by
  have hpos : 0 < ceilToPowerOfTwo capacity := by
    rw [ceilToPowerOfTwo]
    split <;> positivity
  rw [newRing]
  split
  · exact ⟨le_rfl,Or.inr ⟨rfl,rfl⟩,rfl,rfl,fun _ => rfl,rfl⟩
  · exact ⟨Nat.zero_le _,Or.inl hpos,(Nat.zero_mod _).symm,rfl,fun _ => rfl,rfl⟩

end GoCommon.RingContents
