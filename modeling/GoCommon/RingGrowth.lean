import GoCommon.RingTransfer

/-!
# Room made by growing

Before bytes are added the array is replaced where they do not fit. A write and
a round of reading ask for a capacity, a write of one byte asks for one byte. The
request is taken as a capacity in all cases, so that a large array that is full
is replaced by one of the same size and the byte is written behind its end.
-/

set_option autoImplicit false

namespace GoCommon.RingGrowth
open List RingBuffer RingContents RingTransfer

def putByte (c : UInt8) (rb : Ring) : Option Ring :=
  if rb.writePos < rb.capacity then some { rb with
    buf := CircularWindow.store rb.buf rb.writePos [c]
    writePos := if rb.writePos+1 = rb.capacity then 0 else rb.writePos+1
    empty := false }
  else none

def writeByte (fresh : Cells) (c : UInt8) (rb : Ring) : Option Ring :=
  putByte c (if rb.available < 1 then rb.grow fresh 1 else rb)

inductive Obtained : Ring → Prop
  | new (fresh : Cells) (capacity : ℤ) : Obtained (newRing fresh capacity)
  | write (fresh : Cells) (p : List UInt8) {rb : Ring} (h : Obtained rb) :
      Obtained (rb.write fresh p).1
  | writeByte (fresh : Cells) (c : UInt8) {rb rb' : Ring} (h : Obtained rb)
      (hw : writeByte fresh c rb = some rb') : Obtained rb'
  | round (fresh : Cells) (r : Reader) {rb : Ring} (h : Obtained rb) :
      Obtained (readFromOnce r (ensureRoom fresh rb)).ring
  | read (m : ℕ) {rb : Ring} (h : Obtained rb) : Obtained (rb.read m).1
  | readByte {rb : Ring} (h : Obtained rb) : Obtained rb.readByte.1
  | discard (n : ℤ) {rb : Ring} (h : Obtained rb) : Obtained (rb.discard n).1
  | writeTo (first second : Answer) {rb : Ring} (h : Obtained rb) :
      Obtained (writeTo first second rb).1
  | reset {rb : Ring} (h : Obtained rb) : Obtained rb.reset

/-! ## Slices -/

structure Slice where
  lo : ℕ
  hi : ℕ
  len : ℕ
  deriving DecidableEq, Repr

def Slice.InRange (s : Slice) : Prop := s.lo ≤ s.hi ∧ s.hi ≤ s.len

def readSlices (m : ℕ) (rb : Ring) : List Slice :=
  if m = 0 then []
  else if rb.empty then []
  else
    let toRead := if m < rb.buffered then m else rb.buffered
    if rb.readPos < rb.writePos then [⟨rb.readPos,rb.readPos+toRead,rb.capacity⟩]
    else
      let headLen := rb.capacity-rb.readPos
      if toRead ≤ headLen then [⟨rb.readPos,rb.readPos+toRead,rb.capacity⟩]
      else [⟨rb.readPos,rb.capacity,rb.capacity⟩,⟨headLen,m,m⟩,⟨0,toRead-headLen,rb.capacity⟩]

def placeSlices (p : List UInt8) (rb : Ring) : List Slice :=
  if rb.readPos ≤ rb.writePos then
    let headSpace := rb.capacity-rb.writePos
    if p.length ≤ headSpace then [⟨rb.writePos,rb.capacity,rb.capacity⟩]
    else [⟨rb.writePos,rb.capacity,rb.capacity⟩,⟨0,headSpace,p.length⟩,
      ⟨headSpace,p.length,p.length⟩]
  else [⟨rb.writePos,rb.capacity,rb.capacity⟩]

def roundSlices (r : Reader) (rb : Ring) : List Slice :=
  if rb.readPos ≤ rb.writePos then
    if (r.reply (rb.capacity-rb.writePos)).err.isSome then
      [⟨rb.writePos,rb.capacity,rb.capacity⟩]
    else [⟨rb.writePos,rb.capacity,rb.capacity⟩,⟨0,rb.readPos,rb.capacity⟩]
  else [⟨rb.writePos,rb.readPos,rb.capacity⟩]

/-! ## Calls that grow -/

inductive Call where
  | write (fresh : Cells) (p : List UInt8)
  | writeByte (fresh : Cells) (c : UInt8)
  | round (fresh : Cells) (r : Reader)

namespace Call

def room : Call → ℕ
  | .write _ p => p.length
  | .writeByte _ _ => 1
  | .round _ _ => minReadSize

def fresh : Call → Cells
  | .write fresh _ => fresh
  | .writeByte fresh _ => fresh
  | .round fresh _ => fresh

def minCap : Call → Ring → ℕ
  | .write _ p, rb => rb.capacity+p.length-rb.available
  | .writeByte _ _, _ => 1
  | .round _ _, rb => rb.buffered+minReadSize

def prepared (c : Call) (rb : Ring) : Ring :=
  if rb.available < c.room then rb.grow c.fresh (c.minCap rb) else rb

def slices : Call → Ring → List Slice
  | .write _ p, rb => if p.length = 0 then [] else placeSlices p rb
  | .writeByte _ _, rb => [⟨rb.writePos,rb.writePos+1,rb.capacity⟩]
  | .round _ r, rb => roundSlices r rb

def allSlices (c : Call) (rb : Ring) : List Slice :=
  (if rb.available < c.room then readSlices (rb.calculateGrowth (c.minCap rb)) rb else [])++
    c.slices (c.prepared rb)

end Call

/-- There is the room that the call needs, every slice is in range and growing
has not changed the bytes. -/
structure MakesRoom (c : Call) (rb : Ring) : Prop where
  room : (c.prepared rb).buffered+c.room ≤ (c.prepared rb).capacity
  inRange : ∀ s ∈ c.allSlices rb, s.InRange
  contents : (c.prepared rb).bytes = rb.bytes

def Grows : Call → Ring → Prop
  | .writeByte _ _, rb => rb.buffered = rb.capacity → rb.capacity < ringGrowThreshold
  | _, _ => True

theorem write_prepared {fresh : Cells} {p : List UInt8} (hp : p ≠ []) (rb : Ring) :
    (rb.write fresh p).1 = ((Call.write fresh p).prepared rb).place p := by
  rw [Ring.write, if_neg (by simpa using hp)]
  rfl

variable {rb : Ring}

theorem writeByte_prepared {fresh : Cells} {c : UInt8} :
    writeByte fresh c rb = putByte c ((Call.writeByte fresh c).prepared rb) := rfl

/-! ## Obtained rings hold their bytes -/

section Formed

theorem rep_self {q : List UInt8} (h : Rep rb q) : Rep rb rb.bytes := by
  rw [h.bytes_eq]
  exact h

theorem formed (hr : rb.readPos < rb.capacity) (hw : rb.writePos < rb.capacity)
    (he : rb.empty = false) : Rep rb rb.bytes := (rep_iff_bytes rb _ hr hw he).mpr rfl

theorem capacity_pos (h : Rep rb rb.bytes) (he : rb.empty = false) : 0 < rb.capacity := by
  have hq : rb.bytes ≠ [] := fun hq => by
    rw [h.empty_iff.mpr hq] at he
    cases he
  have := h.inside hq
  omega

theorem advance_formed (h : Rep rb rb.bytes) (he : rb.empty = false) {pos : ℕ}
    (hpos : pos < rb.capacity) : Rep (rb.advance pos) (rb.advance pos).bytes := by
  obtain ⟨_,hw⟩ := h.positions (capacity_pos h he)
  rw [Ring.advance]
  split
  · exact rep_self (reset_rep rb)
  · exact formed hpos hw he

theorem read_formed (h : Rep rb rb.bytes) (m : ℕ) : Rep (rb.read m).1 (rb.read m).1.bytes := by
  by_cases hm : m = 0
  · rw [Ring.read, if_pos hm]
    exact h
  cases he : rb.empty with
  | true =>
    rw [Ring.read, if_neg hm, if_pos he]
    exact h
  | false =>
    have hq : rb.bytes ≠ [] := fun hq => by
      rw [h.empty_iff.mpr hq] at he
      cases he
    have hc := capacity_pos h he
    have hfit := h.fits
    rw [h.read_state hq m (by omega)]
    refine advance_formed h he ?_
    split
    · rcases h.writePos_cases hq with ⟨h1,h2⟩ | ⟨h1,h2⟩ <;> omega
    · exact wrapIndex_lt rb _ hc

theorem writeTo_formed (h : Rep rb rb.bytes) (first second : Answer) :
    Rep (writeTo first second rb).1 (writeTo first second rb).1.bytes := by
  cases he : rb.empty with
  | true =>
    rw [writeTo, if_pos he]
    exact h
  | false =>
    have hc := capacity_pos h he
    obtain ⟨hr,hw⟩ := h.positions hc
    have hmoved : ∀ pos, rb.wrapIndex pos < rb.capacity := fun pos => wrapIndex_lt rb pos hc
    rw [writeTo, if_neg (by simp [he])]
    split
    · refine advance_formed h he ?_
      have : first.count (rb.writePos-rb.readPos) ≤ rb.writePos-rb.readPos := min_le_right ..
      omega
    dsimp only
    split
    · exact formed (hmoved _) hw he
    · have hcount : second.count rb.writePos ≤ rb.writePos := min_le_right ..
      exact advance_formed (@formed { rb with readPos := rb.wrapIndex _ } (hmoved _) hw he)
        he (lt_of_le_of_lt hcount hw)

theorem putByte_place {c : UInt8} {rb' : Ring} (h : putByte c rb = some rb') :
    rb.writePos < rb.capacity ∧ rb' = rb.place [c] := by
  unfold putByte at h
  split at h
  · rename_i hlt
    cases h
    have hone : ([c] : List UInt8).length ≤ rb.capacity-rb.writePos := by
      simp only [length_singleton]
      omega
    refine ⟨hlt,?_⟩
    rw [Ring.place, if_pos hone, ite_self]
    rfl
  · cases h

end Formed

/-! ## Growing -/

theorem quarterLoop_done (minCap fuel newCap : ℕ) (h : minCap ≤ newCap) :
    Ring.quarterLoop minCap fuel newCap = newCap := by
  cases fuel with
  | zero => rfl
  | succ fuel => rw [Ring.quarterLoop, if_neg (by omega)]

theorem calculateGrowth_one : rb.calculateGrowth 1 =
    if rb.capacity = 0 then defaultRingCap
    else if rb.capacity < ringGrowThreshold then rb.capacity*2 else rb.capacity := by
  rw [Ring.calculateGrowth]
  split
  · rfl
  · rw [if_pos (by omega), quarterLoop_done 1 1 rb.capacity (by omega),
      if_pos (show 0 < rb.capacity by omega)]

theorem readSlices_inRange (h : Rep rb rb.bytes) {m : ℕ} : ∀ s ∈ readSlices m rb, s.InRange := by
  unfold readSlices
  split
  · simp
  split
  · simp
  rename_i hm he
  have hq : rb.bytes ≠ [] := fun hq => he (h.empty_iff.mpr hq)
  have hfit := h.fits
  have hi := h.inside hq
  have hread : (if m < rb.buffered then m else rb.buffered) ≤ min m rb.bytes.length := by
    rw [h.buffered_eq]
    split <;> omega
  generalize (if m < rb.buffered then m else rb.buffered) = toRead at hread ⊢
  dsimp only
  split
  · rcases h.writePos_cases hq with ⟨h1,h2⟩ | ⟨h1,h2⟩
    · simp only [mem_singleton, forall_eq, Slice.InRange]
      omega
    · omega
  split
  · simp only [mem_singleton, forall_eq, Slice.InRange]
    omega
  · simp only [mem_cons, not_mem_nil, or_false, forall_eq_or_imp, forall_eq,
      Slice.InRange]
    omega

section Room

theorem enough (h : Rep rb rb.bytes) {c : Call} (hc : Grows c rb) (hfull : rb.available < c.room) :
    rb.bytes.length+c.room ≤ rb.calculateGrowth (c.minCap rb) := by
  have hfit := h.fits
  rw [h.available_eq] at hfull
  cases c with
  | write fresh p =>
    refine le_trans ?_ (le_calculateGrowth rb _)
    simp only [Call.minCap, h.available_eq, Call.room] at hfull ⊢
    omega
  | writeByte fresh b =>
    simp only [Call.room, Grows, h.buffered_eq] at hfull hc
    simp only [Call.minCap, Call.room, calculateGrowth_one]
    have hlen : rb.bytes.length = rb.capacity := by omega
    rw [if_pos (hc hlen)]
    split
    · rw [defaultRingCap]
      omega
    · omega
  | round fresh r =>
    refine le_trans ?_ (le_calculateGrowth rb _)
    simp only [Call.minCap, h.buffered_eq, Call.room]
    exact le_rfl

theorem prepared_rep (h : Rep rb rb.bytes) {c : Call} (hc : Grows c rb) :
    Rep (c.prepared rb) rb.bytes ∧ rb.bytes.length+c.room ≤ (c.prepared rb).capacity := by
  have hfit := h.fits
  rw [Call.prepared]
  split
  · rename_i hfull
    have hroom := enough h hc hfull
    exact ⟨h.grow_larger _ (by omega),hroom⟩
  · rename_i hfull
    rw [h.available_eq] at hfull
    exact ⟨h,by omega⟩

theorem prepared_full (h : Rep rb rb.bytes) {c : Call} (hc : ¬Grows c rb) :
    (c.prepared rb).capacity = rb.capacity ∧ (c.prepared rb).writePos = rb.capacity ∧
      (c.prepared rb).buffered = rb.capacity ∧ c.room = 1 := by
  cases c with
  | write fresh p => exact (hc trivial).elim
  | round fresh r => exact (hc trivial).elim
  | writeByte fresh b =>
    simp only [Grows, Classical.not_imp] at hc
    obtain ⟨hfull,hlarge⟩ := hc
    have hpos : 0 < rb.capacity := by
      rw [ringGrowThreshold] at hlarge
      omega
    have hnone : rb.available < (Call.writeByte fresh b).room := by
      rw [Call.room, h.available_eq, ← h.buffered_eq]
      omega
    have hcap : rb.calculateGrowth 1 = rb.capacity := by
      rw [calculateGrowth_one, if_neg (by omega), if_neg hlarge]
    rw [Call.prepared, if_pos hnone]
    refine ⟨hcap,hfull,?_,rfl⟩
    change (if 0 = rb.buffered then _ else if 0 < rb.buffered then rb.buffered-0 else _) = _
    rw [if_neg (by omega), if_pos (by omega), Nat.sub_zero, hfull]

theorem slices_inRange {g : Ring} {q : List UInt8} (h : Rep g q) {c : Call}
    (hroom : q.length+c.room ≤ g.capacity) : ∀ s ∈ c.slices g, s.InRange := by
  cases c with
  | write fresh p =>
    rw [Call.slices]
    split
    · simp
    have hp : 0 < g.capacity := by
      simp only [Call.room] at hroom
      omega
    obtain ⟨hr,hw⟩ := h.positions hp
    unfold placeSlices
    split
    · dsimp only
      split
      · simp only [mem_singleton, forall_eq, Slice.InRange]
        omega
      · simp only [mem_cons, not_mem_nil, or_false, forall_eq_or_imp, forall_eq,
          Slice.InRange]
        omega
    · simp only [mem_singleton, forall_eq, Slice.InRange]
      omega
  | writeByte fresh b =>
    simp only [Call.room] at hroom
    obtain ⟨hr,hw⟩ := h.positions (by omega)
    simp only [Call.slices, mem_singleton, forall_eq, Slice.InRange]
    omega
  | round fresh r =>
    simp only [Call.room, minReadSize] at hroom
    obtain ⟨hr,hw⟩ := h.positions (by omega)
    rw [Call.slices]
    unfold roundSlices
    split
    · split
      · simp only [mem_singleton, forall_eq, Slice.InRange]
        omega
      · simp only [mem_cons, not_mem_nil, or_false, forall_eq_or_imp, forall_eq,
          Slice.InRange]
        omega
    · simp only [mem_singleton, forall_eq, Slice.InRange]
      omega

end Room

/-! ## Obtained rings -/

theorem obtained_rep (h : Obtained rb) : Rep rb rb.bytes := by
  induction h with
  | new fresh capacity => exact rep_self (newRing_rep fresh capacity)
  | write fresh p h ih => exact rep_self (ih.write_rep fresh p).1
  | @writeByte fresh c rb rb' h hw ih =>
    rw [writeByte_prepared] at hw
    obtain ⟨hlt,rfl⟩ := putByte_place hw
    by_cases hfits : Grows (.writeByte fresh c) rb
    · obtain ⟨hrep,hroom⟩ := prepared_rep ih hfits
      exact rep_self (hrep.place_rep (by simp) hroom)
    · obtain ⟨hcap,hpos,_⟩ := prepared_full ih hfits
      omega
  | @round fresh r rb h ih =>
    obtain ⟨hrep,hroom⟩ := ensureRoom_rep fresh ih
    obtain ⟨hr,_⟩ := hrep.positions (by omega)
    obtain ⟨hcap,hread,he,hw⟩ := readFromOnce_shape r (ensureRoom fresh rb) (by omega)
    exact formed (by rw [hcap, hread]; exact hr) (by rw [hcap]; exact hw) he
  | read m h ih => exact read_formed ih m
  | @readByte rb h ih =>
    cases he : rb.empty with
    | true =>
      rw [Ring.readByte, if_pos he]
      exact ih
    | false =>
      have hc := capacity_pos ih he
      obtain ⟨hr,_⟩ := ih.positions hc
      rw [Ring.readByte, if_neg (by simp [he])]
      refine advance_formed ih he ?_
      split <;> omega
  | @discard n rb h ih =>
    rw [Ring.discard]
    split
    · exact ih
    split
    · rename_i hn hlt
      have he : rb.empty = false := by
        rw [ih.buffered_eq] at hlt
        rw [ih.flag]
        exact isEmpty_eq_false_iff.mpr (length_pos_iff.mp (by omega))
      have hc := capacity_pos ih he
      exact formed (wrapIndex_lt rb _ hc) (ih.positions hc).2 he
    · exact rep_self (reset_rep rb)
  | writeTo first second h ih => exact writeTo_formed ih first second
  | reset h ih => exact rep_self (reset_rep _)

/-- In every ring that calls lead to, a call finds the room it needs exactly if it
does not write one byte to a large ring that is full. -/
theorem growth_makes_room_iff (rb : Ring) (h : Obtained rb) (c : Call) :
    MakesRoom c rb ↔ Grows c rb := by
  have hrep := obtained_rep h
  constructor
  · intro hm
    by_contra hno
    obtain ⟨hcap,_,hbuf,hone⟩ := prepared_full hrep hno
    have := hm.room
    omega
  intro hc
  obtain ⟨hp,hroom⟩ := prepared_rep hrep hc
  refine ⟨by rw [hp.buffered_eq]; exact hroom,fun s hs => ?_,hp.bytes_eq⟩
  rcases mem_append.mp hs with hs | hs
  · split at hs
    · exact readSlices_inRange hrep s hs
    · cases hs
  · exact slices_inRange hp hroom s hs

/-- A ring of four that is full, its bytes around the end of the array, grows for a write of
three bytes and for one of one byte. -/
theorem full_wrapped_ring_grows :
    let empty := newRing (fun _ => 0) 4
    let rb := (((empty.write (fun _ => 0) [1,2,3,4]).1.discard 2).1.write (fun _ => 0) [5,6]).1
    Obtained rb ∧ rb.buffered = 4 ∧ rb.capacity = 4 ∧ rb.readPos = 2 ∧
      ((Call.write (fun _ => 0) [7,8,9]).prepared rb).capacity = 8 ∧
      MakesRoom (.write (fun _ => 0) [7,8,9]) rb ∧ MakesRoom (.writeByte (fun _ => 0) 7) rb := by
  intro empty rb
  have hreach : Obtained rb := .write _ _ (.discard 2 (.write _ _ (.new _ _)))
  exact ⟨hreach,by decide,by decide,by decide,by decide,
    (growth_makes_room_iff rb hreach _).mpr trivial,
    (growth_makes_room_iff rb hreach _).mpr (fun _ => by decide)⟩

theorem place_capacity {p : List UInt8} : (rb.place p).capacity = rb.capacity := by
  rw [Ring.place]
  dsimp only
  split_ifs <;> rfl

/-- The byte after 4096 bytes in a ring of 4096 is written out of range. -/
theorem full_ring_byte_out_of_range :
    let rb := ((newRing (fun _ => 0) 4096).write (fun _ => 0) (List.replicate 4096 1)).1
    Obtained rb ∧ rb.capacity = 4096 ∧ rb.buffered = 4096 ∧
      ((Call.writeByte (fun _ => 0) 7).prepared rb).capacity = 4096 ∧
      writeByte (fun _ => 0) 7 rb = none := by
  intro rb
  have hreach : Obtained rb := .write _ _ (.new _ _)
  have hnew : (newRing (fun _ => 0) 4096).capacity = 4096 := by decide
  have hfree : (newRing (fun _ => 0) 4096).available = 4096 := by decide
  have hcap : rb.capacity = 4096 := by
    have hne : List.replicate 4096 (1 : UInt8) ≠ [] := ne_nil_of_length_pos
      (by rw [length_replicate]; omega)
    change (Ring.write _ _ _).1.capacity = _
    rw [write_prepared hne, place_capacity, Call.prepared, if_neg, hnew]
    rw [Call.room, length_replicate]
    omega
  have hbuf : rb.buffered = 4096 := by
    have hrep := ((newRing_rep (fun _ => 0) 4096).write_rep (fun _ => 0) (List.replicate 4096 1)).1
    rw [hrep.buffered_eq, nil_append, length_replicate]
  have hfull : ¬Grows (.writeByte (fun _ => 0) 7) rb := by
    simp only [Grows, hbuf, hcap, ringGrowThreshold]
    decide
  obtain ⟨h1,h2,_⟩ := prepared_full (obtained_rep hreach) hfull
  refine ⟨hreach,hcap,hbuf,h1.trans hcap,?_⟩
  rw [writeByte_prepared, putByte, if_neg (by omega)]

end GoCommon.RingGrowth
