import GoCommon.RingContents

/-!
# Transfers between a ring and a stream

A ring is filled from a reader in rounds until the reader returns an error. A
round reads into the room behind the bytes and then into the room in front of
them. It marks the ring as not empty whatever has been read, and the bytes of the
second read count as if they followed those of the first. A writer gets the
bytes in at most two pieces.
-/

set_option autoImplicit false

namespace GoCommon.RingTransfer
open List CircularWindow RingBuffer RingContents

inductive StreamError where
  | eof
  | shortWrite
  | failed
  deriving DecidableEq, Repr

structure Reply where
  bytes : List UInt8
  err : Option StreamError
  deriving DecidableEq, Repr

structure Reader where
  replies : List Reply
  delivered : List UInt8
  deriving DecidableEq, Repr

namespace Reader

def reply (len : ℕ) (r : Reader) : Reply := match r.replies with
  | [] => ⟨[],some .eof⟩
  | a::_ => ⟨a.bytes.take len,a.err⟩

def after (len : ℕ) (r : Reader) : Reader := ⟨r.replies.tail,r.delivered++(r.reply len).bytes⟩

theorem reply_length (len : ℕ) (r : Reader) : (r.reply len).bytes.length ≤ len := by
  rw [reply]
  split
  · exact Nat.zero_le _
  · exact length_take_le ..

end Reader

def absorb (pos : ℕ) (bs : List UInt8) (rb : Ring) : Ring :=
  { rb with
    buf := store rb.buf pos bs
    writePos := rb.wrapIndex (rb.writePos+bs.length)
    empty := false }

structure Round where
  ring : Ring
  reader : Reader
  total : ℕ
  err : Option StreamError

def readFromOnce (r : Reader) (rb : Ring) : Round :=
  if rb.readPos ≤ rb.writePos then
    let len := rb.capacity-rb.writePos
    let a := r.reply len
    let tail := absorb rb.writePos a.bytes rb
    if a.err.isSome then ⟨tail,r.after len,a.bytes.length,a.err⟩
    else
      let b := (r.after len).reply rb.readPos
      ⟨absorb 0 b.bytes tail,(r.after len).after rb.readPos,a.bytes.length+b.bytes.length,b.err⟩
  else
    let len := rb.readPos-rb.writePos
    let a := r.reply len
    ⟨absorb rb.writePos a.bytes rb,r.after len,a.bytes.length,a.err⟩

def ensureRoom (fresh : Cells) (rb : Ring) : Ring :=
  if rb.available < minReadSize then rb.grow fresh (rb.buffered+minReadSize) else rb

def readLoop (fresh : ℕ → Cells) : ℕ → Reader → Ring → ℕ → Option Round
  | 0, _, _, _ => none
  | fuel+1, r, rb, total =>
    let round := readFromOnce r (ensureRoom (fresh fuel) rb)
    let total := total+round.total
    match round.err with
    | some .eof => some ⟨round.ring,round.reader,total,none⟩
    | some e => some ⟨round.ring,round.reader,total,some e⟩
    | none => readLoop fresh fuel round.reader round.ring total

def readFrom (fresh : ℕ → Cells) (r : Reader) (rb : Ring) : Option Round :=
  readLoop fresh (r.replies.length+1) r rb 0

structure Answer where
  accepted : ℕ
  err : Option StreamError
  deriving DecidableEq, Repr

namespace Answer

def count (len : ℕ) (a : Answer) : ℕ := min a.accepted len

def error (len : ℕ) (a : Answer) : Option StreamError :=
  if a.accepted < len ∧ a.err = none then some .shortWrite else a.err

end Answer

def writeTo (first second : Answer) (rb : Ring) : Ring × ℕ × Option StreamError :=
  if rb.empty then (rb,0,none)
  else if rb.readPos < rb.writePos then
    let len := rb.writePos-rb.readPos
    (rb.advance (rb.readPos+first.count len),first.count len,first.error len)
  else
    let headLen := rb.capacity-rb.readPos
    let written := first.count headLen
    let moved := { rb with readPos := rb.wrapIndex (rb.readPos+written) }
    if (first.error headLen).isSome ∨ written < headLen then (moved,written,first.error headLen)
    else
      let tailLen := rb.writePos
      (moved.advance (second.count tailLen),written+second.count tailLen,second.error tailLen)

/-! ## Rings that are not empty -/

variable (r : Reader) (rb : Ring) (q : List UInt8)

theorem bytes_window (hr : rb.readPos < rb.capacity) (hw : rb.writePos < rb.capacity)
    (he : rb.empty = false) :
    rb.bytes = window rb.buf rb.capacity rb.readPos rb.buffered ∧ 0 < rb.buffered ∧
      rb.buffered ≤ rb.capacity ∧ rb.writePos = (rb.readPos+rb.buffered)%rb.capacity := by
  have hf : ¬rb.empty = true := by rw [he]; exact Bool.false_ne_true
  have hb : rb.buffered = if rb.readPos < rb.writePos then rb.writePos-rb.readPos
      else rb.capacity-rb.readPos+rb.writePos := by
    rw [Ring.buffered]
    split_ifs <;> omega
  have hle : rb.buffered ≤ rb.capacity := by rw [hb]; split_ifs <;> omega
  refine ⟨?_,by rw [hb]; split_ifs <;> omega,hle,?_⟩
  · rw [Ring.bytes, if_neg hf]
    split
    · rw [hb, if_pos ‹_›, window_eq_segment _ _ _ _ (by omega)]
    rw [if_neg ‹_›] at hb
    have htail : (if 0 < rb.writePos then segment rb.buf 0 rb.writePos else []) =
        segment rb.buf 0 rb.writePos := by
      split
      · rfl
      · rw [show rb.writePos = 0 by omega]
        rfl
    rw [htail, window_wrap _ (by omega) hle (by omega),
      show rb.readPos+rb.buffered-rb.capacity = rb.writePos by omega]
  · rw [mod_cases _ _ _ hr hle, hb]
    split_ifs <;> omega

theorem rep_iff_bytes (hr : rb.readPos < rb.capacity)
    (hw : rb.writePos < rb.capacity) (he : rb.empty = false) : Rep rb q ↔ rb.bytes = q := by
  refine ⟨fun h => h.bytes_eq,?_⟩
  rintro rfl
  obtain ⟨hwin,hpos,hle,hahead⟩ := bytes_window rb hr hw he
  have hlen : rb.bytes.length = rb.buffered := by rw [hwin, length_window]
  have hne : rb.bytes ≠ [] := length_pos_iff.mp (by omega)
  refine ⟨by omega,Or.inl hr,by rw [hlen]; exact hahead,?_,fun h => absurd h hne,?_⟩
  · rw [he, isEmpty_eq_false_iff.mpr hne]
  · rw [hlen, ← hwin]

theorem rep_iff_position (hr : rb.readPos < rb.capacity)
    (he : rb.empty = false) (hq : q.length ≤ rb.capacity) : Rep rb q ↔ q ≠ [] ∧
      rb.writePos = (rb.readPos+q.length)%rb.capacity ∧
        window rb.buf rb.capacity rb.readPos q.length = q := by
  constructor
  · intro h
    refine ⟨fun hnil => ?_,h.ahead,h.cells⟩
    rw [h.empty_iff.mpr hnil] at he
    cases he
  · rintro ⟨hne,hahead,hcells⟩
    refine ⟨hq,Or.inl hr,hahead,?_,fun h => absurd h hne,hcells⟩
    rw [he, isEmpty_eq_false_iff.mpr hne]

/-! ## One round -/

def mask (rb : Ring) (idx : ℕ) : ℕ := idx &&& (rb.capacity-1)

/-- What a round needs: an empty ring gets some bytes, the mask is the remainder, and the
bytes of the second read are found behind those of the first, which is so if the first
read fills the room behind or the second reads nothing. -/
def Unbroken (r : Reader) (rb : Ring) : Prop :=
  if rb.readPos ≤ rb.writePos then
    let len := rb.capacity-rb.writePos
    let a := r.reply len
    let pos := rb.writePos+a.bytes.length
    (rb.empty = true → a.bytes ≠ []) ∧
      if a.err.isSome then mask rb pos = pos%rb.capacity
      else
        let b := (r.after len).reply rb.readPos
        mask rb (mask rb pos+b.bytes.length) = (pos+b.bytes.length)%rb.capacity ∧
          window (store rb.buf 0 b.bytes) rb.capacity pos b.bytes.length = b.bytes
  else
    let pos := rb.writePos+(r.reply (rb.readPos-rb.writePos)).bytes.length
    mask rb pos = pos%rb.capacity

def taken (r : Reader) (rb : Ring) : List UInt8 :=
  if rb.readPos ≤ rb.writePos then
    let len := rb.capacity-rb.writePos
    if (r.reply len).err.isSome then (r.reply len).bytes
    else (r.reply len).bytes++((r.after len).reply rb.readPos).bytes
  else (r.reply (rb.readPos-rb.writePos)).bytes

theorem readFromOnce_taken :
    (readFromOnce r rb).reader.delivered = r.delivered++taken r rb ∧
      (readFromOnce r rb).total = (taken r rb).length := by
  rw [readFromOnce, taken]
  split
  · dsimp only
    split
    · exact ⟨rfl,rfl⟩
    · exact ⟨append_assoc ..,(length_append ..).symm⟩
  · exact ⟨rfl,rfl⟩

theorem absorb_writePos (pos : ℕ) (bs : List UInt8) (hc : 0 < rb.capacity) :
    (absorb pos bs rb).writePos = mask rb (rb.writePos+bs.length) := wrapIndex_eq _ hc

theorem absorb_rep_iff {q bs : List UInt8} (h : Rep rb q) (hc : q.length < rb.capacity)
    (hlen : rb.writePos+bs.length ≤ rb.capacity) (hfit : q.length+bs.length ≤ rb.capacity) :
    Rep (absorb rb.writePos bs rb) (q++bs) ↔ q++bs ≠ [] ∧
      mask rb (rb.writePos+bs.length) = (rb.writePos+bs.length)%rb.capacity := by
  have hr : rb.readPos < rb.capacity := by rcases h.within with hw | hw <;> omega
  have hcells : window (store rb.buf rb.writePos bs) rb.capacity rb.readPos (q++bs).length = q++bs := by
    have hlen' := hlen
    rw [h.ahead] at hlen' ⊢
    rw [length_append, window_store _ _ _ hr hfit hlen', h.cells]
  have hsum : (rb.readPos+(q++bs).length)%rb.capacity = (rb.writePos+bs.length)%rb.capacity := by
    rw [h.ahead, Nat.mod_add_mod, length_append, Nat.add_assoc]
  rw [rep_iff_position (absorb rb.writePos bs rb) _ hr rfl (by rw [length_append]; exact hfit),
    absorb_writePos rb _ _ (by omega)]
  change _ ∧ _ = (rb.readPos+(q++bs).length)%rb.capacity ∧ window (store rb.buf rb.writePos bs) _ _ _ = _ ↔ _
  rw [hsum]
  exact ⟨fun ⟨h1,h2,_⟩ => ⟨h1,h2⟩,fun ⟨h1,h2⟩ => ⟨h1,h2,hcells⟩⟩

theorem both_reads_cells {q bs cs : List UInt8} (h : Rep rb q) (hc : q.length < rb.capacity)
    (hle : rb.readPos ≤ rb.writePos) (hbs : bs.length ≤ rb.capacity-rb.writePos)
    (hcs : cs.length ≤ rb.readPos) :
    window (store (store rb.buf rb.writePos bs) 0 cs) rb.capacity rb.readPos (q++bs++cs).length =
        q++bs++cs ↔
      window (store rb.buf 0 cs) rb.capacity (rb.writePos+bs.length) cs.length = cs := by
  obtain ⟨hr,hlt⟩ := h.positions (by omega)
  have hpos := h.writePos_eq hr
  have hw : rb.writePos = rb.readPos+q.length := by split_ifs at hpos <;> omega
  have hstored : window (store rb.buf rb.writePos bs) rb.capacity rb.readPos (q++bs).length = q++bs := by
    have hroom : (rb.readPos+q.length)%rb.capacity+bs.length ≤ rb.capacity := by
      rw [← h.ahead]
      omega
    rw [length_append, h.ahead, window_store _ _ _ hr (by omega) hroom, h.cells]
  have hfirst : window (store (store rb.buf rb.writePos bs) 0 cs) rb.capacity rb.readPos
      (q++bs).length = q++bs := by
    rw [window_store_of_apart _ _ _ _ _ (fun i hi => ?_), hstored]
    rw [length_append] at hi
    rw [Nat.mod_eq_of_lt (by omega)]
    omega
  have hsecond : window (store (store rb.buf rb.writePos bs) 0 cs) rb.capacity
      (rb.readPos+(q++bs).length) cs.length =
      window (store rb.buf 0 cs) rb.capacity (rb.writePos+bs.length) cs.length := by
    rw [length_append, show rb.readPos+(q.length+bs.length) = rb.writePos+bs.length by omega]
    refine window_congr _ _ _ (fun i hi => ?_)
    have hapart : (rb.writePos+bs.length+i)%rb.capacity < rb.writePos ∨
        rb.writePos+bs.length ≤ (rb.writePos+bs.length+i)%rb.capacity := by
      rw [show rb.writePos+bs.length+i = rb.writePos+(bs.length+i) by omega,
        mod_cases rb.capacity rb.writePos (bs.length+i) (by omega) (by omega)]
      split_ifs <;> omega
    exact store_congr (store_of_apart _ hapart)
  rw [@List.length_append _ (q++bs) cs, window_append, hfirst, hsecond]
  exact ⟨fun heq => append_cancel_left heq,fun heq => by rw [heq]⟩

theorem nonempty_iff (q bs cs : List UInt8) (h : Rep rb q) (hcs : cs.length ≤ rb.readPos) :
    q++bs++cs ≠ [] ↔ (rb.empty = true → bs ≠ []) := by
  rw [h.empty_iff]
  constructor
  · rintro hne rfl rfl
    have hnil : cs = [] := length_eq_zero_iff.mp (by have := h.idle rfl; omega)
    exact hne (by rw [hnil]; rfl)
  · intro himp hnil
    simp only [append_eq_nil_iff] at hnil
    exact himp hnil.1.1 hnil.1.2

theorem round_rep_iff (h : Rep rb q) (hc : q.length < rb.capacity) :
    Rep (readFromOnce r rb).ring (q++taken r rb) ↔ Unbroken r rb := by
  obtain ⟨hr,hw⟩ := h.positions (by omega)
  have hpos := h.writePos_eq hr
  by_cases hle : rb.readPos ≤ rb.writePos
  · have hq : rb.writePos = rb.readPos+q.length := by split_ifs at hpos <;> omega
    have hbs := r.reply_length (rb.capacity-rb.writePos)
    rw [readFromOnce, taken, Unbroken, if_pos hle]
    dsimp only
    split
    · have hone := nonempty_iff rb q (r.reply (rb.capacity-rb.writePos)).bytes [] h (Nat.zero_le _)
      rw [append_nil] at hone
      rw [absorb_rep_iff rb h hc (by omega) (by omega), hone]
    have hcs := (r.after (rb.capacity-rb.writePos)).reply_length rb.readPos
    generalize (r.reply (rb.capacity-rb.writePos)).bytes = bs at hbs ⊢
    generalize ((r.after (rb.capacity-rb.writePos)).reply rb.readPos).bytes = cs at hcs ⊢
    have hsum : (rb.readPos+(q++bs++cs).length)%rb.capacity =
        (rb.writePos+bs.length+cs.length)%rb.capacity := by
      rw [length_append, length_append]
      exact congrArg (· % rb.capacity) (by omega)
    rw [← append_assoc, rep_iff_position (absorb 0 cs (absorb rb.writePos bs rb)) _ hr rfl
      (by simp only [length_append]; change _ ≤ rb.capacity; omega),
      absorb_writePos (absorb rb.writePos bs rb) 0 cs (by change 0 < rb.capacity; omega),
      absorb_writePos rb _ _ (by omega), nonempty_iff rb q bs cs h hcs]
    refine and_congr_right (fun _ => ?_)
    change mask rb (mask rb _+_) = (rb.readPos+(q++bs++cs).length)%rb.capacity ∧
      window (store (store rb.buf rb.writePos bs) 0 cs) rb.capacity rb.readPos _ = _ ↔ _
    rw [hsum, both_reads_cells rb h hc hle hbs hcs]
  have hbs := r.reply_length (rb.readPos-rb.writePos)
  have hne : q ≠ [] := fun hnil => hle (by rw [h.idle hnil]; exact Nat.zero_le _)
  rw [readFromOnce, taken, Unbroken, if_neg hle, if_neg hle, if_neg hle]
  rw [absorb_rep_iff rb h hc (by omega) (by split_ifs at hpos <;> omega)]
  exact and_iff_right (append_ne_nil_of_left_ne_nil hne _)

theorem readFromOnce_shape (hc : 0 < rb.capacity) :
    (readFromOnce r rb).ring.capacity = rb.capacity ∧ (readFromOnce r rb).ring.readPos = rb.readPos ∧
      (readFromOnce r rb).ring.empty = false ∧ (readFromOnce r rb).ring.writePos < rb.capacity := by
  rw [readFromOnce]
  split
  · dsimp only
    split
    · exact ⟨rfl,rfl,rfl,wrapIndex_lt rb _ hc⟩
    · exact ⟨rfl,rfl,rfl,wrapIndex_lt (absorb rb.writePos _ rb) _ hc⟩
  · exact ⟨rfl,rfl,rfl,wrapIndex_lt rb _ hc⟩

theorem round_bytes_iff (h : Rep rb q) (hc : q.length < rb.capacity) :
    (readFromOnce r rb).ring.bytes = q++taken r rb ↔ Unbroken r rb := by
  have hr : rb.readPos < rb.capacity := by rcases h.within with hw | hw <;> omega
  obtain ⟨hcap,hread,he,hw⟩ := readFromOnce_shape r rb (by omega)
  rw [← round_rep_iff r rb q h hc]
  exact (rep_iff_bytes _ _ (by rw [hcap, hread]; exact hr) (by rw [hcap]; exact hw) he).symm

/-! ## All rounds -/

theorem ensureRoom_rep (fresh : Cells) {rb : Ring} {q : List UInt8} (h : Rep rb q) :
    Rep (ensureRoom fresh rb) q ∧ q.length < (ensureRoom fresh rb).capacity := by
  have hmin : 0 < minReadSize := by decide
  rw [ensureRoom, h.available_eq, h.buffered_eq]
  split
  · have hcap := le_calculateGrowth rb (q.length+minReadSize)
    exact ⟨h.grow_rep fresh (by omega),lt_of_lt_of_le (by omega) hcap⟩
  · exact ⟨h,by omega⟩

def EveryRound (P : Reader → Ring → Prop) (fresh : ℕ → Cells) : ℕ → Reader → Ring → Prop
  | 0, _, _ => True
  | fuel+1, r, rb =>
    let ready := ensureRoom (fresh fuel) rb
    P r ready ∧ ((readFromOnce r ready).err = none →
      EveryRound P fresh fuel (readFromOnce r ready).reader (readFromOnce r ready).ring)

def Conserves (r : Reader) (rb : Ring) : Prop :=
  (readFromOnce r rb).ring.bytes = rb.bytes++taken r rb

theorem everyRound_conserves_iff (fresh : ℕ → Cells) (fuel : ℕ) (r : Reader) (rb : Ring) (q : List UInt8)
    (h : Rep rb q) : EveryRound Conserves fresh fuel r rb ↔ EveryRound Unbroken fresh fuel r rb := by
  induction fuel generalizing r rb q with
  | zero => exact Iff.rfl
  | succ fuel ih =>
    obtain ⟨hready,hroom⟩ := ensureRoom_rep (fresh fuel) h
    have hone : Conserves r (ensureRoom (fresh fuel) rb) ↔ Unbroken r (ensureRoom (fresh fuel) rb) := by
      rw [Conserves, hready.bytes_eq, round_bytes_iff r _ q hready hroom]
    have hnext := round_rep_iff r _ q hready hroom
    constructor
    · rintro ⟨hkeep,hrest⟩
      have hs := hone.mp hkeep
      exact ⟨hs,fun herr => (ih _ _ _ (hnext.mpr hs)).mp (hrest herr)⟩
    · rintro ⟨hs,hrest⟩
      exact ⟨hone.mpr hs,fun herr => (ih _ _ _ (hnext.mpr hs)).mpr (hrest herr)⟩

theorem readFromOnce_replies (h : (readFromOnce r rb).err = none) :
    (readFromOnce r rb).reader.replies.length < r.replies.length := by
  obtain ⟨replies,delivered⟩ := r
  cases replies with
  | nil =>
    rw [readFromOnce] at h
    split at h
    · cases h
    · cases h
  | cons a rest =>
    rw [readFromOnce]
    split
    · dsimp only
      split
      · exact Nat.lt_succ_self _
      · change rest.tail.length < rest.length+1
        rw [length_tail]
        omega
    · exact Nat.lt_succ_self _

theorem readLoop_rep (fresh : ℕ → Cells) (fuel : ℕ) (r : Reader) (rb : Ring) (q : List UInt8) (total : ℕ)
    (h : Rep rb q) (hs : EveryRound Unbroken fresh fuel r rb) (hfuel : r.replies.length < fuel) :
    ∃ out bs, readLoop fresh fuel r rb total = some out ∧ out.reader.delivered = r.delivered++bs ∧
      Rep out.ring (q++bs) ∧ out.total = total+bs.length := by
  induction fuel generalizing r rb q total with
  | zero => exact absurd hfuel (Nat.not_lt_zero _)
  | succ fuel ih =>
    obtain ⟨hready,hroom⟩ := ensureRoom_rep (fresh fuel) h
    obtain ⟨hsound,hrest⟩ := hs
    have hround := (round_rep_iff r _ q hready hroom).mpr hsound
    obtain ⟨hdel,htotal⟩ := readFromOnce_taken r (ensureRoom (fresh fuel) rb)
    have hless := readFromOnce_replies r (ensureRoom (fresh fuel) rb)
    rw [readLoop]
    split
    · exact ⟨_,_,rfl,hdel,hround,by rw [← htotal]⟩
    · exact ⟨_,_,rfl,hdel,hround,by rw [← htotal]⟩
    rename_i herr
    have hshort := hless herr
    obtain ⟨out,bs,hout,hmore,hrep,hsum⟩ := ih _ _ _ (total+(readFromOnce r (ensureRoom (fresh fuel) rb)).total)
      hround (hrest herr) (by omega)
    refine ⟨out,_,hout,hmore.trans (by rw [hdel, append_assoc]),
      by rw [← append_assoc]; exact hrep,?_⟩
    rw [hsum, htotal, length_append, Nat.add_assoc]

/-! ## Writing to a stream -/

/-- A writer that returns an error on the first of two pieces leaves some bytes, and the
mask is the remainder at the first of them. -/
def Retains (first : Answer) (rb : Ring) : Prop :=
  let headLen := rb.capacity-rb.readPos
  let pos := rb.readPos+first.count headLen
  rb.empty = false → rb.writePos ≤ rb.readPos → (first.error headLen).isSome →
    first.count headLen < rb.buffered ∧ mask rb pos = pos%rb.capacity

theorem error_of_short (a : Answer) (len : ℕ) (h : a.count len < len) : (a.error len).isSome := by
  rw [Answer.count] at h
  rw [Answer.error]
  split
  · rfl
  · rename_i hno
    exact Option.isSome_iff_ne_none.mpr (fun herr => hno ⟨by omega,herr⟩)

theorem stopped_iff {n : ℕ} (h : Rep rb q) (hq : q ≠ [])
    (hn : n ≤ q.length) : ({ rb with readPos := rb.wrapIndex (rb.readPos+n) } : Ring).bytes = q.drop n ↔
      n < q.length ∧ mask rb (rb.readPos+n) = (rb.readPos+n)%rb.capacity := by
  have hi := h.inside hq
  have hw : rb.writePos < rb.capacity := by
    rw [h.ahead]
    exact Nat.mod_lt _ (by omega)
  have hf : rb.empty = false := by
    rw [h.flag]
    exact isEmpty_eq_false_iff.mpr hq
  have hpos := wrapIndex_lt rb (rb.readPos+n) (by omega)
  have hwin := bytes_window { rb with readPos := rb.wrapIndex (rb.readPos+n) } hpos hw hf
  constructor
  · intro heq
    have hlen : ({ rb with readPos := rb.wrapIndex (rb.readPos+n) } : Ring).buffered = (q.drop n).length := by
      rw [← heq, hwin.1, length_window]
    have hlt : n < q.length := by
      have := hwin.2.1
      rw [hlen, length_drop] at this
      omega
    refine ⟨hlt,?_⟩
    by_contra hne
    exact h.repositioned hlt hpos (by rw [wrapIndex_eq _ (by omega)]; exact hne) hlen
  · rintro ⟨hlt,hmask⟩
    rw [wrapIndex_eq _ (by omega), show (rb.readPos+n) &&& (rb.capacity-1) = _ from hmask]
    exact (h.moved hlt).bytes_eq

theorem writeTo_bytes_iff (first second : Answer) (rb : Ring) (q : List UInt8) (h : Rep rb q) :
    (writeTo first second rb).1.bytes = q.drop (writeTo first second rb).2.1 ↔ Retains first rb := by
  by_cases hq : q = []
  · have he := h.empty_iff.mpr hq
    rw [writeTo, if_pos he]
    refine iff_of_true h.bytes_eq (fun hf => ?_)
    rw [he] at hf
    cases hf
  have hi := h.inside hq
  have hc := h.fits
  have hf : rb.empty = false := by
    rw [h.flag]
    exact isEmpty_eq_false_iff.mpr hq
  have hw := h.writePos_cases hq
  rw [writeTo, if_neg (by rw [hf]; exact Bool.false_ne_true)]
  by_cases hlt : rb.readPos < rb.writePos
  · rw [if_pos hlt]
    dsimp only
    have hn : first.count (rb.writePos-rb.readPos) ≤ q.length := by
      rw [Answer.count]
      omega
    refine iff_of_true (Rep.bytes_eq ?_) (fun _ hle => absurd hle (by omega))
    by_cases h0 : first.count (rb.writePos-rb.readPos) = 0
    · rw [h0, Ring.advance, if_neg (by omega)]
      exact h
    have hback := h.advanced hq _ (by omega) hn
    rw [mod_cases _ _ _ hi.1 (by omega)] at hback
    rw [if_pos (by omega)] at hback
    exact hback
  rw [if_neg hlt, Retains, h.buffered_eq]
  dsimp only
  have hn : first.count (rb.capacity-rb.readPos) ≤ rb.capacity-rb.readPos := by
    rw [Answer.count]
    omega
  split
  · rename_i hstop
    have herr : (first.error (rb.capacity-rb.readPos)).isSome = true :=
      hstop.elim id (error_of_short first _)
    rw [stopped_iff rb q h hq (by omega)]
    exact ⟨fun hok _ _ _ => hok,fun hok => hok hf (by omega) herr⟩
  rename_i hgo
  rw [not_or] at hgo
  have hall : first.count (rb.capacity-rb.readPos) = rb.capacity-rb.readPos := by omega
  have hm : second.count rb.writePos ≤ rb.writePos := by
    rw [Answer.count]
    omega
  refine iff_of_true ?_ (fun _ _ herr => absurd herr hgo.1)
  have hback := h.advanced hq (rb.capacity-rb.readPos+second.count rb.writePos) (by omega) (by omega)
  rw [mod_cases _ _ _ hi.1 (by omega), if_neg (by omega),
    show rb.readPos+(rb.capacity-rb.readPos+second.count rb.writePos)-rb.capacity =
      second.count rb.writePos by omega] at hback
  rw [hall, ← hback.bytes_eq]
  rfl

/-- For a ring with any contents, any reader and any writer: if every round is sound, what
the reader delivers follows the old contents and is counted; a round conserves the bytes
exactly if it is sound; and writing conserves the bytes exactly if the writer is accepted. -/
theorem transfers_conserve (rb : Ring) (q : List UInt8) (h : Rep rb q) (fresh : ℕ → Cells) (r : Reader)
    (first second : Answer) :
    (EveryRound Unbroken fresh (r.replies.length+1) r rb → ∃ out bs, readFrom fresh r rb = some out ∧
      out.reader.delivered = r.delivered++bs ∧ out.ring.bytes = q++bs ∧ out.total = bs.length) ∧
    (EveryRound Conserves fresh (r.replies.length+1) r rb ↔
      EveryRound Unbroken fresh (r.replies.length+1) r rb) ∧
    ((writeTo first second rb).1.bytes = q.drop (writeTo first second rb).2.1 ↔ Retains first rb) := by
  refine ⟨fun hs => ?_,everyRound_conserves_iff fresh _ r rb q h,writeTo_bytes_iff first second rb q h⟩
  obtain ⟨out,bs,hout,hdel,hrep,htotal⟩ := readLoop_rep fresh _ r rb q 0 h hs (Nat.lt_succ_self _)
  exact ⟨out,bs,hout,hdel,hrep.bytes_eq,htotal.trans (Nat.zero_add _)⟩

def wrapped : Ring := ⟨UInt8.ofNat,1024,1022,2,false⟩

/-- The contents of the ring wrap; two bytes come in, and a writer takes three. -/
theorem wrapped_ring_transfers : ∃ out bs,
    readFrom (fun _ _ => 0) ⟨[⟨[2,3],none⟩],[]⟩ wrapped = some out ∧ out.reader.delivered = bs ∧
      out.ring.bytes = [254,255,0,1]++bs ∧ out.total = bs.length ∧
      (writeTo ⟨2,none⟩ ⟨1,none⟩ wrapped).1.bytes = [1] := by
  have hrep : Rep wrapped [254,255,0,1] :=
    ⟨by decide,.inl (by decide),rfl,rfl,fun h => absurd h (cons_ne_nil _ _),rfl⟩
  obtain ⟨hread,_,hwrite⟩ := transfers_conserve wrapped _ hrep (fun _ _ => 0) ⟨[⟨[2,3],none⟩],[]⟩
    ⟨2,none⟩ ⟨1,none⟩
  obtain ⟨out,bs,h1,h2,h3,h4⟩ := hread ⟨rfl,fun _ => ⟨rfl,fun _ => trivial⟩⟩
  exact ⟨out,bs,h1,h2,h3,h4,hwrite.mpr (fun _ _ herr => absurd herr (by decide))⟩

/-- A reader at its end makes an empty ring a full one. -/
theorem empty_stream_fills_ring : ∃ out,
    readFrom (fun _ _ => 0) ⟨[],[]⟩ (newRing (fun _ => 0) 0) = some out ∧
      out.reader.delivered = [] ∧ out.total = 0 ∧ out.ring.bytes ≠ [] := by
  refine ⟨_,rfl,rfl,rfl,fun hnil => ?_⟩
  have hlen := congrArg List.length hnil
  rw [(bytes_window _ (by decide) (by decide) rfl).1, length_window] at hlen
  exact absurd hlen (by decide)

end GoCommon.RingTransfer
