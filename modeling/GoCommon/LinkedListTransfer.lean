import GoCommon.LinkedListBuffer
import GoCommon.RingTransfer

/-!
# Transfers between a linked list and a stream

A list is filled from a reader chunk by chunk, and emptied into a writer node by
node. The bytes that come together with an error are counted and dropped, and a
node whose write returns an error is dropped with the bytes that were not
written. A chunk that the pool hands out too short ends the reading with a panic.
-/

set_option autoImplicit false

namespace GoCommon.LinkedListTransfer
open List SlicePool LinkedListBuffer RingTransfer

def minReadChunkSize : ℕ := 512

structure Outcome where
  list : ListBuffer
  total : ℕ
  err : Option StreamError
  moved : List UInt8

def chunk (h : Memory) (bytes : List UInt8) : Node := .filled bytes (h.get minReadChunkSize).1

def readLoop : ℕ → Reader → ListBuffer → ℕ → Option Outcome
  | 0, _, _, _ => none
  | fuel+1, r, ll, total =>
    let a := r.reply minReadChunkSize
    let n := chunk ll.heap a.bytes
    let ll := { ll with heap := (ll.heap.get minReadChunkSize).2 }
    let r := r.after minReadChunkSize
    let total := total+a.bytes.length
    if ll.heap.short then none
    else match a.err with
      | some .eof => some ⟨ll.free n,total,none,r.delivered⟩
      | some e => some ⟨ll.free n,total,some e,r.delivered⟩
      | none => readLoop fuel r (ll.pushNode n) total

def readFrom (replies : List Reply) (ll : ListBuffer) : Option Outcome :=
  readLoop (replies.length+1) ⟨replies,[]⟩ ll 0

def answer (len : ℕ) : List Answer → Answer
  | [] => ⟨len,none⟩
  | a::_ => a

def writeLoop : ℕ → List Answer → ListBuffer → ℕ → List UInt8 → Option Outcome
  | 0, _, _, _, _ => none
  | fuel+1, w, ll, total, moved => match ll.popFront with
    | none => some ⟨ll,total,none,moved⟩
    | some (n,ll) =>
      let written := (answer n.length w).count n.length
      let total := total+written
      let moved := moved++n.data.take written
      match (answer n.length w).err with
      | some e => some ⟨ll,total,some e,moved⟩
      | none => if written < n.length then
          some ⟨ll.pushFront (n.rest written),total,some .shortWrite,moved⟩
        else writeLoop fuel w.tail (ll.free n) total moved

def writeTo (w : List Answer) (ll : ListBuffer) : Option Outcome :=
  writeLoop (ll.nodes.length+1) w ll 0 []

def Receives (replies : List Reply) (ll : ListBuffer) : Prop :=
  ∃ out, readFrom replies ll = some out ∧ out.list.contents = ll.contents++out.moved ∧
    out.total = out.moved.length ∧ out.list.Counted

def Sends (w : List Answer) (ll : ListBuffer) : Prop :=
  ∃ out, writeTo w ll = some out ∧ out.list.contents = ll.contents.drop out.total ∧
    out.moved = ll.contents.take out.total ∧ out.list.Counted

def EmptyError : List Reply → Prop
  | [] => True
  | a::rest => match a.err with
    | some _ => a.bytes = []
    | none => EmptyError rest

def WholeError : List Answer → List (List UInt8) → Prop
  | [], _ => True
  | _::_, [] => True
  | a::w, data::rest => match a.err with
    | some _ => data.length ≤ a.accepted
    | none => data.length ≤ a.accepted → WholeError w rest

instance decidableEmptyError : (replies : List Reply) → Decidable (EmptyError replies)
  | [] => .isTrue trivial
  | ⟨bytes,some _⟩::_ => inferInstanceAs (Decidable (bytes = []))
  | ⟨_,none⟩::rest => decidableEmptyError rest

instance decidableWholeError : (w : List Answer) → (nodes : List (List UInt8)) →
    Decidable (WholeError w nodes)
  | [], _ => .isTrue trivial
  | _::_, [] => .isTrue trivial
  | ⟨n,some _⟩::_, data::_ => inferInstanceAs (Decidable (data.length ≤ n))
  | ⟨n,none⟩::w, data::rest =>
    have := decidableWholeError w rest
    inferInstanceAs (Decidable (data.length ≤ n → WholeError w rest))

def Supplied : List Reply → Memory → Prop
  | [], h => (h.get minReadChunkSize).2.short = false
  | a::rest, h => (h.get minReadChunkSize).2.short = false ∧
      (a.err = none → Supplied rest (h.get minReadChunkSize).2)

instance decidableSupplied : (replies : List Reply) → (h : Memory) → Decidable (Supplied replies h)
  | [], _ => inferInstanceAs (Decidable (_ = _))
  | a::rest, h =>
    have := decidableSupplied rest (h.get minReadChunkSize).2
    inferInstanceAs (Decidable (_ ∧ (a.err = none → Supplied rest _)))

/-! ## Reading -/

theorem readLoop_spec (fuel : ℕ) (r : Reader) (ll : ListBuffer) (total : ℕ) (h : ll.Counted)
    (hfuel : r.replies.length < fuel) (hs : Supplied r.replies ll.heap) :
    ∃ out kept lost, readLoop fuel r ll total = some out ∧ out.list.Counted ∧
      out.list.contents = ll.contents++kept ∧ out.moved = r.delivered++(kept++lost) ∧
      out.total = total+(kept++lost).length ∧ (lost = [] ↔ EmptyError r.replies) := by
  induction fuel generalizing r ll total with
  | zero => exact absurd hfuel (Nat.not_lt_zero _)
  | succ fuel ih =>
    obtain ⟨replies,delivered⟩ := r
    rw [readLoop]
    cases replies with
    | nil =>
      rw [show (ll.heap.get minReadChunkSize).2.short = false from hs]
      exact ⟨_,[],[],rfl,h,by simp [ListBuffer.free, ListBuffer.contents],
        by simp [Reader.after, Reader.reply],rfl,iff_of_true rfl trivial⟩
    | cons a rest =>
      obtain ⟨bytes,err⟩ := a
      have hnil : bytes.take minReadChunkSize = [] ↔ bytes = [] := by simp [minReadChunkSize]
      obtain ⟨hlong,hs⟩ := hs
      rw [hlong]
      cases err with
      | some e =>
        cases e <;> exact ⟨_,[],bytes.take minReadChunkSize,rfl,h,
          by simp [ListBuffer.free, ListBuffer.contents],rfl,rfl,hnil⟩
      | none =>
        let ll' := { ll with heap := (ll.heap.get minReadChunkSize).2 }
        let n := chunk ll.heap (bytes.take minReadChunkSize)
        obtain ⟨hc,hcont⟩ := ListBuffer.pushNode_counted ll' h n
        obtain ⟨out,kept,lost,hout,hcount,hkept,hmoved,htotal,hlost⟩ :=
          ih ⟨rest,delivered++bytes.take minReadChunkSize⟩ (ll'.pushNode n)
            (total+(bytes.take minReadChunkSize).length) hc (by simpa using hfuel) (hs rfl)
        refine ⟨out,bytes.take minReadChunkSize++kept,lost,hout,hcount,?_,?_,?_,hlost⟩
        · rw [hkept, hcont, append_assoc]
          rfl
        · rw [hmoved, append_assoc, append_assoc]
        · rw [htotal, append_assoc, @List.length_append _ (bytes.take _), Nat.add_assoc]

theorem readLoop_panics (fuel : ℕ) (r : Reader) (ll : ListBuffer) (total : ℕ)
    (hs : ¬Supplied r.replies ll.heap) : readLoop fuel r ll total = none := by
  induction fuel generalizing r ll total with
  | zero => rfl
  | succ fuel ih =>
    rw [readLoop]
    by_cases hshort : (ll.heap.get minReadChunkSize).2.short = true
    · rw [if_pos hshort]
    rw [if_neg hshort]
    rw [Bool.not_eq_true] at hshort
    obtain ⟨replies,delivered⟩ := r
    cases replies with
    | nil => exact absurd hshort hs
    | cons a rest =>
      obtain ⟨bytes,err⟩ := a
      cases err with
      | some e => exact absurd ⟨hshort,fun he => by cases he⟩ hs
      | none => exact ih _ _ _ (fun hrest => hs ⟨hshort,fun _ => hrest⟩)

theorem receives_iff (replies : List Reply) {ll : ListBuffer} (h : ll.Counted) :
    Receives replies ll ↔ EmptyError replies ∧ Supplied replies ll.heap := by
  by_cases hs : Supplied replies ll.heap
  swap
  · constructor
    · rintro ⟨out,hout,_⟩
      rw [readFrom, readLoop_panics _ _ _ _ hs] at hout
      cases hout
    · exact fun hno => absurd hno.2 hs
  rw [and_iff_left hs]
  obtain ⟨out,kept,lost,hout,hcount,hkept,hmoved,htotal,hlost⟩ :=
    readLoop_spec (replies.length+1) ⟨replies,[]⟩ ll 0 h (Nat.lt_succ_self _) hs
  rw [nil_append] at hmoved
  rw [← hlost]
  constructor
  · rintro ⟨out',hout',hcont,_⟩
    cases hout.symm.trans hout'
    rw [hkept, hmoved, ← append_assoc] at hcont
    have := congrArg List.length hcont
    rw [@List.length_append _ _ lost] at this
    exact length_eq_zero_iff.mp (by omega)
  · rintro rfl
    rw [append_nil] at hmoved htotal
    exact ⟨out,hout,by rw [hkept, hmoved],by rw [htotal, hmoved, Nat.zero_add],hcount⟩

/-! ## Writing -/

/-- The writer gets the first bytes; what is left of a node whose write returns an
error is lost. -/
theorem writeLoop_spec (fuel : ℕ) (w : List Answer) (ll : ListBuffer) (total : ℕ)
    (moved : List UInt8) (h : ll.Counted) (hfuel : ll.nodes.length < fuel) :
    ∃ out sent lost, writeLoop fuel w ll total moved = some out ∧ out.list.Counted ∧
      ll.contents = sent++(lost++out.list.contents) ∧ out.moved = moved++sent ∧
      out.total = total+sent.length ∧ (lost = [] ↔ WholeError w (ll.nodes.map Node.data)) := by
  induction fuel generalizing w ll total moved with
  | zero => exact absurd hfuel (Nat.not_lt_zero _)
  | succ fuel ih =>
    rw [writeLoop]
    cases hpop : ll.popFront with
    | none =>
      have hnil : ll.nodes = [] := ListBuffer.popFront_none ll hpop
      refine ⟨_,[],[],rfl,h,by simp,by simp,rfl,?_⟩
      rw [hnil]
      cases w <;> simp [WholeError]
    | some pair =>
      obtain ⟨⟨data,cap,hfits⟩,rest⟩ := pair
      obtain ⟨hrest,hcont,hnodes⟩ := ListBuffer.popFront_some ll h _ rest hpop
      rw [hcont, hnodes]
      rw [hnodes] at hfuel
      dsimp only [Node.length]
      -- the nodes behind one that was written as a whole
      have hwhole : ∀ w', (∃ out sent lost, writeLoop fuel w' (rest.free ⟨data,cap,hfits⟩) (total+data.length)
          (moved++data) = some out ∧ out.list.Counted ∧
          data++rest.contents = sent++(lost++out.list.contents) ∧ out.moved = moved++sent ∧
          out.total = total+sent.length ∧ (lost = [] ↔ WholeError w' (rest.nodes.map Node.data))) := by
        intro w'
        obtain ⟨out,sent,lost,hout,hc,hs,hm,ht,hl⟩ :=
          ih w' (rest.free ⟨data,cap,hfits⟩) (total+data.length) (moved++data) hrest
            (Nat.lt_of_succ_lt_succ hfuel)
        refine ⟨out,data++sent,lost,hout,hc,by rw [append_assoc, ← hs]; rfl,?_,?_,hl⟩
        · rw [hm, append_assoc]
        · rw [ht, length_append, Nat.add_assoc]
      cases w with
      | nil =>
        obtain ⟨out,sent,lost,hout,hc,hs,hm,ht,hl⟩ := hwhole []
        refine ⟨out,sent,lost,?_,hc,hs,hm,ht,hl⟩
        simpa [answer, Answer.count] using hout
      | cons a w =>
        obtain ⟨accepted,err⟩ := a
        have hcut : ∀ n, data++rest.contents = data.take n++(data.drop n++rest.contents) := by
          intro n
          rw [← append_assoc, take_append_drop]
        have htake : (data.take (min accepted data.length)).length = min accepted data.length := by
          rw [length_take]
          omega
        cases err with
        | some e =>
          refine ⟨_,data.take (min accepted data.length),data.drop (min accepted data.length),rfl,
            hrest,hcut _,rfl,by rw [htake]; rfl,?_⟩
          rw [drop_eq_nil_iff]
          exact ⟨fun hle => le_trans hle (min_le_left ..),fun hle => le_min hle le_rfl⟩
        | none =>
          by_cases hle : data.length ≤ accepted
          · obtain ⟨out,sent,lost,hout,hc,hs,hm,ht,hl⟩ := hwhole w
            refine ⟨out,sent,lost,?_,hc,hs,hm,ht,hl.trans ⟨fun hw _ => hw,fun hw => hw hle⟩⟩
            simpa [answer, Answer.count, Nat.min_eq_right hle] using hout
          obtain ⟨hc,hcont'⟩ := ListBuffer.pushFront_counted rest hrest
            (Node.rest (min accepted data.length) ⟨data,cap,hfits⟩)
          have hshort : min accepted data.length < data.length := by omega
          refine ⟨⟨rest.pushFront (Node.rest (min accepted data.length) ⟨data,cap,hfits⟩),
            total+min accepted data.length,some .shortWrite,
            moved++data.take (min accepted data.length)⟩,data.take (min accepted data.length),[],
            ?_,hc,?_,rfl,by rw [htake],?_⟩
          · exact if_pos hshort
          · exact hcut _
          · exact iff_of_true rfl (fun hno => absurd hno hle)

theorem sends_iff (w : List Answer) {ll : ListBuffer} (h : ll.Counted) :
    Sends w ll ↔ WholeError w (ll.nodes.map Node.data) := by
  obtain ⟨out,sent,lost,hout,hcount,hcont,hmoved,htotal,hlost⟩ :=
    writeLoop_spec (ll.nodes.length+1) w ll 0 [] h (Nat.lt_succ_self _)
  rw [nil_append] at hmoved
  rw [Nat.zero_add] at htotal
  rw [← hlost]
  constructor
  · rintro ⟨out',hout',hdrop,_⟩
    cases hout.symm.trans hout'
    rw [htotal, hcont, drop_left] at hdrop
    have := congrArg List.length hdrop
    rw [length_append] at this
    exact length_eq_zero_iff.mp (by omega)
  rintro rfl
  rw [nil_append] at hcont
  exact ⟨out,hout,by rw [htotal, hcont, drop_left],
    by rw [htotal, hcont, take_left, hmoved],hcount⟩

/-- A list keeps its bytes in both transfers exactly if the error that ends the
reading brings no bytes, the pool hands out whole chunks, and an error of a write leaves none
of its node. -/
theorem list_transfers_conserve_iff (ll : ListBuffer) (h : ll.Counted) :
    (∀ replies, Receives replies ll ↔ EmptyError replies ∧ Supplied replies ll.heap) ∧
    ∀ w, Sends w ll ↔ WholeError w (ll.nodes.map Node.data) :=
  ⟨fun replies => receives_iff replies h,fun w => sends_iff w h⟩

def pooled (turns : List Turn) : Memory := ⟨keepOrder,newPool,turns,false⟩

def twoBytes : ListBuffer := ⟨[.filled [1,2] 512],1,2,pooled []⟩

/-- Two bytes are received and one of them is sent. -/
theorem list_of_two_conserved :
    Receives [⟨[1,2],none⟩,⟨[],some .eof⟩] (.new (pooled [])) ∧ Sends [⟨1,none⟩] twoBytes :=
  ⟨((list_transfers_conserve_iff (.new (pooled [])) (ListBuffer.new_counted _)).1 _).mpr
      ⟨by decide,by decide +kernel⟩,
    ((list_transfers_conserve_iff twoBytes ⟨rfl,rfl⟩).2 _).mpr (by decide)⟩

def Outcome.seen (out : Outcome) : List UInt8 × ℕ × Option StreamError × List UInt8 :=
  (out.list.contents,out.total,out.err,out.moved)

/-- A byte that comes with the end is counted and not kept, and a writer that fails
after one of two bytes leaves nothing. A chunk of 512 bytes that is written in two parts goes back
to the pool with 511, and the next reading gets it. -/
theorem bytes_with_error_lost :
    (readFrom [⟨[1],some .eof⟩] (.new (pooled []))).map Outcome.seen = some ([],1,none,[1]) ∧
    (writeTo [⟨1,some .failed⟩] twoBytes).map Outcome.seen = some ([],1,some .failed,[1]) ∧
    EmptyError [⟨[],some .eof⟩] ∧ ((readFrom [⟨List.replicate 512 7,none⟩,⟨[],some .eof⟩]
      (.new (pooled [⟨[],none⟩,⟨[],none⟩,⟨[],none⟩,⟨[],none⟩,⟨[],some 0⟩]))).bind fun o =>
        (writeTo [⟨1,none⟩] o.list).bind fun o => writeTo [] o.list).map
          (fun o => (readFrom [⟨[],some .eof⟩] o.list).isNone) = some true := by
  decide +kernel

end GoCommon.LinkedListTransfer
