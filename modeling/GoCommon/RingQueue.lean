import GoCommon.RingContents

/-!
# The ring buffer as a queue

Every operation of the ring is compared with the same operation of a list of
bytes, the oldest first. The results agree until the read position is moved by a
mask that is not the remainder. From then on the ring counts another number of
bytes than the queue.
-/

set_option autoImplicit false

namespace GoCommon.RingQueue
open RingBuffer RingContents

inductive Op where
  | write (fresh : Cells) (p : List UInt8)
  | writeString (fresh : Cells) (s : List UInt8)
  | read (m : ℕ)
  | readByte
  | discard (n : ℤ)
  | peek (n : ℤ)
  | bytes
  | reset

inductive Out where
  | none
  | count (n : ℕ)
  | read (r : Except RingError (List UInt8))
  | byte (r : Except RingError UInt8)
  | bytes (bs : List UInt8)
  deriving DecidableEq

def call : Op → Ring → Ring × Out
  | .write fresh p, rb => ((rb.write fresh p).1,.count (rb.write fresh p).2)
  | .writeString fresh s, rb => ((rb.writeString fresh s).1,.count (rb.writeString fresh s).2)
  | .read m, rb => ((rb.read m).1,.read (rb.read m).2)
  | .readByte, rb => (rb.readByte.1,.byte rb.readByte.2)
  | .discard n, rb => ((rb.discard n).1,.count (rb.discard n).2)
  | .peek n, rb => (rb,.bytes ((rb.peek n).1++(rb.peek n).2))
  | .bytes, rb => (rb,.bytes rb.bytes)
  | .reset, rb => (rb.reset,.none)

def queueCall : Op → List UInt8 → List UInt8 × Out
  | .write _ p, q => (q++p,.count p.length)
  | .writeString _ s, q => (q++s,.count s.length)
  | .read m, q => (q.drop m,.read (if m = 0 then .ok []
      else if q = [] then .error .ringEmpty else .ok (q.take m)))
  | .readByte, q => (q.tail,.byte (oldest q))
  | .discard n, q => (q.drop n.toNat,.count (min n.toNat q.length))
  | .peek n, q => (q,.bytes (if n ≤ 0 then q else q.take n.toNat))
  | .bytes, q => (q,.bytes q)
  | .reset, _ => ([],.none)

def Unbroken : Op → Ring → Prop
  | .discard n, rb => 0 < n → n.toNat < rb.buffered → Masked rb n.toNat
  | .read m, rb => 0 < m → rb.empty = false → rb.writePos ≤ rb.readPos →
      Masked rb (min m rb.buffered)
  | _, _ => True

variable {rb : Ring} {q : List UInt8}

theorem call_out (op : Op) (h : Rep rb q) : (call op rb).2 = (queueCall op q).2 := by
  cases op with
  | write fresh p => exact congrArg Out.count (h.write_rep fresh p).2
  | writeString fresh s => exact congrArg Out.count (h.write_rep fresh s).2
  | read m =>
    refine congrArg Out.read ?_
    split
    · rename_i hm
      rw [hm]
      rfl
    · exact h.read_bytes m (by omega)
  | readByte => exact congrArg Out.byte h.readByte_bytes
  | discard n => exact congrArg Out.count (h.discard_count n)
  | peek n => exact congrArg Out.bytes (h.peek_eq n)
  | bytes => exact congrArg Out.bytes h.bytes_eq
  | reset => rfl

theorem read_rep (m : ℕ) (h : Rep rb q) :
    (Unbroken (.read m) rb → Rep (rb.read m).1 (q.drop m)) ∧
      (¬Unbroken (.read m) rb → (rb.read m).1.buffered ≠ (q.drop m).length) := by
  by_cases hm : m = 0
  · subst hm
    exact ⟨fun _ => h,fun hno => absurd (fun h0 => absurd h0 (lt_irrefl 0)) hno⟩
  by_cases hq : q = []
  · have he := h.empty_iff.mpr hq
    have hstate : (rb.read m).1 = rb := by rw [Ring.read, if_neg hm, if_pos he]
    rw [hstate, hq, List.drop_nil, ← hq]
    exact ⟨fun _ => h,fun hno => absurd (fun _ hf => by rw [he] at hf; cases hf) hno⟩
  have hf : rb.empty = false := by
    rw [h.flag]
    exact List.isEmpty_eq_false_iff.mpr hq
  obtain ⟨hgood,hbad⟩ := h.read_rep_iff hq m (by omega)
  rw [Unbroken, h.buffered_eq]
  exact ⟨fun hok => hgood (hok (by omega) hf),fun hno => hbad (fun hok => hno (fun _ _ => hok))⟩

theorem call_rep {op : Op} (h : Rep rb q) (hop : Unbroken op rb) :
    Rep (call op rb).1 (queueCall op q).1 := by
  cases op with
  | write fresh p => exact (h.write_rep fresh p).1
  | writeString fresh s => exact (h.write_rep fresh s).1
  | read m => exact (read_rep m h).1 hop
  | readByte => exact h.readByte_rep
  | discard n =>
    rw [Unbroken, h.buffered_eq] at hop
    exact (h.discard_rep_iff n).1 hop
  | peek n => exact h
  | bytes => exact h
  | reset => exact reset_rep rb

/-- A call that finds the mask wrong leaves another number of bytes than the queue. -/
theorem call_strays {op : Op} (h : Rep rb q) (hop : ¬Unbroken op rb) :
    (call op rb).1.buffered ≠ (queueCall op q).1.length := by
  cases op with
  | read m => exact (read_rep m h).2 hop
  | discard n =>
    rw [Unbroken, h.buffered_eq] at hop
    exact (h.discard_rep_iff n).2 hop
  | write fresh p => exact absurd trivial hop
  | writeString fresh s => exact absurd trivial hop
  | readByte => exact absurd trivial hop
  | peek n => exact absurd trivial hop
  | bytes => exact absurd trivial hop
  | reset => exact absurd trivial hop

def Follows : List Op → Ring → List UInt8 → Prop
  | [], rb, q => rb.bytes = q ∧ rb.buffered = q.length
  | op::ops, rb, q => (rb.bytes = q ∧ rb.buffered = q.length) ∧
      (call op rb).2 = (queueCall op q).2 ∧ Follows ops (call op rb).1 (queueCall op q).1

def AllUnbroken : List Op → Ring → Prop
  | [], _ => True
  | op::ops, rb => Unbroken op rb ∧ AllUnbroken ops (call op rb).1

theorem Follows.buffered {ops : List Op} (h : Follows ops rb q) : rb.buffered = q.length := by
  cases ops with
  | nil => exact h.2
  | cons op ops => exact h.1.2

theorem follows_iff (ops : List Op) (rb : Ring) (q : List UInt8) (h : Rep rb q) :
    Follows ops rb q ↔ AllUnbroken ops rb := by
  induction ops generalizing rb q with
  | nil => exact iff_of_true ⟨h.bytes_eq,h.buffered_eq⟩ trivial
  | cons op ops ih =>
    constructor
    · rintro ⟨_,_,hrest⟩
      have hop : Unbroken op rb := by
        by_contra hno
        exact call_strays h hno hrest.buffered
      exact ⟨hop,(ih _ _ (call_rep h hop)).mp hrest⟩
    · rintro ⟨hop,hrest⟩
      exact ⟨⟨h.bytes_eq,h.buffered_eq⟩,call_out op h,
        (ih _ _ (call_rep h hop)).mpr hrest⟩

/-- A ring of any initial capacity is a queue exactly as long as every call that
moves the read position by the mask finds it equal to the remainder. -/
theorem ring_follows_queue_iff (fresh : Cells) (capacity : ℤ) (ops : List Op) :
    Follows ops (newRing fresh capacity) [] ↔ AllUnbroken ops (newRing fresh capacity) :=
  follows_iff ops _ _ (newRing_rep fresh capacity)

/-- Five bytes in a ring of two make one of capacity five, and discarding one byte
of it discards none. -/
theorem discard_keeps_byte :
    ¬Follows [.write (fun _ => 0) [1,2,3,4,5], .discard 1] (newRing (fun _ => 0) 2) [] := by
  intro h
  exact absurd h.2.2.2.2.1 (by decide)

end GoCommon.RingQueue
