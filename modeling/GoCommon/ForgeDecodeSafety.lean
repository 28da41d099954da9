import GoCommon.ForgeRecordCodec
import GoCommon.ForgeSegment

/-!
# Decoding arbitrary bytes

The decoder compares every end with the length of its buffer after the sum has been
taken in 64 bits, and cuts the header off before it knows that the frame has one. It
returns a batch or an error exactly when no length that it reads carries an end past the
range of int and the frame is as long as what is cut off.
-/

set_option autoImplicit false

namespace GoCommon.ForgeDecodeSafety
open List ByteWords ByteVarint ForgeRecord ForgeRecordCodec
open GoCommon.ForgeSegment (noLz4)

variable {α β : Type}

def Returns (x : Except Stop α) : Prop := ∀ s, x = .error s → ∃ e, s = .err e

theorem returns_ok (a : α) : Returns (.ok a : Except Stop α) := nofun

theorem returns_err {e : Err} : Returns (.error (.err e) : Except Stop α) := by
  intro s hs
  cases hs
  exact ⟨e,rfl⟩

theorem not_returns_panic : ¬Returns (.error .panic : Except Stop α) := fun h => by
  obtain ⟨e,he⟩ := h .panic rfl
  cases he

theorem returns_bind (x : Except Stop α) (f : α → Except Stop β) :
    Returns (x >>= f) ↔ Returns x ∧ ∀ a, x = .ok a → Returns (f a) := by
  cases x with
  | ok a => exact ⟨fun h => ⟨returns_ok a,fun b hb => by cases hb; exact h⟩,fun h => h.2 a rfl⟩
  | error s => exact ⟨fun h => ⟨fun t ht => by cases ht; exact h s rfl,nofun⟩,
      fun h t ht => by cases ht; exact h.1 s rfl⟩

/-! ## Lengths -/

def LengthFits (buf : Bytes) (off : ℕ) : Prop := ∀ v o, readVarint buf off = .ok (v,o) → (o:ℤ)+v < 2^63

def BytesFit (buf : Bytes) : ℕ → ℕ → Prop
  | 0, _ => True
  | n+1, off => LengthFits buf off ∧ ∀ b o, readVarintBytes buf off = .ok (b,o) → BytesFit buf n o

def HeadersFit (buf : Bytes) (off : ℕ) : Prop := ∀ n o, readVarint buf off = .ok (n,o) →
  0 ≤ n → n ≤ maxHeadersPerRecord → BytesFit buf (2*n.toNat) o

def BodyFits (buf : Bytes) : Prop := ∀ t o, readVarint buf 0 = .ok (t,o) →
  ∀ d o', readVarint buf o = .ok (d,o') → LengthFits buf o' ∧
    ∀ key k, readVarintBytes buf o' = .ok (key,k) → LengthFits buf k ∧
      ∀ value v, readVarintBytes buf k = .ok (value,v) → HeadersFit buf v

def RecordsFit : ℕ → Bytes → Prop
  | 0, _ => True
  | n+1, data => (0 < (varint data).2 → 0 ≤ (varint data).1 →
      (varint data).2+(varint data).1 < 2^63 ∧
        ((varint data).2+(varint data).1 ≤ data.length →
          BodyFits ((data.take ((varint data).2+(varint data).1).toNat).drop (varint data).2.toNat))) ∧
    ∀ r k, decodeRecord data = .ok (r,k) → RecordsFit n (data.drop k)

def BatchFits (data : Bytes) : Prop :=
  data.length < batchHeaderSize ∨ data.length < 12+headerField data 8 4 ∨
    7 ≤ headerField data 8 4 ∧
      (crc32c ((data.take (12+headerField data 8 4)).drop 19) ≠ headerField data 15 4 ∨
        23 ≤ headerField data 8 4 ∧
          RecordsFit (headerField data 12 2) ((data.take (12+headerField data 8 4)).drop 35))

/-! ## Reading -/

section Reading
variable {buf : Bytes} (hbuf : buf.length < 2^63)

theorem readVarint_returns (buf : Bytes) (off : ℕ) : Returns (readVarint buf off) := by
  rw [readVarint]
  split
  · exact returns_err
  dsimp only
  split
  · exact returns_err
  · exact returns_ok _

theorem readVarint_bounds {off : ℕ} {v : ℤ} {o : ℕ} (h : readVarint buf off = .ok (v,o)) :
    o ≤ buf.length ∧ v < 2^63 := by
  rw [readVarint] at h
  split at h
  · cases h
  dsimp only at h
  split at h
  · cases h
  cases h
  have hle := varint_le_length (buf.drop off)
  rw [length_drop] at hle
  exact ⟨by omega,(varint_range _).2⟩

theorem slice_returns {data : Bytes} {lo hi : ℤ} :
    Returns (slice data lo hi) ↔ 0 ≤ lo ∧ lo ≤ hi ∧ hi ≤ data.length := by
  rw [slice]
  split
  · rename_i h
    exact ⟨fun _ => h,fun _ => returns_ok _⟩
  · rename_i h
    exact ⟨fun hr => absurd hr not_returns_panic,fun hb => absurd hb h⟩

include hbuf

/-- A sum that leaves the range of int becomes negative and passes the comparison. -/
theorem readBytesAt_returns {v : ℤ} {o : ℕ} (ho : o ≤ buf.length) (hv : v < 2^63) :
    Returns (readBytesAt buf v o) ↔ (o:ℤ)+v < 2^63 := by
  rw [readBytesAt]
  split
  · exact ⟨fun _ => by omega,fun _ => returns_ok _⟩
  rw [readUpTo]
  rcases lt_or_ge ((o:ℤ)+v) (2^63) with hlt | hge
  · rw [int64_of_range (by omega) hlt]
    refine ⟨fun _ => hlt,fun _ => ?_⟩
    split
    · exact returns_err
    · rw [returns_bind, slice_returns]
      exact ⟨by omega,fun _ _ => returns_ok _⟩
  · have hwrap := int64_wrapped hge (by omega)
    rw [if_neg (by omega), returns_bind, slice_returns]
    exact ⟨fun h => by omega,fun h => by omega⟩

theorem readVarintBytes_returns (off : ℕ) : Returns (readVarintBytes buf off) ↔ LengthFits buf off := by
  rw [readVarintBytes, returns_bind]
  constructor
  · intro h v o hread
    obtain ⟨ho,hv⟩ := readVarint_bounds hread
    exact (readBytesAt_returns hbuf ho hv).mp (h.2 (v,o) hread)
  rintro h
  refine ⟨readVarint_returns buf off,?_⟩
  rintro ⟨v,o⟩ hread
  obtain ⟨ho,hv⟩ := readVarint_bounds hread
  exact (readBytesAt_returns hbuf ho hv).mpr (h v o hread)

omit hbuf in
theorem readVarint_bind {off : ℕ} {f : ℤ × ℕ → Except Stop β} : Returns (readVarint buf off >>= f) ↔
    ∀ v o, readVarint buf off = .ok (v,o) → Returns (f (v,o)) := by
  rw [returns_bind, Prod.forall]
  exact and_iff_right (readVarint_returns buf off)

theorem readVarintBytes_bind (off : ℕ) (f : Option Bytes × ℕ → Except Stop β) :
    Returns (readVarintBytes buf off >>= f) ↔ LengthFits buf off ∧
      ∀ b o, readVarintBytes buf off = .ok (b,o) → Returns (f (b,o)) := by
  rw [returns_bind, Prod.forall, readVarintBytes_returns hbuf]

theorem readHeaders_returns (n off : ℕ) : Returns (readHeaders buf n off) ↔ BytesFit buf (2*n) off := by
  induction n generalizing off with
  | zero => exact ⟨fun _ => trivial,fun _ => returns_ok _⟩
  | succ n ih =>
    rw [readHeaders, readVarintBytes_bind hbuf]
    refine and_congr_right fun _ => forall_congr' fun key => forall_congr' fun o => forall_congr' fun _ => ?_
    rw [readVarintBytes_bind hbuf]
    refine and_congr_right fun _ => forall_congr' fun value => forall_congr' fun o' =>
      forall_congr' fun _ => ?_
    rw [returns_bind, ih]
    exact ⟨fun h => h.1,fun h => ⟨h,fun _ _ => returns_ok _⟩⟩

theorem headersAt_returns (n : ℤ) (off : ℕ) :
    Returns (headersAt buf n off) ↔ (0 ≤ n → n ≤ maxHeadersPerRecord → BytesFit buf (2*n.toNat) off) := by
  rw [headersAt]
  split
  · exact ⟨fun _ h0 hm => by omega,fun _ => returns_err⟩
  · rw [returns_bind, readHeaders_returns hbuf]
    exact ⟨fun h _ _ => h.1,fun h => ⟨h (by omega) (by omega),fun _ _ => returns_ok _⟩⟩

theorem decodeBody_returns : Returns (decodeBody buf) ↔ BodyFits buf := by
  rw [decodeBody, readVarint_bind]
  refine forall_congr' fun t => forall_congr' fun o => forall_congr' fun _ => ?_
  rw [readVarint_bind]
  refine forall_congr' fun d => forall_congr' fun o' => forall_congr' fun _ => ?_
  rw [readVarintBytes_bind hbuf]
  refine and_congr_right fun _ => forall_congr' fun key => forall_congr' fun k => forall_congr' fun _ => ?_
  rw [readVarintBytes_bind hbuf]
  refine and_congr_right fun _ => forall_congr' fun value => forall_congr' fun v => forall_congr' fun _ => ?_
  rw [readVarint_bind]
  refine forall_congr' fun n => forall_congr' fun o'' => forall_congr' fun _ => ?_
  rw [returns_bind, headersAt_returns hbuf]
  exact ⟨fun h => h.1,fun h => ⟨h,fun _ _ => returns_ok _⟩⟩

end Reading

/-! ## Records and batches -/

theorem slice_inside (data : Bytes) (lo : ℕ) {hi : ℕ} (hlo : lo ≤ hi) (hhi : hi ≤ data.length) :
    slice data lo hi = .ok ((data.take hi).drop lo) :=
  if_pos ⟨Int.natCast_nonneg lo,by omega,by omega⟩

section Records
variable {data : Bytes} (hdata : data.length < 2^63)
include hdata

theorem decodeRecord_returns : Returns (decodeRecord data) ↔
    (0 < (varint data).2 → 0 ≤ (varint data).1 → (varint data).2+(varint data).1 < 2^63 ∧
      ((varint data).2+(varint data).1 ≤ data.length →
        BodyFits ((data.take ((varint data).2+(varint data).1).toNat).drop (varint data).2.toNat))) := by
  have hrange := varint_range data
  have hlength := varint_le_length data
  rw [decodeRecord]
  generalize varint data = vn at hrange hlength ⊢
  obtain ⟨v,n⟩ := vn
  dsimp only at hrange hlength ⊢
  by_cases hbad : n ≤ 0 ∨ v < 0
  · rw [if_pos hbad]
    exact ⟨fun _ h0 hv => by omega,fun _ => returns_err⟩
  rw [if_neg hbad, decodeUpTo]
  rcases lt_or_ge (n+v) (2^63) with hlt | hge
  · rw [int64_of_range (by omega) hlt]
    by_cases hlong : (data.length:ℤ) < n+v
    · rw [if_pos hlong]
      exact ⟨fun _ _ _ => ⟨hlt,fun hle => by omega⟩,fun _ => returns_err⟩
    have hslice : slice data n (n+v) = .ok ((data.take (n+v).toNat).drop n.toNat) :=
      if_pos ⟨by omega,by omega,by omega⟩
    have hbody : ((data.take (n+v).toNat).drop n.toNat).length < 2^63 := by
      rw [length_drop, length_take]
      omega
    have hrest := returns_bind (decodeBody ((data.take (n+v).toNat).drop n.toNat))
      (fun r => (.ok (r,(n+v).toNat) : Except Stop (Record × ℕ)))
    rw [if_neg hlong, hslice]
    change Returns (decodeBody _ >>= fun r => (.ok (r,(n+v).toNat) : Except Stop (Record × ℕ))) ↔ _
    rw [hrest, decodeBody_returns hbody]
    exact ⟨fun h _ _ => ⟨hlt,fun _ => h.1⟩,
      fun h => ⟨(h (by omega) (by omega)).2 (by omega),fun _ _ => returns_ok _⟩⟩
  · have hwrap := int64_wrapped hge (by omega)
    rw [if_neg (by omega), returns_bind, slice_returns]
    exact ⟨fun h => by omega,fun h => absurd (h (by omega) (by omega)).1 (not_lt.mpr hge)⟩

omit hdata in
theorem decodeRecords_returns (n : ℕ) (data : Bytes) (hdata : data.length < 2^63) :
    Returns (decodeRecords n data) ↔ RecordsFit n data := by
  induction n generalizing data with
  | zero => exact ⟨fun _ => trivial,fun _ => returns_ok _⟩
  | succ n ih =>
    rw [decodeRecords, RecordsFit, returns_bind, Prod.forall, decodeRecord_returns hdata]
    refine and_congr_right fun _ => forall_congr' fun r => forall_congr' fun k => forall_congr' fun _ => ?_
    rw [returns_bind, ih _ (by rw [length_drop]; omega)]
    exact ⟨fun h => h.1,fun h => ⟨h,fun _ _ => returns_ok _⟩⟩

/-- Uncompressed data of any content comes back as a batch or an error exactly when its lengths
fit. -/
theorem decode_batch_returns_iff (lz4 : Lz4)
    (hnone : batchHeaderSize ≤ data.length → UInt8.ofNat (headerField data 14 1) = compressionNone) :
    (∀ s, decodeBatch lz4 data = .error s → ∃ e, s = .err e) ↔ BatchFits data := by
  have hsize : batchHeaderSize = 35 := rfl
  change Returns (decodeBatch lz4 data) ↔ _
  rw [decodeBatch, BatchFits]
  by_cases hshort : data.length < batchHeaderSize
  · rw [if_pos hshort]
    exact ⟨fun _ => Or.inl hshort,fun _ => returns_err⟩
  rw [if_neg hshort, or_iff_right hshort]
  dsimp only
  by_cases hcut : data.length < 12+headerField data 8 4
  · rw [if_pos hcut]
    exact ⟨fun _ => Or.inl hcut,fun _ => returns_err⟩
  rw [if_neg hcut, or_iff_right hcut]
  by_cases h7 : 7 ≤ headerField data 8 4
  · have h19 : slice data 19 (12+headerField data 8 4 : ℕ) =
        .ok ((data.take (12+headerField data 8 4)).drop 19) :=
      slice_inside data 19 (by omega) (by omega)
    rw [and_iff_right h7, h19, ok_bind]
    by_cases hsum : crc32c ((data.take (12+headerField data 8 4)).drop 19) = headerField data 15 4
    · rw [check_of hsum, ok_bind, or_iff_right (not_not.mpr hsum)]
      by_cases h23 : 23 ≤ headerField data 8 4
      · have h35 : slice data 35 (12+headerField data 8 4 : ℕ) =
            .ok ((data.take (12+headerField data 8 4)).drop 35) :=
          slice_inside data 35 (by omega) (by omega)
        rw [and_iff_right h23, h35, ok_bind, recordData, hnone (by omega), if_neg (not_not.mpr rfl), ok_bind, returns_bind, decodeRecords_returns]
        · exact ⟨fun h => h.1,fun h => ⟨h,fun _ _ => returns_ok _⟩⟩
        · rw [length_drop, length_take]
          omega
      · rw [returns_bind, slice_returns]
        exact ⟨fun h => by omega,fun h => absurd h.1 h23⟩
    · rw [check, if_neg hsum]
      exact ⟨fun _ => Or.inl hsum,fun _ => returns_err⟩
  · rw [returns_bind, slice_returns]
    exact ⟨fun h => by omega,fun h => absurd h.1 h7⟩

end Records

def oddFrame : Bytes := (encodeBatch noLz4 oddBatch).toOption.getD []

/-- A frame with two records, one of them with headers. -/
theorem odd_frame_returns : BatchFits oddFrame ∧ decodeBatch noLz4 oddFrame =
    .ok { oddBatch with records := oddBatch.records.map asRead } := by
  have hread : decodeBatch noLz4 oddFrame =
      .ok { oddBatch with records := oddBatch.records.map asRead } := by decide +kernel
  refine ⟨(decode_batch_returns_iff (by decide +kernel) noLz4 (fun _ => by decide +kernel)).mp ?_,hread⟩
  intro s h
  rw [hread] at h
  cases h

/-- A header of zeros names a frame that ends before the part that is summed. -/
theorem zero_header_panics : decodeBatch noLz4 (List.replicate 35 0) = .error .panic := by
  decide +kernel

end GoCommon.ForgeDecodeSafety
