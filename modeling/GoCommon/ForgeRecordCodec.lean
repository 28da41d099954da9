import GoCommon.ForgeRecord

/-!
# Laws of the record codec

The loops over encoded batches read self-delimiting frames: what they accept
depends on the bytes of the frame and not on what follows it. An uncompressed
batch whose length fits the length field is read back, record by record, with
nil and empty byte slices kept apart.
-/

set_option autoImplicit false

namespace GoCommon.ForgeRecordCodec
open List ByteWords ByteVarint ByteStream ForgeRecord

theorem headerField_append (data rest : Bytes) (off width : ℕ) (h : off+width ≤ data.length) :
    headerField (data++rest) off width = headerField data off width := by
  unfold headerField
  rw [drop_append_of_le_length (by omega), take_append_of_le_length (by simp; omega)]

variable (lz4 : Lz4) (buf : Bytes) (data : Bytes) (r : Record) (b : RecordBatch) (n : ℕ)
  (ct : UInt8) (body : Bytes)

theorem headerField_take (n off width : ℕ) (h : off+width ≤ n) :
    headerField (data.take n) off width = headerField data off width := by
  unfold headerField
  rw [drop_take, take_take, Nat.min_eq_left (by omega)]

theorem headerField_lt (off width : ℕ) : headerField data off width < 256^width := by
  refine lt_of_lt_of_le (uint_lt) ?_
  exact Nat.pow_le_pow_right (by norm_num) (by simp)

theorem batchSize_ok : batchSize data = .ok n ↔
    12 ≤ data.length ∧ n = 12+headerField data 8 4 ∧ n ≤ data.length := by
  unfold batchSize
  split_ifs with h1 h2
  · simp; omega
  · simp; omega
  · simp only [Except.ok.injEq]; omega

theorem batchSize_append (data rest : Bytes) (n : ℕ) (h : batchSize data = .ok n) :
    batchSize (data++rest) = .ok n := by
  obtain ⟨h1,h2,h3⟩ := (batchSize_ok data n).mp h
  rw [batchSize_ok, headerField_append data rest 8 4 h1, length_append]
  omega

theorem batchSize_take (h : batchSize data = .ok n) : batchSize (data.take n) = .ok n := by
  obtain ⟨h1,h2,h3⟩ := (batchSize_ok data n).mp h
  rw [batchSize_ok, headerField_take data n 8 4 (by omega), length_take]
  omega

@[simp] theorem ok_bind {α β : Type} (a : α) (f : α → Except Stop β) :
    (Except.ok a >>= f) = f a := by
  cases h : f a <;> simp [bind, Except.bind, h]

theorem bind_ok {α β : Type} {x : Except Stop α} {f : α → Except Stop β} {r : β} :
    (x >>= f) = .ok r ↔ ∃ a, x = .ok a ∧ f a = .ok r := by
  cases x with
  | error e => simp [bind, Except.bind]
  | ok a => simp [bind, Except.bind]

theorem check_of {p : Prop} [Decidable p] {s : Stop} (h : p) : check p s = .ok () := if_pos h

theorem accepted_some {n m : ℕ} {r : Except Stop RecordBatch} {b : RecordBatch} :
    accepted n r = .ok (some (b,m)) ↔ r = .ok b ∧ n = m := by
  rcases r with (e | _ | _) | c <;> simp [accepted]

theorem accepted_error {r : Except Stop RecordBatch} {s : Stop} :
    accepted n r = .error s ↔ r = .error s ∧ ∀ e, s ≠ .err e := by
  rcases r with (e | _ | _) | c <;> cases s <;> simp [accepted]

theorem nextBatch_some :
    nextBatch lz4 buf = .ok (some (b,n)) ↔
      batchSize buf = .ok n ∧ decodeBatch lz4 (buf.take n) = .ok b := by
  unfold nextBatch
  rcases hs : batchSize buf with e | m
  · simp
  simp only [accepted_some, Except.ok.injEq]
  constructor
  · rintro ⟨hd,rfl⟩
    exact ⟨rfl,hd⟩
  · rintro ⟨rfl,hd⟩
    exact ⟨hd,rfl⟩

theorem nextBatch_error (s : Stop) : nextBatch lz4 buf = .error s ↔
    ∃ n, batchSize buf = .ok n ∧ decodeBatch lz4 (buf.take n) = .error s ∧ ∀ e, s ≠ .err e := by
  unfold nextBatch
  rcases hs : batchSize buf with e | m
  · simp
  · simp [accepted_error]

theorem nextBatch_framing : Framing (nextBatch lz4) where
  empty := rfl
  bounded := by
    intro buf b n h
    obtain ⟨h1,h2,h3⟩ := (batchSize_ok buf n).mp ((nextBatch_some lz4 buf b n).mp h).1
    omega
  own := by
    intro buf b n h
    obtain ⟨hs,hd⟩ := (nextBatch_some lz4 buf b n).mp h
    rw [nextBatch_some, take_take, Nat.min_self]
    exact ⟨batchSize_take buf n hs,hd⟩
  extend := by
    intro buf rest b n h
    obtain ⟨hs,hd⟩ := (nextBatch_some lz4 buf b n).mp h
    have hn := ((batchSize_ok buf n).mp hs).2.2
    rw [nextBatch_some, take_append_of_le_length hn]
    exact ⟨batchSize_append buf rest n hs,hd⟩
  fails := by
    intro buf rest s h
    obtain ⟨n,hs,hd,he⟩ := (nextBatch_error lz4 buf s).mp h
    have hn := ((batchSize_ok buf n).mp hs).2.2
    rw [nextBatch_error]
    exact ⟨n,batchSize_append buf rest n hs,by rwa [take_append_of_le_length hn],he⟩

/-! ## What an accepted batch carries -/

theorem decodeRecords_length (data : Bytes) (rs : List Record)
    (h : decodeRecords n data = .ok rs) : rs.length = n := by
  induction n generalizing data rs with
  | zero =>
    cases h
    rfl
  | succ n ih =>
    simp only [decodeRecords, bind_ok] at h
    obtain ⟨⟨r,k⟩,_,ts,ht,he⟩ := h
    cases he
    rw [length_cons, ih _ _ ht]

theorem decodeBatch_fields (h : decodeBatch lz4 data = .ok b) : batchHeaderSize ≤ data.length ∧
      b.baseOffset = headerField data 0 8 ∧ b.recordCount = headerField data 12 2 ∧
      b.records.length = b.recordCount := by
  simp only [decodeBatch] at h
  split_ifs at h with h1 h2
  simp only [bind_ok] at h
  obtain ⟨_,_,_,_,_,_,_,_,rs,hr,he⟩ := h
  cases he
  exact ⟨by omega,rfl,rfl,decodeRecords_length _ _ _ hr⟩

theorem decodeBatch_header (h : decodeBatch lz4 data = .ok b) :
    parseBatchHeader data = .ok (b.baseOffset,b.recordCount) := by
  obtain ⟨h1,h2,h3,_⟩ := decodeBatch_fields lz4 data b h
  simp [parseBatchHeader, show ¬ data.length < batchHeaderSize by omega, h2, h3]

theorem decodeBatch_count (h : decodeBatch lz4 data = .ok b) : b.records.length = b.recordCount :=
  (decodeBatch_fields lz4 data b h).2.2.2

/-! ## Round trip -/

def asRead (r : Record) : Record :=
  { r with headers := if headerList r = [] then none else r.headers }

theorem varIntSize_eq (v : ℤ) (hl : -2^63 ≤ v) (hu : v < 2^63) :
    varIntSize v = (putVarint v).length := by
  have hz := zigzag_lt hl hu
  have h := uvarintSizeLoop_eq 9 (zigzag v) 1 (lt_trans hz (by norm_num))
  have hp : putVarint v = putUvarintLoop (9+1) (zigzag v) := rfl
  rw [hp, varIntSize]
  omega

theorem varintBytesSize_eq (b : Option Bytes) (h : (appendVarintBytes b).length < 2^63) :
    varintBytesSize b = (appendVarintBytes b).length := by
  cases b with
  | none => exact varIntSize_eq (-1) (by norm_num) (by norm_num)
  | some b =>
    rw [appendVarintBytes, length_append] at h
    rw [varintBytesSize, appendVarintBytes, length_append,
      varIntSize_eq _ (by omega) (by omega)]

theorem headersSize_eq {hs : List Header} (h : (appendHeaders hs).length < 2^63) :
    headersSize hs = (appendHeaders hs).length := by
  induction hs with
  | nil => rfl
  | cons x hs ih =>
    have hc : appendHeaders (x::hs) =
        appendVarintBytes x.key++appendVarintBytes x.value++appendHeaders hs := rfl
    have hd : headersSize (x::hs) =
        varintBytesSize x.key+varintBytesSize x.value+headersSize hs := rfl
    rw [hc, length_append, length_append] at h
    rw [hc, hd, length_append, length_append, ih (by omega),
      varintBytesSize_eq _ (by omega), varintBytesSize_eq _ (by omega)]

theorem bodySize_eq (h : (appendBody r).length < 2^63)
    (hh : (headerList r).length < 2^63) : bodySize r = (appendBody r).length := by
  simp only [appendBody, length_append] at h
  simp only [bodySize, appendBody, length_append]
  rw [varIntSize_eq _ r.timestampDelta.le_toInt r.timestampDelta.toInt_lt,
    varIntSize_eq _ r.offsetDelta.le_toInt r.offsetDelta.toInt_lt,
    varintBytesSize_eq r.key (by omega), varintBytesSize_eq r.value (by omega),
    varIntSize_eq (headerList r).length (by omega) (by omega), headersSize_eq (by omega)]

theorem readVarint_put (pre post : Bytes) (v : ℤ) (hl : -2^63 ≤ v) (hu : v < 2^63) :
    readVarint (pre++(putVarint v++post)) pre.length = .ok (v,pre.length+(putVarint v).length) := by
  have hp := putVarint_pos v
  have hlen : ¬ (pre++(putVarint v++post)).length ≤ pre.length := by
    simp only [length_append]
    omega
  simp only [readVarint, if_neg hlen, drop_left', varint_put v post hl hu]
  simp only [show ¬ (((putVarint v).length:ℤ) ≤ 0) by omega, if_false, Int.toNat_natCast]

theorem slice_middle (pre b post : Bytes) :
    slice (pre++(b++post)) pre.length ((pre.length+b.length:ℕ):ℤ) = .ok b := by
  have hc : (0:ℤ) ≤ pre.length ∧ (pre.length:ℤ) ≤ ((pre.length+b.length:ℕ):ℤ) ∧
      ((pre.length+b.length:ℕ):ℤ) ≤ (pre++(b++post)).length := by
    simp only [length_append]
    omega
  rw [slice, if_pos hc, Int.toNat_natCast, Int.toNat_natCast, ← append_assoc,
    ← length_append, take_left, drop_left]

theorem readBytesAt_some (pre b post : Bytes) (h : (pre++(b++post)).length < 2^63) :
    readBytesAt (pre++(b++post)) b.length pre.length = .ok (some b,pre.length+b.length) := by
  simp only [length_append] at h
  have hi : int64 ((pre.length:ℤ)+(b.length:ℤ)) = ((pre.length+b.length:ℕ):ℤ) := by
    rw [int64_of_range (by omega) (by omega)]
    rfl
  have hb : ¬ (((pre++(b++post)).length:ℤ) < ((pre.length+b.length:ℕ):ℤ)) := by
    simp only [length_append]
    omega
  rw [readBytesAt, hi, readUpTo, if_neg hb, slice_middle]
  rfl

theorem readVarintBytes_append (pre post : Bytes) (b : Option Bytes)
    (h : (pre++(appendVarintBytes b++post)).length < 2^63) :
    readVarintBytes (pre++(appendVarintBytes b++post)) pre.length =
      .ok (b,pre.length+(appendVarintBytes b).length) := by
  cases b with
  | none =>
    simp only [readVarintBytes, appendVarintBytes,
      readVarint_put pre post (-1) (by norm_num) (by norm_num), ok_bind, readBytesAt]
    simp
  | some b =>
    simp only [appendVarintBytes, append_assoc] at h ⊢
    have hb : (b.length:ℤ) < 2^63 := by
      simp only [length_append] at h
      omega
    have hr := readVarint_put pre (b++post) b.length (by omega) hb
    have ht := readBytesAt_some (pre++putVarint b.length) b post (by simpa using h)
    simp only [append_assoc, length_append] at ht
    simp only [readVarintBytes, hr, ok_bind, ht, length_append, add_assoc]

theorem readHeaders_append (pre post : Bytes) (hs : List Header)
    (h : (pre++(appendHeaders hs++post)).length < 2^63) :
    readHeaders (pre++(appendHeaders hs++post)) hs.length pre.length =
      .ok (hs,pre.length+(appendHeaders hs).length) := by
  induction hs generalizing pre with
  | nil => rfl
  | cons x hs ih =>
    have hc : appendHeaders (x::hs) =
        appendVarintBytes x.key++(appendVarintBytes x.value++appendHeaders hs) := by
      simp [appendHeaders]
    rw [hc] at h ⊢
    simp only [append_assoc] at h ⊢
    have hk := readVarintBytes_append pre _ x.key h
    have hv := readVarintBytes_append (pre++appendVarintBytes x.key) (appendHeaders hs++post)
      x.value (by simpa using h)
    have ht := ih (pre++appendVarintBytes x.key++appendVarintBytes x.value) (by simpa using h)
    simp only [append_assoc, length_append] at hv ht
    simp only [readHeaders, length_cons, hk, ok_bind, hv, ht, length_append,
      add_assoc, pure, Except.pure]

theorem headersAt_append (pre : Bytes) (hs : List Header)
    (h : (pre++(appendHeaders hs++[])).length < 2^63) :
    headersAt (pre++(appendHeaders hs++[])) hs.length pre.length =
      if hs.length ≤ maxHeadersPerRecord then .ok (if hs = [] then none else some hs)
      else .error corruptRecord := by
  by_cases hh : hs.length ≤ maxHeadersPerRecord
  · have hc : ¬ ((hs.length:ℤ) < 0 ∨ (maxHeadersPerRecord:ℤ) < hs.length) := by omega
    rw [headersAt, if_neg hc, if_pos hh, Int.toNat_natCast, readHeaders_append pre [] hs h]
    cases hs with
    | nil => rfl
    | cons x hs => simp [pure, Except.pure]
  · rw [headersAt, if_pos (by omega), if_neg hh]

theorem asRead_headers :
    (asRead r).headers = if headerList r = [] then none else some (headerList r) := by
  unfold asRead headerList
  cases r.headers with
  | none => simp
  | some hs => simp

theorem decodeBody_of {t d n : ℤ} {key value : Option Bytes}
    {hs : Except Stop (Option (List Header))} {o1 o2 o3 o4 o5 : ℕ}
    (h1 : readVarint buf 0 = .ok (t,o1))
    (h2 : readVarint buf o1 = .ok (d,o2)) (h3 : readVarintBytes buf o2 = .ok (key,o3))
    (h4 : readVarintBytes buf o3 = .ok (value,o4)) (h5 : readVarint buf o4 = .ok (n,o5))
    (h6 : headersAt buf n o5 = hs) :
    decodeBody buf = hs.map (fun hs => ⟨Int64.ofInt t,Int64.ofInt d,key,value,hs⟩) := by
  simp only [decodeBody, h1, h2, h3, h4, h5, h6, ok_bind]
  cases hs <;> rfl

theorem decodeBody_parts (A B C D E F : Bytes) (t d n : ℤ) (key value : Option Bytes)
    (hs : Except Stop (Option (List Header)))
    (h1 : readVarint ([]++(A++(B++(C++(D++(E++F)))))) ([]:Bytes).length =
      .ok (t,([]:Bytes).length+A.length))
    (h2 : readVarint (A++(B++(C++(D++(E++F))))) A.length = .ok (d,A.length+B.length))
    (h3 : readVarintBytes ((A++B)++(C++(D++(E++F)))) (A++B).length =
      .ok (key,(A++B).length+C.length))
    (h4 : readVarintBytes ((A++B++C)++(D++(E++F))) (A++B++C).length =
      .ok (value,(A++B++C).length+D.length))
    (h5 : readVarint ((A++B++C++D)++(E++F)) (A++B++C++D).length =
      .ok (n,(A++B++C++D).length+E.length))
    (h6 : headersAt ((A++B++C++D++E)++F) n (A++B++C++D++E).length = hs) :
    decodeBody (A++B++C++D++E++F) =
      hs.map (fun hs => ⟨Int64.ofInt t,Int64.ofInt d,key,value,hs⟩) := by
  simp only [append_assoc, length_append, nil_append, length_nil,
    zero_add, add_assoc] at h1 h2 h3 h4 h5 h6 ⊢
  exact decodeBody_of _ h1 h2 h3 h4 h5 h6

theorem decodeBody_append (h : (appendBody r).length < 2^63)
    (hh : (headerList r).length < 2^63) : decodeBody (appendBody r) =
      if (headerList r).length ≤ maxHeadersPerRecord then .ok (asRead r)
      else .error corruptRecord := by
  have hk : ∀ xs ys zs : Bytes, appendBody r = xs++ys++zs → (xs++(ys++zs)).length < 2^63 := by
    intro xs ys zs e
    rwa [← append_assoc, ← e]
  have h6 := headersAt_append (putVarint r.timestampDelta.toInt++putVarint r.offsetDelta.toInt++
    appendVarintBytes r.key++appendVarintBytes r.value++putVarint (headerList r).length)
    (headerList r) (hk _ _ [] (by simp [appendBody]))
  rw [← asRead_headers, append_nil] at h6
  have hd := decodeBody_parts (putVarint r.timestampDelta.toInt) (putVarint r.offsetDelta.toInt)
    (appendVarintBytes r.key) (appendVarintBytes r.value) (putVarint (headerList r).length)
    (appendHeaders (headerList r)) r.timestampDelta.toInt r.offsetDelta.toInt
    (headerList r).length r.key r.value _
    (readVarint_put _ _ _ r.timestampDelta.le_toInt r.timestampDelta.toInt_lt)
    (readVarint_put _ _ _ r.offsetDelta.le_toInt r.offsetDelta.toInt_lt)
    (readVarintBytes_append _ _ _ (hk _ _ _ (by simp [appendBody])))
    (readVarintBytes_append _ _ _ (hk _ _ _ (by simp [appendBody])))
    (readVarint_put _ _ _ (by omega) (by omega)) h6
  rw [Int64.ofInt_toInt, Int64.ofInt_toInt] at hd
  rw [appendBody, hd]
  split_ifs <;> rfl

theorem decodeRecord_limit (rest : Bytes)
    (h : (appendRecord r++rest).length < 2^63) (hh : (headerList r).length < 2^63) :
    decodeRecord (appendRecord r++rest) =
      if (headerList r).length ≤ maxHeadersPerRecord then .ok (asRead r,(appendRecord r).length)
      else .error corruptRecord := by
  simp only [appendRecord, append_assoc, length_append] at h ⊢
  have hb := bodySize_eq r (by omega) hh
  have hv := varint_put (bodySize r) (appendBody r++rest) (by omega) (by omega)
  have hp := putVarint_pos (bodySize r)
  have hi : int64 (((putVarint (bodySize r)).length:ℤ)+(bodySize r:ℤ)) =
      (((putVarint (bodySize r)).length+(appendBody r).length:ℕ):ℤ) := by
    rw [int64_of_range (by omega) (by omega), hb]
    rfl
  have hn : ¬ (((putVarint (bodySize r)).length:ℤ) ≤ 0 ∨ ((bodySize r:ℤ) < 0)) := by omega
  have hl : ¬ (((putVarint (bodySize r)++(appendBody r++rest)).length:ℤ) <
      (((putVarint (bodySize r)).length+(appendBody r).length:ℕ):ℤ)) := by
    simp only [length_append]
    omega
  simp only [decodeRecord, hv, if_neg hn]
  rw [hi, decodeUpTo, if_neg hl, slice_middle]
  simp only [ok_bind, decodeBody_append r (by omega) hh, Int.toNat_natCast]
  split_ifs <;> rfl

theorem decodeRecord_append {rest : Bytes} (h : (appendRecord r++rest).length < 2^63)
    (hh : (headerList r).length ≤ maxHeadersPerRecord) :
    decodeRecord (appendRecord r++rest) = .ok (asRead r,(appendRecord r).length) := by
  have hm : maxHeadersPerRecord = 10000 := rfl
  rw [decodeRecord_limit r rest h (by omega), if_pos hh]

theorem decodeRecords_append (rs : List Record) (h : (appendRecords rs).length < 2^63)
    (hh : ∀ r ∈ rs, (headerList r).length ≤ maxHeadersPerRecord) :
    decodeRecords rs.length (appendRecords rs) = .ok (rs.map asRead) := by
  induction rs with
  | nil => rfl
  | cons r rs ih =>
    have hc : appendRecords (r::rs) = appendRecord r++appendRecords rs := by simp [appendRecords]
    rw [hc] at h ⊢
    have hr := decodeRecord_append r h (hh r (by simp))
    rw [length_append] at h
    have ht := ih (by omega) (fun q hq => hh q (by simp [hq]))
    simp only [decodeRecords, length_cons, hr, ok_bind, drop_left, ht, pure,
      Except.pure, map_cons]

theorem frame_length : (frame b ct body).length = 35+body.length := by
  simp [frame, checksummed]
  omega

def fields (fs : List (ℕ × ℕ)) : Bytes := fs.flatMap fun f => putUint f.1 f.2

theorem headerField_fields {fs : List (ℕ × ℕ)} {w v : ℕ} (i : ℕ) (h : fs[i]? = some (w,v)) (post : Bytes) :
    headerField (fields fs++post) ((fs.take i).map Prod.fst).sum w = v%256^w := by
  induction fs generalizing i with
  | nil => cases h
  | cons f fs ih =>
    cases i with
    | zero =>
      cases h
      simp [fields, headerField, uint_putUint]
    | succ i =>
      rw [← ih i h]
      change uint (take w (drop (f.1+_) (putUint f.1 f.2++fields fs++post))) = _
      rw [append_assoc, ← drop_drop, drop_left' (putUint_length f.1)]
      rfl

def layout : List (ℕ × ℕ) := [(8,b.baseOffset),(4,23+body.length),(2,b.recordCount),(1,ct.toNat),
  (4,crc32c (checksummed b body)),(8,b.timestamp.toUInt64.toNat),(8,b.maxTimestamp.toUInt64.toNat)]

theorem frame_layout : frame b ct body = fields (layout b ct body)++body := by
  simp [frame, checksummed, layout, fields, putUint]

theorem frame_covered :
    slice (frame b ct body) 19 ((35+body.length:ℕ):ℤ) = .ok (checksummed b body) := by
  have h := slice_middle (fields ((layout b ct body).take 5)) (checksummed b body) []
  have hl : 19+(checksummed b body).length = 35+body.length := by
    simp [checksummed]
    omega
  have hpre : (fields ((layout b ct body).take 5)).length = 19 := by simp [fields, layout]
  rw [hpre, hl] at h
  rw [frame_layout]
  simpa [layout, fields, checksummed] using h

theorem frame_body : slice (frame b ct body) 35 ((35+body.length:ℕ):ℤ) = .ok body := by
  have h := slice_middle (fields (layout b ct body)) body []
  rwa [append_nil, ← frame_layout] at h

theorem time_field {t : Int64} : (UInt64.ofNat (t.toUInt64.toNat%256^8)).toInt64 = t := by
  have h : t.toUInt64.toNat < 256^8 := lt_of_lt_of_le t.toUInt64.toNat_lt (by norm_num)
  rw [Nat.mod_eq_of_lt h, UInt64.ofNat_toNat]
  rfl

theorem frame_fields :
    headerField (frame b ct body) 0 8 = b.baseOffset%256^8 ∧
    headerField (frame b ct body) 8 4 = (23+body.length)%256^4 ∧
    headerField (frame b ct body) 12 2 = b.recordCount%256^2 ∧
    headerField (frame b ct body) 14 1 = ct.toNat%256^1 ∧
    headerField (frame b ct body) 15 4 = crc32c (checksummed b body)%256^4 ∧
    headerField (frame b ct body) 19 8 = b.timestamp.toUInt64.toNat%256^8 ∧
    headerField (frame b ct body) 27 8 = b.maxTimestamp.toUInt64.toNat%256^8 := by
  rw [frame_layout]
  exact ⟨headerField_fields 0 rfl _,headerField_fields 1 rfl _,headerField_fields 2 rfl _,
    headerField_fields 3 rfl _,headerField_fields 4 rfl _,headerField_fields 5 rfl _,
    headerField_fields 6 rfl _⟩

theorem batchSize_frame
    (h : 23+body.length < 2^32) : batchSize (frame b ct body) = .ok (frame b ct body).length := by
  have hf := (frame_fields b ct body).2.1
  rw [batchSize_ok, frame_length]
  omega

theorem decodeBatch_of (covered stored recData : Bytes)
    (rs : List Record) (hl : batchHeaderSize ≤ data.length)
    (ht : 12+headerField data 8 4 ≤ data.length)
    (hc : slice data 19 ((12+headerField data 8 4:ℕ):ℤ) = .ok covered)
    (hk : crc32c covered = headerField data 15 4)
    (hs : slice data 35 ((12+headerField data 8 4:ℕ):ℤ) = .ok stored)
    (hd : recordData lz4 (UInt8.ofNat (headerField data 14 1)) stored = .ok recData)
    (hr : decodeRecords (headerField data 12 2) recData = .ok rs) :
    decodeBatch lz4 data = .ok ⟨headerField data 0 8,headerField data 12 2,
      UInt8.ofNat (headerField data 14 1),(UInt64.ofNat (headerField data 19 8)).toInt64,
      (UInt64.ofNat (headerField data 27 8)).toInt64,rs⟩ := by
  simp only [decodeBatch]
  rw [if_neg (by omega), if_neg (by omega)]
  exact (bind_ok).mpr ⟨_,hc,(bind_ok).mpr ⟨_,check_of hk,
    (bind_ok).mpr ⟨_,hs,(bind_ok).mpr ⟨_,hd,(bind_ok).mpr ⟨_,hr,rfl⟩⟩⟩⟩⟩

theorem decodeBatch_frame {body recData : Bytes}
    {rs : List Record} (hl : 23+body.length < 2^32) (hb : b.baseOffset < 2^64)
    (hn : b.recordCount < 2^16) (hd : recordData lz4 ct body = .ok recData)
    (hr : decodeRecords b.recordCount recData = .ok rs) :
    decodeBatch lz4 (frame b ct body) =
      .ok ⟨b.baseOffset,b.recordCount,ct,b.timestamp,b.maxTimestamp,rs⟩ := by
  obtain ⟨f0,f8,f12,f14,f15,f19,f27⟩ := frame_fields b ct body
  have hct : ct.toNat%256^1 = ct.toNat := Nat.mod_eq_of_lt (by simpa using ct.toNat_lt)
  have hcrc := crc32c_lt (checksummed b body)
  rw [Nat.mod_eq_of_lt (by omega)] at f0 f8 f12 f15
  rw [hct] at f14
  have ht : 12+(23+body.length) = 35+body.length := by omega
  have hlen := frame_length b ct body
  have h := decodeBatch_of lz4 (frame b ct body) (checksummed b body) body recData rs
    (by rw [hlen]; unfold batchHeaderSize; omega) (by rw [f8, hlen]; omega)
    (by rw [f8, ht]; exact frame_covered b ct body) (by rw [f15])
    (by rw [f8, ht]; exact frame_body b ct body)
    (by rw [f14, UInt8.ofNat_toNat]; exact hd) (by rw [f12]; exact hr)
  rwa [f0, f12, f14, f19, f27, UInt8.ofNat_toNat, time_field, time_field] at h

theorem decodeBatch_body {c : RecordBatch} (hl : 23+body.length < 2^32) (hn : b.recordCount < 2^16)
    (h : decodeBatch lz4 (frame b ct body) = .ok c) : ∃ recData,
      recordData lz4 ct body = .ok recData ∧
      decodeRecords b.recordCount recData = .ok c.records := by
  obtain ⟨_,f8,f12,f14,_⟩ := frame_fields b ct body
  have hct : ct.toNat%256^1 = ct.toNat := Nat.mod_eq_of_lt (by simpa using ct.toNat_lt)
  rw [Nat.mod_eq_of_lt (by omega)] at f8 f12
  rw [hct] at f14
  simp only [decodeBatch] at h
  split_ifs at h
  simp only [bind_ok] at h
  obtain ⟨_,_,_,_,stored,hs,recData,hd,rs,hr,he⟩ := h
  cases he
  have hbody := frame_body b ct body
  rw [f8, show 12+(23+body.length) = 35+body.length by omega, hbody, Except.ok.injEq] at hs
  rw [f14, UInt8.ofNat_toNat, ← hs] at hd
  rw [f12] at hr
  exact ⟨recData,hd,hr⟩

/-- The codec gives a batch back: the frame announces its own length and
decodes to the same records at the same offsets, within the offset range. -/
def RoundTrips (lz4 : Lz4) (b : RecordBatch) : Prop := ∃ e c,
  encodeBatch lz4 b = .ok e ∧ batchSize e = .ok e.length ∧ decodeBatch lz4 e = .ok c ∧
  c.baseOffset = b.baseOffset ∧ c.recordCount = b.recordCount ∧
  c.records = b.records.map asRead ∧ endOffset c = b.baseOffset+b.recordCount

instance (lz4 : Lz4) (b : RecordBatch) : Decidable (RoundTrips lz4 b) :=
  match h : encodeBatch lz4 b with
  | .error _ => isFalse (by simp [RoundTrips, h])
  | .ok e => match hd : decodeBatch lz4 e with
    | .error _ => isFalse (by simp [RoundTrips, h, hd])
    | .ok c => decidable_of_iff (batchSize e = .ok e.length ∧ c.baseOffset = b.baseOffset ∧
        c.recordCount = b.recordCount ∧ c.records = b.records.map asRead ∧
        endOffset c = b.baseOffset+b.recordCount) (by simp [RoundTrips, h, hd])

/-! ## Decoded records -/

structure Settled (r : Record) : Prop where
  headers : (headerList r).length ≤ maxHeadersPerRecord
  same : asRead r = r

theorem readHeaders_length (n off : ℕ) (hs : List Header) (o : ℕ)
    (h : readHeaders data n off = .ok (hs,o)) : hs.length = n := by
  induction n generalizing off hs o with
  | zero =>
    cases h
    rfl
  | succ n ih =>
    simp only [readHeaders, bind_ok] at h
    obtain ⟨⟨k,o1⟩,_,⟨v,o2⟩,_,⟨ts,o3⟩,ht,he⟩ := h
    cases he
    rw [length_cons, ih _ _ _ ht]

theorem headersAt_settled {n : ℤ} {off : ℕ} {hs : Option (List Header)}
    (h : headersAt buf n off = .ok hs) :
    (hs.getD []).length ≤ maxHeadersPerRecord ∧ hs ≠ some [] := by
  unfold headersAt at h
  split at h
  · cases h
  simp only [bind_ok] at h
  obtain ⟨⟨l,o⟩,hl,he⟩ := h
  have hlen := readHeaders_length _ _ _ _ _ hl
  split at he
  · cases he
    refine ⟨by simp only [Option.getD_some]; omega,?_⟩
    rintro ⟨⟩
    simp only [length_nil] at hlen
    omega
  · cases he
    simp

theorem decodeBody_settled (h : decodeBody buf = .ok r) : Settled r := by
  simp only [decodeBody, bind_ok] at h
  obtain ⟨_,_,_,_,_,_,_,_,_,_,hs,hh,he⟩ := h
  cases he
  obtain ⟨h1,h2⟩ := headersAt_settled _ hh
  refine ⟨h1,?_⟩
  cases hs with
  | none => rfl
  | some l =>
    have hl : l ≠ [] := fun hn => h2 (by rw [hn])
    simp [asRead, headerList, hl]

theorem decodeRecord_settled (k : ℕ) (h : decodeRecord data = .ok (r,k)) : Settled r := by
  simp only [decodeRecord] at h
  split at h
  · cases h
  unfold decodeUpTo at h
  split at h
  · cases h
  simp only [bind_ok] at h
  obtain ⟨_,_,r',hr,he⟩ := h
  cases he
  exact decodeBody_settled _ _ hr

theorem decodeRecords_settled (data : Bytes) (rs : List Record)
    (h : decodeRecords n data = .ok rs) : ∀ r ∈ rs, Settled r := by
  induction n generalizing data rs with
  | zero =>
    cases h
    simp
  | succ n ih =>
    simp only [decodeRecords, bind_ok] at h
    obtain ⟨⟨r,k⟩,hr,ts,ht,he⟩ := h
    cases he
    intro q hq
    rcases mem_cons.mp hq with rfl | hq
    · exact decodeRecord_settled _ _ _ hr
    · exact ih _ _ ht q hq

theorem decodeBatch_settled (h : decodeBatch lz4 data = .ok b) : ∀ r ∈ b.records, Settled r := by
  simp only [decodeBatch] at h
  split_ifs at h with h1 h2
  simp only [bind_ok] at h
  obtain ⟨_,_,_,_,_,_,_,_,rs,hr,he⟩ := h
  cases he
  exact decodeRecords_settled _ _ _ hr

/-! ## Uncompressed batches -/

theorem slice_append (data rest : Bytes) (lo : ℤ) {hi : ℤ} (h : hi ≤ data.length) :
    slice (data++rest) lo hi = slice data lo hi := by
  have hiff : (0 ≤ lo ∧ lo ≤ hi ∧ hi ≤ (data++rest).length) ↔
      0 ≤ lo ∧ lo ≤ hi ∧ hi ≤ data.length := by
    rw [length_append]
    omega
  simp only [slice, hiff]
  rw [take_append_of_le_length (by omega)]

theorem decodeBatch_append {data : Bytes} (rest : Bytes) (hl : batchHeaderSize ≤ data.length)
    (ht : 12+headerField data 8 4 ≤ data.length) :
    decodeBatch lz4 (data++rest) = decodeBatch lz4 data := by
  have hsize : batchHeaderSize = 35 := rfl
  have hf : ∀ off width, off+width ≤ 35 →
      headerField (data++rest) off width = headerField data off width :=
    fun off width h => headerField_append data rest off width (by omega)
  have hs : ∀ lo : ℤ, slice (data++rest) lo ((12+headerField data 8 4:ℕ):ℤ) =
      slice data lo ((12+headerField data 8 4:ℕ):ℤ) :=
    fun lo => slice_append data rest lo (by omega)
  have hlen := @List.length_append _ data rest
  simp only [decodeBatch, hf _ _ (show 8+4 ≤ 35 by norm_num), hf _ _ (show 12+2 ≤ 35 by norm_num),
    hf _ _ (show 14+1 ≤ 35 by norm_num), hf _ _ (show 15+4 ≤ 35 by norm_num),
    hf _ _ (show 0+8 ≤ 35 by norm_num), hf _ _ (show 19+8 ≤ 35 by norm_num),
    hf _ _ (show 27+8 ≤ 35 by norm_num), hs]
  rw [if_neg (by omega), if_neg (by omega), if_neg (by omega), if_neg (by omega)]

section Plain
variable (lz4 : Lz4) (b : RecordBatch) (hc : b.compression = compressionNone)
include hc

theorem encodeBatch_plain (hp : 0 < b.recordCount) :
    encodeBatch lz4 b = .ok (frame b b.compression (appendRecords b.records)) := by
  rw [encodeBatch, if_neg (by omega), payload, if_neg (by simp [hc])]

theorem decodeBatch_plain (hn : b.recordCount = b.records.length)
    (hm : b.recordCount ≤ maxRecordsPerBatch)
    (hh : ∀ r ∈ b.records, (headerList r).length ≤ maxHeadersPerRecord)
    (hl : 23+(appendRecords b.records).length < 2^32) (ho : b.baseOffset < 2^64) :
    decodeBatch lz4 (frame b b.compression (appendRecords b.records)) =
      .ok { b with records := b.records.map asRead } := by
  have hmax : maxRecordsPerBatch = 65535 := rfl
  have hr : decodeRecords b.recordCount (appendRecords b.records) = .ok (b.records.map asRead) := by
    rw [hn]
    exact decodeRecords_append b.records (by omega) hh
  exact decodeBatch_frame lz4 b b.compression
    hl ho (by omega) (by rw [recordData, if_neg (by simp [hc])]) hr

end Plain

theorem uncompressed_roundTrips (hc : b.compression = compressionNone)
    (hp : 0 < b.recordCount) (hn : b.recordCount = b.records.length)
    (hm : b.recordCount ≤ maxRecordsPerBatch) (ho : b.baseOffset+b.recordCount < 2^64)
    (hh : ∀ r ∈ b.records, (headerList r).length ≤ maxHeadersPerRecord)
    (hl : 23+(appendRecords b.records).length < 2^32) : RoundTrips lz4 b :=
  ⟨_,_,encodeBatch_plain lz4 b hc hp,batchSize_frame b _ _ hl,
    decodeBatch_plain lz4 b hc hn hm hh hl (by omega),rfl,rfl,rfl,Nat.mod_eq_of_lt ho⟩

/-- The frame of an uncompressed batch can be told apart from what follows it
and gives all fields of the batch back. Only an empty list of headers is read
as none. -/
theorem uncompressed_batch_read_back (lz4 : Lz4) (b : RecordBatch) (rest : Bytes)
    (hc : b.compression = compressionNone) (hp : 0 < b.recordCount)
    (hn : b.recordCount = b.records.length) (hm : b.records.length ≤ maxRecordsPerBatch)
    (ho : b.baseOffset < 2^64)
    (hh : ∀ r ∈ b.records, (headerList r).length ≤ maxHeadersPerRecord) :
    ∃ e, encodeBatch lz4 b = .ok e ∧ (e.length < 2^31 →
      batchSize (e++rest) = .ok e.length ∧
      parseBatchHeader e = .ok (b.baseOffset,b.recordCount) ∧
      decodeBatch lz4 (e++rest) = .ok { b with records := b.records.map asRead }) := by
  refine ⟨_,encodeBatch_plain lz4 b hc hp,?_⟩
  intro hsize
  have hmax : maxRecordsPerBatch = 65535 := rfl
  have hlen := frame_length b b.compression (appendRecords b.records)
  have hl : 23+(appendRecords b.records).length < 2^32 := by omega
  obtain ⟨f0,f8,f12,_⟩ := frame_fields b b.compression (appendRecords b.records)
  rw [Nat.mod_eq_of_lt (by omega)] at f0 f8 f12
  have hbs := batchSize_frame b b.compression (appendRecords b.records) hl
  refine ⟨batchSize_append _ rest _ hbs,?_,?_⟩
  · rw [parseBatchHeader, if_neg (by rw [hlen, batchHeaderSize]; omega), f0, f12]
  · rw [decodeBatch_append lz4 rest (by rw [hlen, batchHeaderSize]; omega)
      (by rw [f8, hlen]; omega)]
    exact decodeBatch_plain lz4 b hc hn (by omega) hh hl ho

def oddBatch : RecordBatch := ⟨2^64-1,2,compressionNone,-1,-7,
  [⟨-5,9,none,some [],some []⟩,⟨3,-2,some [],some [1,2],some [⟨none,some []⟩,⟨some [4],none⟩]⟩]⟩

/-- Negative deltas, empty and absent fields, and bytes behind the frame. -/
theorem odd_batch_read_back : ∃ e, encodeBatch ⟨fun _ => none,fun _ _ => none⟩ oddBatch = .ok e ∧
    e.length = 54 ∧ batchSize (e++[1,2,3]) = .ok 54 ∧
    parseBatchHeader e = .ok (2^64-1,2) ∧
    decodeBatch ⟨fun _ => none,fun _ _ => none⟩ (e++[1,2,3]) =
      .ok { oddBatch with records := oddBatch.records.map asRead } := by
  obtain ⟨e,he,hread⟩ := uncompressed_batch_read_back ⟨fun _ => none,fun _ _ => none⟩ oddBatch
    [1,2,3] rfl (by decide) rfl (by decide) (by decide) (by decide)
  have hlen : ∀ x, encodeBatch ⟨fun _ => none,fun _ _ => none⟩ oddBatch = .ok x →
      x.length = 54 := by
    intro x hx
    cases hx
    decide +kernel
  obtain ⟨h1,h2,h3⟩ := hread (by rw [hlen e he]; norm_num)
  rw [hlen e he] at h1
  exact ⟨e,he,hlen e he,h1,h2,h3⟩

end GoCommon.ForgeRecordCodec
