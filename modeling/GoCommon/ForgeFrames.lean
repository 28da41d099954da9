import GoCommon.ForgeRecordCodec
import GoCommon.ForgeSegment

/-!
# Stored batches

A frame is an encoded batch whose header delimits it and names the offsets it
covers. A log file is the concatenation of its frames. The index marks some
frame boundaries. A scan of the log takes the frames one by one for as long as
they decode.
-/

set_option autoImplicit false

namespace GoCommon.ForgeFrames
open List ByteWords ByteStream BinarySearch ForgeRecord ForgeRecordCodec ForgeIndex ForgeSegment

structure Frame where
  bytes : Bytes
  base : ℕ
  count : ℕ
  sized : batchSize bytes = .ok bytes.length
  header : parseBatchHeader bytes = .ok (base,count)
  counted : 0 < count
  bounded : base+count < 2^64

namespace Frame

def stop (f : Frame) : ℕ := f.base+f.count

theorem base_lt_stop (f : Frame) : f.base < f.stop := by
  have := f.counted
  unfold stop
  omega

def batch (lz4 : Lz4) (f : Frame) : RecordBatch := match decodeBatch lz4 f.bytes with
  | .ok b => b
  | .error _ => ⟨f.base,f.count,compressionNone,0,0,[]⟩

def Readable (lz4 : Lz4) (f : Frame) : Prop := decodeBatch lz4 f.bytes = .ok (f.batch lz4)

theorem readable_of (lz4 : Lz4) (f : Frame) (b : RecordBatch) (h : decodeBatch lz4 f.bytes = .ok b) :
    f.Readable lz4 ∧ f.batch lz4 = b := by
  have hb : f.batch lz4 = b := by simp [batch, h]
  exact ⟨by rw [Readable, hb, h],hb⟩

theorem size_pos (f : Frame) : 12 ≤ f.bytes.length :=
  ((batchSize_ok _ _).mp f.sized).1

theorem count_lt (f : Frame) : f.count < 2^16 := by
  have hh := f.header
  unfold parseBatchHeader at hh
  split at hh
  · cases hh
  · simp only [Except.ok.injEq, Prod.mk.injEq] at hh
    rw [← hh.2]
    refine lt_of_lt_of_le (uint_lt) (Nat.pow_le_pow_right (by norm_num) (length_take_le _ _))

variable {lz4 : Lz4} {f : Frame} (h : f.Readable lz4)
include h

theorem batch_base : (f.batch lz4).baseOffset = f.base ∧ (f.batch lz4).recordCount = f.count := by
  have hp := decodeBatch_header lz4 _ _ h
  rw [f.header] at hp
  simpa [eq_comm] using hp

theorem batch_end : endOffset (f.batch lz4) = f.stop := by
  obtain ⟨hb,hc⟩ := batch_base h
  rw [endOffset, hb, hc, Nat.mod_eq_of_lt f.bounded]
  rfl

theorem batch_records : (f.batch lz4).records.length = f.count := by
  rw [decodeBatch_count lz4 _ _ h, (batch_base h).2]

theorem readable_piece : Piece (nextBatch lz4) (f.bytes,f.batch lz4) := by
  rw [Piece, nextBatch_some]
  exact ⟨f.sized,by rw [take_length]; exact h⟩

end Frame

variable {lz4 : Lz4} {base : ℕ}

theorem encoded_frame {b : RecordBatch} {e : Bytes} (he : encodeBatch lz4 b = .ok e)
    (hs : batchSize e = .ok e.length) (hn : b.recordCount < 2^16)
    (hb : b.baseOffset+b.recordCount < 2^64) :
    ∃ f : Frame, f.bytes = e ∧ f.base = b.baseOffset ∧ f.count = b.recordCount := by
  unfold encodeBatch at he
  split at he
  · cases he
  rcases hp : payload lz4 b with s | ⟨ct,body⟩
  · simp [hp] at he
  simp only [hp, Except.ok.injEq] at he
  obtain ⟨h0,_,h12,_⟩ := frame_fields b ct body
  have hl := frame_length b ct body
  rw [Nat.mod_eq_of_lt (by omega)] at h0 h12
  refine ⟨⟨e,b.baseOffset,b.recordCount,hs,?_,by omega,hb⟩,rfl,rfl,rfl⟩
  rw [← he, parseBatchHeader, h0, h12, if_neg (by rw [hl]; simp [batchHeaderSize])]

/-! ## Logs as concatenations of frames -/

def raw (fs : List Frame) : Bytes := (fs.map Frame.bytes).flatten

@[simp] theorem raw_nil : raw [] = [] := rfl

variable {fs : List Frame}

@[simp] theorem raw_cons {f : Frame} : raw (f::fs) = f.bytes++raw fs := by
  simp [raw]

@[simp] theorem raw_append {gs : List Frame} : raw (fs++gs) = raw fs++raw gs := by simp [raw]

theorem raw_eq_nil (fs : List Frame) : raw fs = [] ↔ fs = [] := by
  cases fs with
  | nil => simp
  | cons f fs =>
    have := f.size_pos
    simp only [raw_cons, append_eq_nil_iff, reduceCtorEq, iff_false, not_and]
    intro h
    simp [h] at this

theorem raw_length_pos (h : fs ≠ []) : 0 < (raw fs).length :=
  length_pos_iff.mpr (fun hn => h ((raw_eq_nil fs).mp hn))

def pieces (lz4 : Lz4) (fs : List Frame) : List (Bytes × RecordBatch) :=
  fs.map (fun f => (f.bytes,f.batch lz4))

@[simp] theorem flat_pieces : flat (pieces lz4 fs) = raw fs := by
  simp [flat, pieces, raw, Function.comp_def]

@[simp] theorem pieces_snd : (pieces lz4 fs).map Prod.snd = fs.map (Frame.batch lz4) := by
  simp [pieces, Function.comp_def]

theorem pieces_piece (lz4 : Lz4) (fs : List Frame) (h : ∀ f ∈ fs, f.Readable lz4) :
    ∀ p ∈ pieces lz4 fs, Piece (nextBatch lz4) p := by
  intro p hp
  obtain ⟨f,hf,rfl⟩ := mem_map.mp hp
  exact Frame.readable_piece (h f hf)

theorem pieces_of_raw (lz4 : Lz4) (ps : List (Bytes × RecordBatch)) (fs : List Frame) (rest : Bytes)
    (hp : ∀ p ∈ ps, Piece (nextBatch lz4) p) (h : raw fs = flat ps++rest) :
    ∃ pre post, fs = pre++post ∧ ps = pieces lz4 pre ∧ (∀ f ∈ pre, f.Readable lz4) ∧
      rest = raw post := by
  induction ps generalizing fs with
  | nil => exact ⟨[],fs,rfl,rfl,by simp,by simpa using h.symm⟩
  | cons p ps ih =>
    have hh := (nextBatch_some lz4 _ _ _).mp (hp p (by simp))
    have hl := ((batchSize_ok _ _).mp hh.1).1
    cases fs with
    | nil =>
      have hn := congrArg List.length h
      simp only [raw_nil, flat_cons, length_append, length_nil] at hn
      omega
    | cons f fs =>
      rw [raw_cons, flat_cons, append_assoc] at h
      have h1 := batchSize_append f.bytes (raw fs) _ f.sized
      have h2 := batchSize_append p.1 (flat ps++rest) _ hh.1
      rw [h, h2] at h1
      have he : p.1.length = f.bytes.length := by simpa using h1
      obtain ⟨hf,ht⟩ := append_inj h he.symm
      obtain ⟨pre,post,rfl,rfl,hr,hrest⟩ := ih fs (fun q hq => hp q (by simp [hq])) ht
      have hd : decodeBatch lz4 f.bytes = .ok p.2 := by simpa [hf] using hh.2
      obtain ⟨hread,hb⟩ := Frame.readable_of lz4 f p.2 hd
      refine ⟨f::pre,post,rfl,?_,by simpa using ⟨hread,hr⟩,hrest⟩
      simp [pieces, hb, hf]

theorem scan_front {buf : Bytes} {bs : List RecordBatch} {c : ℕ}
    (hb : buf <+: raw fs) (h : scanAll (nextBatch lz4) buf = .ok (bs,c)) :
    ∃ pre post, fs = pre++post ∧ bs = pre.map (Frame.batch lz4) ∧ c = (raw pre).length ∧
      ∀ f ∈ pre, f.Readable lz4 := by
  obtain ⟨rest,hrest⟩ := hb
  obtain ⟨ps,hp,hm,hl,hs,_⟩ := scanAll_split (nextBatch_framing lz4) buf bs c h
  rw [hs, append_assoc] at hrest
  obtain ⟨pre,post,hf,rfl,hr,_⟩ := pieces_of_raw lz4 ps fs _ hp hrest.symm
  exact ⟨pre,post,hf,by rw [← hm, pieces_snd],by rw [← hl, flat_pieces],hr⟩

theorem scan_whole (lz4 : Lz4) (h : ∀ f ∈ fs, f.Readable lz4) :
    scanAll (nextBatch lz4) (raw fs) = .ok (fs.map (Frame.batch lz4),(raw fs).length) := by
  have hs := scanAll_pieces (nextBatch_framing lz4) (pieces lz4 fs) [] (pieces_piece lz4 fs h)
  rw [scanAll_stop (nextBatch_framing lz4) [] rfl] at hs
  simpa using hs

def fits : ℕ → List Frame → List Frame
  | _, [] => []
  | m, f::fs => if f.bytes.length ≤ m then f::fits (m-f.bytes.length) fs else []

theorem fitting_pieces {m : ℕ} : fitting m (pieces lz4 fs) = pieces lz4 (fits m fs) := by
  induction fs generalizing m with
  | nil => rfl
  | cons f fs ih =>
    have h : pieces lz4 (f::fs) = (f.bytes,f.batch lz4)::pieces lz4 fs := rfl
    rw [h, fitting, fits]
    split
    · rw [ih]
      rfl
    · rfl

theorem fits_front (m : ℕ) (fs : List Frame) : fits m fs <+: fs := by
  induction fs generalizing m with
  | nil => simp [fits]
  | cons f fs ih =>
    unfold fits
    split
    · exact (prefix_cons_inj f).mpr (ih _)
    · exact nil_prefix

theorem fits_zero : fits 0 fs = [] := by
  cases fs with
  | nil => rfl
  | cons f fs =>
    have := f.size_pos
    rw [fits, if_neg (by omega)]

theorem fits_all (m : ℕ) (fs : List Frame) (h : (raw fs).length ≤ m) : fits m fs = fs := by
  induction fs generalizing m with
  | nil => rfl
  | cons f fs ih =>
    rw [raw_cons, length_append] at h
    rw [fits, if_pos (by omega), ih _ (by omega)]

theorem scan_take (lz4 : Lz4) (fs : List Frame) (m : ℕ) (h : ∀ f ∈ fs, f.Readable lz4) :
    scanAll (nextBatch lz4) ((raw fs).take m) =
      .ok ((fits m fs).map (Frame.batch lz4),(raw (fits m fs)).length) := by
  have hs := scanAll_take (nextBatch_framing lz4) (pieces lz4 fs) m (pieces_piece lz4 fs h)
  rwa [flat_pieces, fitting_pieces, pieces_snd, flat_pieces] at hs

/-! ## Index marks -/

def marks (base : ℕ) : ℕ → List Frame → List IndexEntry
  | _, [] => []
  | pos, f::fs => entry base f.base pos::marks base (pos+f.bytes.length) fs

theorem marks_append {pos : ℕ} {gs : List Frame} :
    marks base pos (fs++gs) = marks base pos fs++marks base (pos+(raw fs).length) gs := by
  induction fs generalizing pos with
  | nil => simp [marks]
  | cons f fs ih => simp [marks, ih, add_assoc]

theorem marks_split (base pos : ℕ) (fs : List Frame) (es ds : List IndexEntry) (e : IndexEntry)
    (h : marks base pos fs = es++e::ds) : ∃ pre f post, fs = pre++f::post ∧
      e = entry base f.base (pos+(raw pre).length) ∧ es = marks base pos pre ∧
      ds = marks base (pos+(raw (pre++[f])).length) post := by
  induction fs generalizing pos es with
  | nil => simp [marks] at h
  | cons f fs ih =>
    cases es with
    | nil =>
      simp only [marks, nil_append, List.cons.injEq] at h
      exact ⟨[],f,fs,rfl,by simpa using h.1.symm,rfl,by simpa using h.2.symm⟩
    | cons d es =>
      simp only [marks, cons_append, List.cons.injEq] at h
      obtain ⟨pre,g,post,rfl,he,hes,hds⟩ := ih _ _ h.2
      refine ⟨f::pre,g,post,rfl,?_,?_,?_⟩
      · simpa [add_assoc] using he
      · rw [marks, ← h.1, hes]
      · rw [hds]
        simp [add_assoc]

theorem mark_position {pos : ℕ} {e : IndexEntry}
    (h : e ∈ marks base pos fs) : ∃ pre f post, fs = pre++f::post ∧
      e = entry base f.base (pos+(raw pre).length) := by
  obtain ⟨es,ds,hs⟩ := append_of_mem h
  obtain ⟨pre,f,post,hf,he,_⟩ := marks_split base pos fs es ds e hs
  exact ⟨pre,f,post,hf,he⟩

theorem mark_inRange {e : IndexEntry} (h : e ∈ marks base 0 fs)
    (hl : (raw fs).length ≤ maxFileSize) : InRange e := by
  obtain ⟨pre,f,post,rfl,rfl⟩ := mark_position h
  have hm : maxFileSize = 2^63-1 := rfl
  simp only [raw_append, length_append] at hl
  refine ⟨Nat.mod_lt _ (by norm_num),?_⟩
  simp only [entry]
  omega

theorem entry_relative {offset pos : ℕ} (hb : base ≤ offset) (ho : offset < base+2^32) :
    (entry base offset pos).relativeOffset = offset-base := by
  have hs : sub64 offset base = offset-base := by
    rw [sub64, show offset+2^64-base = offset-base+2^64 by omega, Nat.add_mod_right,
      Nat.mod_eq_of_lt (by omega)]
  simp only [entry, hs]
  exact Nat.mod_eq_of_lt (by omega)

section Lookup
variable {P : Type} (idx : Index P) (fs : List Frame)

theorem lookup_mark (o : ℕ) : (idx.lookup o).1 = 0 ∨ ∃ e ∈ idx.entries, (idx.lookup o).1 = e.position ∧
    idx.baseOffset ≤ o ∧ e.relativeOffset ≤ (o-idx.baseOffset)%2^32 := by
  unfold Index.lookup
  split
  · exact .inl rfl
  split
  · exact .inl rfl
  rcases hs : search idx.entries.length (fun j =>
      decide ((o-idx.baseOffset)%2^32 < (idx.entries.getD j ⟨0,0⟩).relativeOffset)) with _ | i
  · exact .inl (by simp only [hs])
  have hi := search_le idx.entries.length (fun j =>
    decide ((o-idx.baseOffset)%2^32 < (idx.entries.getD j ⟨0,0⟩).relativeOffset))
  have hf := search_before hs
  have hm : idx.entries.getD i ⟨0,0⟩ ∈ idx.entries := by
    rw [getD_eq_getElem _ _ (by omega)]
    exact getElem_mem _
  refine .inr ⟨_,hm,by simp only [hs],by omega,?_⟩
  simpa using hf

variable (hi : idx.entries.Sublist (marks idx.baseOffset 0 fs))
include hi

theorem lookup_boundary (o : ℕ) :
    ∃ pre post, fs = pre++post ∧ (idx.lookup o).1 = (raw pre).length := by
  rcases lookup_mark idx o with h | ⟨e,he,hp,_⟩
  · exact ⟨[],fs,rfl,h⟩
  · obtain ⟨pre,f,post,hf,rfl⟩ := mark_position (hi.subset he)
    exact ⟨pre,f::post,hf,by simpa [entry] using hp⟩

/-- Nothing before the position given by a lookup ends after the offset, as
long as relative offsets fit the index entries. -/
theorem lookup_before (o : ℕ) (hs : fs.Pairwise (fun f g => f.stop ≤ g.base))
    (ha : ∀ f ∈ fs, idx.baseOffset ≤ f.base) (hn : ∀ f ∈ fs, f.stop < idx.baseOffset+2^32) :
    ∃ pre post, fs = pre++post ∧ (idx.lookup o).1 = (raw pre).length ∧ ∀ f ∈ pre, f.stop ≤ o := by
  rcases lookup_mark idx o with h | ⟨e,he,hp,hb,hr⟩
  · exact ⟨[],fs,rfl,h,by simp⟩
  obtain ⟨pre,g,post,hf,rfl⟩ := mark_position (hi.subset he)
  refine ⟨pre,g::post,hf,by simpa [entry] using hp,?_⟩
  intro f hm
  have hg : g ∈ fs := by simp [hf]
  by_cases ho : o < idx.baseOffset+2^32
  · rw [entry_relative (ha g hg) (lt_trans g.base_lt_stop (hn g hg))] at hr
    rw [hf, pairwise_append] at hs
    have hfg := hs.2.2 f hm g (by simp)
    omega
  · have := hn f (by simp [hf, hm])
    omega

end Lookup

end GoCommon.ForgeFrames
