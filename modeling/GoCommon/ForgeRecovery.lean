import GoCommon.ForgeRecordCodec
import GoCommon.ForgeSegmentFiles

/-!
# Recovery of a segment

The chunked loop sees the log through a window of the chunk size. It amounts
to one scan through that window, except that it never ends when more than a
window of bytes is left where the scan stopped.
-/

set_option autoImplicit false

namespace GoCommon.ForgeRecovery
open List ByteWords ByteStream FileDisk ForgeRecord ForgeRecordCodec ForgeIndex ForgeSegment

def advance (nextOffset : ℕ) (bs : List RecordBatch) : ℕ :=
  bs.foldl (fun n b => max n (endOffset b)) nextOffset

variable (lz4 : Lz4) (n : ℕ) (data : Bytes) (env : Env)

theorem advance_append {as bs : List RecordBatch} :
    advance n (as++bs) = advance (advance n as) bs := by simp [advance]

theorem scanBatches_eq {buf : Bytes} : scanBatches lz4 n buf =
    match scanAll (nextBatch lz4) buf with
    | .error s => .error s
    | .ok (bs,c) => .ok (advance n bs,c) := rfl

def windowed (lz4 : Lz4) (data : Bytes) (start nextOffset : ℕ) : Except Stop (ℕ × ℕ) :=
  match scanAll (within recoverChunkSize (nextBatch lz4)) (data.drop start) with
  | .error e => .error e
  | .ok (bs,c) => if recoverChunkSize < data.length-(start+c) then .error .hang
      else .ok (start+c,advance nextOffset bs)

structure Carried (lz4 : Lz4) (data : Bytes) (pos : ℕ) (carry : Bytes) (validEnd : ℕ) : Prop where
  behind : validEnd ≤ pos
  inside : pos ≤ data.length
  bytes : carry = (data.drop validEnd).take (pos-validEnd)
  window : pos-validEnd ≤ recoverChunkSize
  stuck : nextBatch lz4 carry = .ok none

theorem Carried.length {lz4 : Lz4} {data : Bytes} {pos : ℕ} {carry : Bytes} {validEnd : ℕ}
    (h : Carried lz4 data pos carry validEnd) : carry.length = pos-validEnd := by
  have := h.inside
  rw [h.bytes, length_take, length_drop]
  omega

theorem windowed_stop (start n : ℕ)
    (h : nextBatch lz4 ((data.drop start).take recoverChunkSize) = .ok none) :
    windowed lz4 data start n =
      if recoverChunkSize < data.length-start then .error .hang else .ok (start,n) := by
  have hs := scanAll_stop (within_framing recoverChunkSize (nextBatch_framing lz4)) _ h
  rw [windowed, hs]
  rfl

theorem windowed_next {start n : ℕ} : windowed lz4 data start n =
    match scanBatches lz4 n ((data.drop start).take recoverChunkSize) with
    | .error e => .error e
    | .ok (m,c) => windowed lz4 data (start+c) m := by
  rw [windowed, scanAll_window _ (nextBatch_framing lz4), scanBatches_eq]
  rcases scanAll (nextBatch lz4) ((data.drop start).take recoverChunkSize) with e | ⟨as,c⟩
  · rfl
  simp only [windowed, drop_drop]
  rcases scanAll (within recoverChunkSize (nextBatch lz4)) (data.drop (start+c)) with e | ⟨bs,d⟩
  · rfl
  · simp only [advance_append, add_assoc]

theorem recoverLoop_eq (fuel pos : ℕ) (carry : Bytes)
    (validEnd n : ℕ) (hf : data.length-pos < fuel) (h : Carried lz4 data pos carry validEnd) :
    recoverLoop lz4 data data.length fuel pos carry validEnd n = windowed lz4 data validEnd n := by
  induction fuel generalizing pos carry validEnd n with
  | zero => omega
  | succ fuel ih =>
    have hl := h.length
    obtain ⟨hv,hp,hb,hw,hs⟩ := h
    unfold recoverLoop
    split
    · rename_i hlt
      dsimp only
      split
      · rename_i hz
        have he : pos-validEnd = recoverChunkSize := by omega
        rw [windowed_stop lz4 data validEnd n (by rw [← he, ← hb, hs]), if_pos (by omega)]
      rename_i hz
      have hr : ((data.drop pos).take (min (recoverChunkSize-carry.length)
          (data.length-pos))).length = min (recoverChunkSize-carry.length) (data.length-pos) := by
        rw [length_take, length_drop]
        omega
      rw [hr, if_neg hz]
      have hbuf : carry++(data.drop pos).take (min (recoverChunkSize-carry.length)
          (data.length-pos)) = (data.drop validEnd).take recoverChunkSize := by
        have hd : data.drop pos = (data.drop validEnd).drop (pos-validEnd) := by
          rw [drop_drop]
          congr 1
          omega
        rw [hl, hd, hb, ← take_add, take_eq_take_iff, length_drop]
        omega
      rw [hbuf, windowed_next]
      rcases hsb : scanAll (nextBatch lz4) ((data.drop validEnd).take recoverChunkSize) with
        e | ⟨bs,c⟩
      · simp [scanBatches_eq, hsb]
      simp only [scanBatches_eq, hsb]
      obtain ⟨_,_,_,_,_,hn⟩ := scanAll_split (nextBatch_framing lz4) _ _ _ hsb
      have hc := scanAll_le (nextBatch_framing lz4) hsb
      rw [length_take, length_drop] at hc
      refine ih _ _ _ _ (by omega) ⟨by omega,by omega,?_,by omega,hn⟩
      rw [drop_take, drop_drop, take_eq_take_iff, length_drop]
      omega
    have he : pos = data.length := by omega
    have ht : (data.drop validEnd).take recoverChunkSize = carry := by
      rw [hb, take_eq_take_iff, length_drop]
      omega
    rw [windowed_stop lz4 data validEnd n (by rw [ht, hs]), if_neg (by omega)]

theorem recoverFrom_eq (start n : ℕ) (hs : start ≤ data.length) :
    recoverFrom lz4 data data.length start n = windowed lz4 data start n := by
  unfold recoverFrom
  split
  · have hd : (data.drop start).length ≤ recoverChunkSize := by rw [length_drop]; omega
    rw [take_of_length_le (by rw [length_drop]), windowed,
      scanAll_within_short _ (nextBatch_framing lz4) hd, scanBatches_eq]
    rcases scanAll (nextBatch lz4) (data.drop start) with e | ⟨bs,c⟩
    · rfl
    · simp only []
      rw [if_neg (by omega)]
  · exact recoverLoop_eq lz4 data _ _ _ _ _ (by omega)
      ⟨le_refl _,hs,by simp,by omega,rfl⟩

theorem windowed_le {start n v m : ℕ} (hs : start ≤ data.length)
    (h : windowed lz4 data start n = .ok (v,m)) : v ≤ data.length := by
  unfold windowed at h
  rcases hx : scanAll (within recoverChunkSize (nextBatch lz4)) (data.drop start) with e | ⟨bs,c⟩
  · simp [hx] at h
  have hc := scanAll_le (within_framing _ (nextBatch_framing lz4)) hx
  rw [length_drop] at hc
  simp only [hx] at h
  split at h
  · cases h
  · simp only [Except.ok.injEq, Prod.mk.injEq] at h
    omega

def Batches (lz4 : Lz4) (ps : List (Bytes × RecordBatch)) : Prop :=
  ∀ p ∈ ps, Piece (nextBatch lz4) p

theorem scan_batches {ps : List (Bytes × RecordBatch)} (rest : Bytes)
    (hp : Batches lz4 ps) (hr : nextBatch lz4 rest = .ok none) :
    scanAll (nextBatch lz4) (flat ps++rest) = .ok (ps.map Prod.snd,(flat ps).length) := by
  rw [scanAll_pieces (nextBatch_framing lz4) ps rest hp,
    scanAll_stop (nextBatch_framing lz4) rest hr]
  simp

theorem windowed_batches (log : Bytes) (p n : ℕ) (hp : p ≤ log.length)
    (qs : List (Bytes × RecordBatch)) (rest : Bytes) (hq : Batches lz4 qs)
    (hw : ∀ q ∈ qs, q.1.length ≤ recoverChunkSize) (hd : log.drop p = flat qs++rest)
    (hr : nextBatch lz4 rest = .ok none) (hl : rest.length ≤ recoverChunkSize) :
    windowed lz4 log p n = .ok (log.length-rest.length,advance n (qs.map Prod.snd)) := by
  have lw := within_framing recoverChunkSize (nextBatch_framing lz4)
  have hlen := congrArg List.length hd
  rw [length_drop, length_append] at hlen
  rw [windowed, hd, scanAll_pieces lw qs rest (fun q h => piece_within _ (hq q h) (hw q h)),
    scanAll_stop lw rest (by rw [within_short _ _ _ hl, hr])]
  simp only [append_nil, add_zero]
  rw [if_neg (by omega), show p+(flat qs).length = log.length-rest.length by omega]

theorem windowed_split {log : Bytes} {p n v m : ℕ}
    (h : windowed lz4 log p n = .ok (v,m)) : ∃ qs, Batches lz4 qs ∧
      (∀ q ∈ qs, q.1.length ≤ recoverChunkSize) ∧ log.drop p = flat qs++log.drop v ∧
      nextBatch lz4 (log.drop v) = .ok none ∧ (log.drop v).length ≤ recoverChunkSize ∧
      m = advance n (qs.map Prod.snd) := by
  have lw := within_framing recoverChunkSize (nextBatch_framing lz4)
  unfold windowed at h
  rcases hx : scanAll (within recoverChunkSize (nextBatch lz4)) (log.drop p) with e | ⟨bs,c⟩
  · simp [hx] at h
  simp only [hx] at h
  split at h
  · cases h
  obtain ⟨rfl,rfl⟩ := h
  obtain ⟨qs,hq,hm,hl,hb,hn⟩ := scanAll_split lw _ _ _ hx
  have hlen : (log.drop (p+c)).length ≤ recoverChunkSize := by rw [length_drop]; omega
  have hpieces := fun q h => within_piece recoverChunkSize (nextBatch_framing lz4) (hq q h)
  rw [drop_drop] at hb hn
  rw [within_short _ _ _ hlen] at hn
  exact ⟨qs,fun q h => (hpieces q h).1,fun q h => (hpieces q h).2,hb,hn,hlen,by rw [hm]⟩

theorem recover_skips (fs : Files) {s : Segment}
    (h : s.size ≤ markedPosition s.index) : s.recover lz4 env fs = (fs,.ok s) := by
  simp only [Segment.recover, h, if_true, ite_self]

theorem recover_scans (fs : Files) (s : Segment)
    (hd : (fs.disk.data s.logFile.ino).length = s.size) (h : markedPosition s.index < s.size) :
    s.recover lz4 env fs =
      match windowed lz4 (fs.disk.data s.logFile.ino) (markedPosition s.index) s.nextOffset with
      | .error e => (fs,.error e)
      | .ok (v,n) => (if v < s.size then fs.truncate s.logFile.ino v env.written else fs,
          .ok { s with size := v, nextOffset := n }) := by
  have he := recoverFrom_eq lz4 (fs.disk.data s.logFile.ino) (markedPosition s.index) s.nextOffset
    (by omega)
  rw [hd] at he
  simp only [Segment.recover, if_neg (show s.size ≠ 0 by omega), if_neg (not_le.mpr h), he]
  rcases hw : windowed lz4 (fs.disk.data s.logFile.ino) (markedPosition s.index) s.nextOffset with
    e | ⟨v,n⟩
  · rfl
  have hv := windowed_le lz4 _ (by omega) hw
  dsimp only
  split
  · rfl
  · have hvs : v = s.size := by omega
    rw [hvs]

theorem openSegment_existing {dir : Dir} {baseOffset : ℕ} (ptr : ℕ) {fs : Files}
    {i j : ℕ} (hi : fs.disk.lookup ⟨dir,baseOffset,.log⟩ = some i)
    (hj : fs.disk.lookup ⟨dir,baseOffset,.idx⟩ = some j) :
    openSegment lz4 env dir baseOffset ptr fs = Segment.recover lz4 env fs
      ⟨ptr,⟨⟨dir,baseOffset,.log⟩,i,0⟩,⟨⟨⟨dir,baseOffset,.idx⟩,j,0⟩,loadEntries (fs.disk.data j),
        baseOffset,(loadEntries (fs.disk.data j)).length⟩,baseOffset,(fs.disk.data i).length,
        if (fs.disk.data i).length = 0 then env.opened else (fs.disk.inodes i).mtime,
        baseOffset,0,0,none⟩ := by
  simp [ForgeSegment.openSegment, Fs.openFile_present _ hi, openIndex,
    Fs.openFile_present _ hj]

/-! ## The chunked loop and the plain scan -/

def FitsChunks (lz4 : Lz4) (content : Bytes) : Prop := ∃ qs rest, content = flat qs++rest ∧ Batches lz4 qs ∧
  (∀ q ∈ qs, q.1.length ≤ recoverChunkSize) ∧ nextBatch lz4 rest = .ok none ∧
    rest.length ≤ recoverChunkSize

/-- The loop over chunks comes to an end, with the outcome of one scan of the whole rest of the
file, exactly when no batch and no rest outgrows a chunk. -/
theorem chunked_recovery_agrees_iff (lz4 : Lz4) (data : Bytes) (start n : ℕ)
    (hlong : recoverChunkSize < data.length-start) :
    (∃ m c, scanBatches lz4 n (data.drop start) = .ok (m,c) ∧
      recoverLoop lz4 data data.length (data.length+1) start [] start n = .ok (start+c,m)) ↔
        FitsChunks lz4 (data.drop start) := by
  have hloop : recoverLoop lz4 data data.length (data.length+1) start [] start n =
      windowed lz4 data start n :=
    recoverLoop_eq lz4 data _ _ _ _ _ (by omega) ⟨le_refl _,by omega,by simp,by omega,rfl⟩
  rw [hloop]
  constructor
  · rintro ⟨m,c,_,hw⟩
    obtain ⟨qs,hq,hsize,hsplit,hstop,hrest,_⟩ := windowed_split lz4 hw
    exact ⟨qs,_,hsplit,hq,hsize,hstop,hrest⟩
  rintro ⟨qs,rest,hsplit,hq,hsize,hstop,hrest⟩
  have hlen := congrArg List.length hsplit
  rw [length_drop, length_append] at hlen
  refine ⟨advance n (qs.map Prod.snd),(flat qs).length,?_,?_⟩
  · rw [scanBatches_eq, hsplit, scan_batches lz4 rest hq hstop]
  · rw [windowed_batches lz4 data start n (by omega) qs rest hq hsize hsplit hstop hrest,
      show data.length-rest.length = start+(flat qs).length by omega]

/-- A log that is longer than the buffer of the loop. -/
theorem many_small_batches_agree :
    ∃ m c, scanBatches noLz4 0 ((List.replicate 7000 (smallFrame 0 1)).flatten.drop 0) = .ok (m,c) ∧
      recoverLoop noLz4 (List.replicate 7000 (smallFrame 0 1)).flatten
        (List.replicate 7000 (smallFrame 0 1)).flatten.length
          ((List.replicate 7000 (smallFrame 0 1)).flatten.length+1) 0 [] 0 0 = .ok (0+c,m) := by
  have hframe : (smallFrame 0 1).length = 42 := by decide +kernel
  have hpiece : Piece (nextBatch noLz4) (smallFrame 0 1,smallBatch 0 1) := by
    rw [Piece]
    decide +kernel
  have hchunk : recoverChunkSize = 262144 := rfl
  have hlen : (List.replicate 7000 (smallFrame 0 1)).flatten.length = 7000*42 := by
    rw [length_flatten, map_replicate, sum_replicate, hframe]
    rfl
  refine (chunked_recovery_agrees_iff noLz4 _ 0 0 (by omega)).mpr
    ⟨List.replicate 7000 (smallFrame 0 1,smallBatch 0 1),[],?_,fun p hp => ?_,fun q hq => ?_,rfl,by simp⟩
  · rw [drop_zero, flat, map_replicate, append_nil]
  · rw [eq_of_mem_replicate hp]
    exact hpiece
  · rw [eq_of_mem_replicate hq, hframe, hchunk]
    decide

/-- More than a chunk of bytes that are no batch: one scan finds none, and the loop never ends. -/
theorem long_garbage_never_ends :
    scanBatches noLz4 0 (List.replicate (recoverChunkSize+1) 255) = .ok (0,0) ∧
      recoverLoop noLz4 (List.replicate (recoverChunkSize+1) 255) (recoverChunkSize+1) (recoverChunkSize+2)
        0 [] 0 0 = .error .hang := by
  have hchunk : recoverChunkSize = 262144 := rfl
  have hnone : ∀ k, 12 ≤ k → k ≤ recoverChunkSize+1 → nextBatch noLz4 (List.replicate k 255) = .ok none := by
    intro k h12 hk
    have hfield : headerField (List.replicate k 255) 8 4 = 2^32-1 := by
      rw [headerField, drop_replicate, take_replicate, show min 4 (k-8) = 4 by omega]
      decide +kernel
    rw [nextBatch, batchSize, hfield, length_replicate, if_neg (by omega), if_pos (by omega)]
  constructor
  · rw [scanBatches_eq, scanAll_stop (nextBatch_framing noLz4) _ (hnone _ (by omega) le_rfl)]
    rfl
  have hlen : (List.replicate (recoverChunkSize+1) (255 : UInt8)).length = recoverChunkSize+1 :=
    length_replicate
  have hloop := recoverLoop_eq noLz4 (List.replicate (recoverChunkSize+1) 255) (recoverChunkSize+2) 0 [] 0 0
    (by omega) ⟨le_refl _,by omega,by simp,by omega,rfl⟩
  rw [hlen] at hloop
  rw [hloop, windowed_stop, if_pos (by omega)]
  rw [drop_zero, take_replicate, Nat.min_eq_left (by omega)]
  exact hnone _ (by omega) (by omega)

/-! ## Failures -/

theorem scanBatches_error (buf : Bytes) (st : Stop)
    (h : scanBatches lz4 n buf = .error st) (e : Err) : st ≠ .err e := by
  rw [scanBatches_eq] at h
  rcases hx : scanAll (nextBatch lz4) buf with d | ⟨bs,c⟩
  · simp only [hx, Except.error.injEq] at h
    obtain ⟨_,_,_,_,hr⟩ := scanAll_fail (nextBatch_framing lz4) _ d hx
    obtain ⟨_,_,_,hn⟩ := (nextBatch_error lz4 _ d).mp hr
    rw [← h]
    exact hn e
  · simp [hx] at h

theorem recoverLoop_error (size fuel pos : ℕ) (carry : Bytes) (validEnd n : ℕ) (st : Stop)
    (h : recoverLoop lz4 data size fuel pos carry validEnd n = .error st) (e : Err) :
    st ≠ .err e := by
  induction fuel generalizing pos carry validEnd n with
  | zero => cases h
  | succ fuel ih =>
    unfold recoverLoop at h
    split at h
    · dsimp only at h
      split at h
      · cases h
        simp
      split at h
      · cases h
      split at h
      · rename_i hs
        cases h
        exact scanBatches_error lz4 _ _ _ hs e
      · exact ih _ _ _ _ h
    · cases h

theorem recoverFrom_error {size start n : ℕ} {st : Stop}
    (h : recoverFrom lz4 data size start n = .error st) (e : Err) : st ≠ .err e := by
  unfold recoverFrom at h
  split at h
  · split at h
    · rename_i hs
      cases h
      exact scanBatches_error lz4 _ _ _ hs e
    · cases h
  · exact recoverLoop_error lz4 _ _ _ _ _ _ _ _ h e

theorem openSegment_error {dir : Dir} {baseOffset ptr : ℕ} {fs fs' : Files} {st : Stop}
    (h : openSegment lz4 env dir baseOffset ptr fs = (fs',.error st)) (e : Err) : st ≠ .err e := by
  simp only [ForgeSegment.openSegment, Segment.recover] at h
  split at h
  · cases h
  split at h
  · cases h
  split at h
  · rename_i hr
    cases h
    exact recoverFrom_error lz4 _ hr e
  · split at h <;> cases h

end GoCommon.ForgeRecovery
