import GoCommon.ForgeRenumbering

/-!
# Compaction keeps the latest state

What a log says about a key is the value and the headers of the last record
with that key. Compaction does not change it: the survivors are the last
records of their keys and all records without one, in their old order.
-/

set_option autoImplicit false

namespace GoCommon.ForgeLatestState
open List ByteWords ByteVarint ByteStream FileDisk StepRuns LastWins ForgeRecord ForgeRecordCodec
open ForgeIndex ForgeSegment ForgeFrames ForgeSegmentFiles ForgeRecovery ForgeExtents
open ForgeCommitLog ForgeLogState ForgeRewrite ForgeLogSwap ForgeLogRewrites ForgeLogRuns
open ForgeLogView ForgeDrain ForgeMerge ForgeCompaction ForgeUpkeep ForgeProgress
open ForgeRenumbering
open ForgeDelivery hiding exec

def latestState (rs : List Record) : Bytes → Option (Option Bytes × Option (List Header)) :=
  state recordKey (fun r => (r.value,r.headers)) rs

def storedRecords (lz4 : Lz4) (cl : CommitLog) : List Record :=
  (storedBatches lz4 cl).flatMap RecordBatch.records

structure KeepsState (lz4 : Lz4) (cl cl' : CommitLog) : Prop where
  latest : latestState (storedRecords lz4 cl') = latestState (storedRecords lz4 cl)
  keyless : ((sealedRecords lz4 cl').filter (fun kr => recordKey kr.record = none)).map
      (fun kr => content kr.record) =
    ((sealedRecords lz4 cl).filter (fun kr => recordKey kr.record = none)).map
      (fun kr => content kr.record)
  once : (sealedRecords lz4 cl').Pairwise (fun x y => recordKey x.record ≠ none →
    recordKey y.record ≠ recordKey x.record)
  ordered : ∃ kept : List KeyRecord, kept.Sublist (sealedRecords lz4 cl) ∧
    kept.Pairwise (fun a b => a.offset < b.offset) ∧
    (sealedRecords lz4 cl').map (fun kr => content kr.record) =
      kept.map (fun kr => content kr.record)
  active : cl'.active = cl.active ∧ ∀ s ∈ cl.active,
    segmentBatches lz4 cl'.fs s = segmentBatches lz4 cl.fs s
  next : cl'.newestOffset = cl.newestOffset

theorem latestState_copies {krs : List KeyRecord} :
    latestState (krs.map (fun kr => content kr.record)) =
      latestState (krs.map KeyRecord.record) := by
  rw [latestState, state_map, latestState, state_map]
  rfl

theorem latestState_keepLast {krs : List KeyRecord} :
    latestState ((keepLast (fun kr => recordKey kr.record) krs).map KeyRecord.record) =
      latestState (krs.map KeyRecord.record) := by
  rw [latestState, state_map, latestState, state_map]
  exact state_keepLast _ _ krs

theorem recordsOf_records (lz4 : Lz4) (fs : List Frame) :
    (fs.map (Frame.batch lz4)).flatMap RecordBatch.records =
      (recordsOf lz4 fs).map KeyRecord.record := by
  rw [recordsOf, map_flatMap, flatMap_map]
  simp [keyRecords, Function.comp_def]

theorem keys_content {xs ys : List KeyRecord}
    (h : xs.map (fun kr => content kr.record) = ys.map (fun kr => content kr.record)) :
    xs.map (fun kr => recordKey kr.record) = ys.map (fun kr => recordKey kr.record) := by
  have hk := congrArg (List.map recordKey) h
  rw [map_map, map_map] at hk
  exact hk

theorem keyless_content {xs ys : List KeyRecord}
    (h : xs.map (fun kr => content kr.record) = ys.map (fun kr => content kr.record)) :
    (xs.filter (fun kr => recordKey kr.record = none)).map (fun kr => content kr.record) =
      (ys.filter (fun kr => recordKey kr.record = none)).map (fun kr => content kr.record) := by
  have hf := congrArg (List.filter (fun r => decide (recordKey r = none))) h
  rw [filter_map, filter_map] at hf
  exact hf

section Compacting
variable {lz4 : Lz4} {cl cl' : CommitLog} {held held' : List Held} {last : Held}

/-- A log with the same active segment whose sealed records are copies of the
survivors keeps the state. -/
theorem keepsState_of (h : Exact lz4 cl held last) (hr : Rep cl' held' last)
    (hc : ∀ y ∈ held', ∀ f ∈ y.2.frames, Clean lz4 f) (hn : cl'.nextOffset = cl.nextOffset)
    (hk : (recordsOf lz4 (framesOf held')).map (fun kr => content kr.record) =
      (kept lz4 held).map (fun kr => content kr.record)) : KeepsState lz4 cl cl' := by
  have hlast := (h.sound last (by simp)).clean
  have hc' : ∀ y ∈ held'++[last], ∀ f ∈ y.2.frames, Clean lz4 f := by
    intro y hy
    rcases mem_append.mp hy with hy | hy
    · exact hc y hy
    · rw [mem_singleton.mp hy]
      exact hlast
  have hold := sealedRecords_clean lz4 h.rep (fun y hy => (h.sound y (by simp [hy])).clean)
  have hnew := sealedRecords_clean lz4 hr hc
  have hsplit : ∀ ys : List Held, framesOf (ys++[last]) = framesOf ys++last.2.frames := by
    simp [framesOf]
  refine ⟨?_,?_,?_,?_,?_,hn⟩
  · rw [storedRecords, storedRecords, storedBatches_clean lz4 hr hc', storedBatches_exact h,
      recordsOf_records, recordsOf_records, hsplit, hsplit, recordsOf_append, recordsOf_append,
      map_append, map_append]
    refine state_append _ _ ?_
    calc latestState ((recordsOf lz4 (framesOf held')).map KeyRecord.record)
        = latestState ((recordsOf lz4 (framesOf held')).map (fun kr => content kr.record)) :=
          (latestState_copies).symm
      _ = latestState ((kept lz4 held).map KeyRecord.record) := by rw [hk, latestState_copies]
      _ = latestState ((recordsOf lz4 (framesOf held)).map KeyRecord.record) :=
          latestState_keepLast
  · rw [hnew, hold, keyless_content hk, kept, keepLast_keyless]
  · have honce := keepLast_once (fun kr : KeyRecord => recordKey kr.record)
      (recordsOf lz4 (framesOf held))
    rw [← pairwise_map (f := fun kr : KeyRecord => recordKey kr.record)
      (R := fun a b => a ≠ none → b ≠ a)] at honce ⊢
    rw [hnew, keys_content hk]
    exact honce
  · exact ⟨kept lz4 held,by rw [hold]; exact keepLast_sublist _ _,
      (sealed_increasing h).sublist (keepLast_sublist _ _),by rw [hnew, hk]⟩
  rw [hr.active, h.rep.active]
  refine ⟨rfl,fun s hs => ?_⟩
  cases hs
  rw [segmentBatches_clean lz4 (h.rep.keeps_all last (by simp)) hlast,
    segmentBatches_clean lz4 (hr.keeps_all last (by simp)) hlast]

theorem compact_keepsState (h : Exact lz4 cl held last) (hb : cl.nextOffset < 2^64) {cfg : Config}
    {env : Env} {order : Order} (hf : CompactFits lz4 order cl)
    (hm : compact lz4 cfg env order cl = (cl',.ok ())) : KeepsState lz4 cl cl' := by
  rcases (compact_clean h hb hf hm).ok rfl with ⟨rfl,rfl⟩ | ⟨hs,hd⟩ | ⟨y,ys,a,fin,rfl,hc,hrep⟩
  · exact keepsState_of h h.rep (by simp) rfl rfl
  · have hempty : Rep cl' [] last := by simpa using hd.rep
    exact keepsState_of h hempty (by simp) hd.next (by rw [hs]; rfl)
  have hone : Rep cl' [(fin,a)] last := by simpa using hrep.rep
  refine keepsState_of h hone ?_ hrep.next ?_
  · simpa using hc.clean
  · simpa [framesOf] using hc.records

end Compacting

/-- A compaction that returns no error keeps the latest state of every log
built by appends. -/
theorem compact_keeps_latest (lz4 : Lz4) (cfg : Config) (cl0 cl cl' : CommitLog) (env : Env)
    (order : Order) (h0 : Fresh lz4 cl0)
    (h : Reaches (fun x s t => appendStep lz4 cfg x s = some t) (FairStep lz4 cfg) cl0 cl)
    (hf : CompactFits lz4 order cl) (hm : compact lz4 cfg env order cl = (cl',.ok ())) :
    KeepsState lz4 cl cl' := by
  obtain ⟨held,last,tape,hrec⟩ := appends_recorded h0 h
  exact compact_keepsState hrec.whole.exact (recorded_bounded hrec) hf hm

/-- Three records of two keys in sealed segments. -/
theorem two_keys_kept : ∃ cl cl', runAll (appendStep noLz4 eager) twoKeys (smallLog 0) = some cl ∧
    compact noLz4 eager (still 0) keepOrder cl = (cl',.ok ()) ∧
    (sealedRecords noLz4 cl).length = 3 ∧ KeepsState noLz4 cl cl' := by
  obtain ⟨cl,hcl,h1,h2,h3⟩ : ∃ c ∈ runAll (appendStep noLz4 eager) twoKeys (smallLog 0),
      CompactFits noLz4 keepOrder c ∧ (compact noLz4 eager (still 0) keepOrder c).2 = .ok () ∧
      (sealedRecords noLz4 c).length = 3 := by decide +kernel
  have hm : compact noLz4 eager (still 0) keepOrder cl =
      ((compact noLz4 eager (still 0) keepOrder cl).1,.ok ()) := Prod.ext rfl h2
  exact ⟨cl,_,hcl,hm,h3,compact_keeps_latest noLz4 eager (smallLog 0) cl _ (still 0) keepOrder
    (smallLog_fresh 0) (reaches_of_runAll _ _ (by decide +kernel) hcl) h1 hm⟩

/-! ## A group that does not fit -/

section Overflow
variable {lz4 : Lz4} {cl : CommitLog} {y : Held} {ys : List Held} {last : Held}
  (h : Exact lz4 cl (y::ys) last)
include h

theorem compact_stages (cfg : Config) (env : Env) (order : Order)
    (hne : kept lz4 (y::ys) ≠ []) : compact lz4 cfg env order cl =
      stageAndSwapSegment lz4 cfg env ((y::ys).map Prod.fst) y.2.base
        (writeBatches lz4 y.2.base ((kept lz4 (y::ys)).map KeyRecord.record)) cl := by
  have hread := sealed_read h
  have hsurv := survivors_kept h order
  have hbase := (h.rep.keeps y (by simp)).base
  simp only [compact, h.rep.opened, Bool.false_eq_true, if_false, sealed_held h.rep,
    map_cons] at hread ⊢
  rw [hread]
  obtain ⟨kr,krs,hk⟩ := exists_cons_of_ne_nil hne
  simp only [hsurv, hk, hbase, map_cons]

end Overflow

/-- A scan ends at a frame whose length field has lost its high bits and
announces less than a header. -/
theorem overflow_stops (lz4 : Lz4) {b : RecordBatch} {ct : UInt8} {body rest : Bytes}
    (ho : (23+body.length)%2^32 < 23) : nextBatch lz4 (frame b ct body++rest) = .ok none := by
  have hlen := frame_length b ct body
  have hfield : headerField (frame b ct body++rest) 8 4 = (23+body.length)%2^32 := by
    rw [headerField_append _ _ 8 4 (by omega), (frame_fields b ct body).2.1,
      show 256^4 = 2^32 by norm_num]
  have hs : batchSize (frame b ct body++rest) = .ok (12+(23+body.length)%2^32) := by
    rw [batchSize_ok, length_append]
    omega
  have hshort : ((frame b ct body++rest).take (12+(23+body.length)%2^32)).length <
      batchHeaderSize := by
    rw [length_take, batchHeaderSize]
    omega
  rw [nextBatch, hs]
  dsimp only
  rw [decodeBatch, if_pos hshort]
  rfl

theorem append_unsynced {cfg : Config} (env : Env) (fs : Files) (s : Segment) (e : Bytes)
    (base count : ℕ) (hc : cfg.fsyncEvery = 0) (hs : s.size+e.length ≤ maxFileSize) :
    s.append cfg env e base count fs =
      .ok (fs.append s.logFile.ino e env.written,s.wrote cfg e.length base count) := by
  rw [Segment.append, if_neg (by omega), Segment.syncDue, if_neg (by omega)]

/-- Two batches written one after the other: the bytes follow one another and
the index marks both. -/
theorem writeAll_two (cfg : Config) (env : Env) (dir : Dir) (fs : Files) (s : Segment)
    (w1 w2 : Write) (hc : cfg.fsyncEvery = 0) (hw : Written dir fs.disk s [])
    (he : s.index.entries = []) (hi : cfg.indexInterval ≤ w1.encoded.length)
    (hl : w1.encoded.length+w2.encoded.length ≤ maxFileSize) : ∃ fs' s',
      writeAll cfg env [.ok w1,.ok w2] fs s = (fs',s',.ok ()) ∧
      Written dir fs'.disk s' (w1.encoded++w2.encoded) ∧
      Disk.Touches s.logFile.ino s.index.file.ino fs.disk fs'.disk ∧ files s' = files s ∧
      s'.index.entries = [entry s.baseOffset w1.baseOffset 0,
        entry s.baseOffset w2.baseOffset w1.encoded.length] := by
  have hsize : s.size = 0 := hw.size
  have hx1 := append_unsynced env fs s w1.encoded w1.baseOffset w1.recordCount hc (by omega)
  obtain ⟨hw1,ht1,ha1⟩ := append_written hw hx1
  have hdue : s.indexDue cfg = true := by simp [Segment.indexDue, he]
  have hsize1 : (s.wrote cfg w1.encoded.length w1.baseOffset w1.recordCount).size =
      w1.encoded.length := by simp [Segment.wrote, hsize]
  have hx2 := append_unsynced env (fs.append s.logFile.ino w1.encoded env.written) _ w2.encoded
    w2.baseOffset w2.recordCount hc (by rw [hsize1]; exact hl)
  obtain ⟨hw2,ht2,ha2⟩ := append_written hw1 hx2
  have hdue2 : (s.wrote cfg w1.encoded.length w1.baseOffset w1.recordCount).indexDue cfg = true := by
    have hb : (s.wrote cfg w1.encoded.length w1.baseOffset w1.recordCount).bytesSinceIndex =
        w1.encoded.length := if_pos hdue
    rw [Segment.indexDue, hb]
    simp [hi]
  refine ⟨_,_,?_,hw2,?_,?_,?_⟩
  · simp only [writeAll, hx1, hx2]
  · rw [ha1.idx] at ht2
    exact ht1.trans ht2
  · simp only [files, ha2.log, ha2.idx, ha2.base, ha1.log, ha1.idx, ha1.base]
  · rw [ha2.entries, indexedAfter, if_pos hdue2, ha1.entries, indexedAfter, if_pos hdue, he, hsize1,
      hsize]
    rfl

theorem openSegment_marked (lz4 : Lz4) (env : Env) (base ptr i j : ℕ) (fs : Files) (e1 e2 : Bytes)
    (c2 : RecordBatch) (es : List IndexEntry) (m : IndexEntry)
    (hli : fs.disk.lookup ⟨.main,base,.log⟩ = some i)
    (hii : fs.disk.lookup ⟨.main,base,.idx⟩ = some j) (hdl : fs.disk.data i = e1++e2)
    (hdi : fs.disk.data j = putEntries (es++[m])) (hr : ∀ e ∈ es++[m], InRange e)
    (hm : m.position = e1.length) (hpiece : Piece (nextBatch lz4) (e2,c2))
    (hsmall : e2.length ≤ recoverChunkSize) : ∃ s, openSegment lz4 env .main base ptr fs = (fs,.ok s) ∧
      s.ptr = ptr ∧ s.logFile.ino = i ∧ s.baseOffset = base ∧ s.size = (e1++e2).length := by
  have hpos := piece_pos (nextBatch_framing lz4) hpiece
  dsimp only at hpos
  have hopen := openSegment_existing lz4 env ptr hli hii
  rw [hdi, loadEntries_put _ hr, hdl] at hopen
  generalize hidx : (⟨⟨⟨.main,base,.idx⟩,j,0⟩,es++[m],base,(es++[m]).length⟩ : Index Path) = idx at hopen
  have hmark : markedPosition idx = e1.length := by
    rw [← hidx, ← hm]
    simp [markedPosition, Index.lastEntry]
  rw [recover_scans lz4 env fs _ (by simp [hdl])
    (by dsimp only; rw [length_append]; omega)] at hopen
  rw [hmark, hdl, windowed_batches lz4 (e1++e2) e1.length base (by simp) [(e2,c2)] []
    (by simpa [Batches] using hpiece) (by simpa using hsmall) (by simp) rfl (by simp)] at hopen
  simp only [length_nil, Nat.sub_zero, lt_irrefl, if_false] at hopen
  exact ⟨_,hopen,rfl,rfl,rfl,rfl⟩

variable {cl : CommitLog} {last : Held} {v : Bytes}

/-- When the length field of the first of two groups announces less than a
header, compaction still returns without an error and no record of the sealed
part can be read any more. -/
theorem overflowing_group_lost {lz4 : Lz4} {y : Held} {ys : List Held}
    (h : Exact lz4 cl (y::ys) last) (cfg : Config) (env : Env) (order : Order)
    (g1 g2 : RecordBatch) (e1 : Bytes) {e2 : Bytes} {c2 : RecordBatch} (hc : cfg.fsyncEvery = 0)
    (hg : groups (kept lz4 (y::ys)).length y.2.base ((kept lz4 (y::ys)).map KeyRecord.record) =
      [g1,g2]) (he1 : encodeBatch lz4 g1 = .ok e1) (he2 : encodeBatch lz4 g2 = .ok e2)
    (hstop : nextBatch lz4 (e1++e2) = .ok none) (hpiece : Piece (nextBatch lz4) (e2,c2))
    (hi : cfg.indexInterval ≤ e1.length) (hsmall : e2.length ≤ recoverChunkSize)
    (hl : e1.length+e2.length ≤ maxFileSize) (hbase : y.2.base < cl.nextOffset) :
    ∃ cl', compact lz4 cfg env order cl = (cl',.ok ()) ∧ sealedRecords lz4 cl' = [] := by
  have hne : kept lz4 (y::ys) ≠ [] := by
    intro hn
    simp [hn, groups] at hg
  have hwrites : writeBatches lz4 y.2.base ((kept lz4 (y::ys)).map KeyRecord.record) =
      [.ok ⟨e1,g1.baseOffset,g1.recordCount⟩,.ok ⟨e2,g2.baseOffset,g2.recordCount⟩] := by
    rw [writeBatches, length_map, hg]
    simp [encodeGroup, he1, he2]
  obtain ⟨fs1,s1,ho,hst⟩ := openSegment_started lz4 env .staging y.2.base cl.nextPtr cl.fs
    h.rep.tidy.named (fun ext i hi => by rw [h.unstaged _ rfl] at hi; cases hi)
    (fun i hi => by rw [h.unstaged _ rfl] at hi; cases hi)
  obtain ⟨fs2,s2,hw,hwr,ht,hf,hent⟩ := writeAll_two cfg env .staging fs1 s1
    ⟨e1,g1.baseOffset,g1.recordCount⟩ ⟨e2,g2.baseOffset,g2.recordCount⟩ hc hst.written hst.entries
    hi hl
  obtain ⟨fs3,hli,hii,hdl,hdi,heq⟩ := stageAndSwap_opens lz4 cfg env cl [] (y::ys) [] last y.2.base
    _ fs1 fs2 s1 s2 _ (by simpa using h.rep) h.unstaged hbase ho hst hw hwr ht hf
  obtain ⟨s,hopen,hptr,hino,hsb,hsize⟩ := openSegment_marked lz4 env y.2.base (cl.nextPtr+1) _ _ fs3
    e1 e2 c2 [entry s1.baseOffset g1.baseOffset 0] (entry s1.baseOffset g2.baseOffset e1.length)
    hli hii hdl (by rw [hdi, hent]; rfl) (by have := hwr.ranged; rwa [hent] at this) rfl hpiece hsmall
  rw [compact_stages h cfg env order hne, hwrites, heq, hopen]
  refine ⟨_,rfl,?_⟩
  have hlb : y.2.base ≤ last.1.baseOffset := by
    rw [(h.rep.keeps_all last (by simp)).base]
    exact le_trans y.2.base_le_finish (h.rep.finish_le y (by simp))
  have hlp : last.1.ptr < cl.nextPtr := h.rep.allocated last (by simp)
  have hseal : (s.sealSegment env).logFile = s.logFile ∧ (s.sealSegment env).size = s.size ∧
      (s.sealSegment env).baseOffset = s.baseOffset := by
    unfold Segment.sealSegment
    split_ifs <;> exact ⟨rfl,rfl,rfl⟩
  have hin : insertSegmentSorted (s.sealSegment env) (([]++[]++[last]).map Prod.fst) =
      [s.sealSegment env,last.1] := by
    simp only [nil_append, map_cons, map_nil, insertSegmentSorted]
    rw [if_neg (by omega)]
  have hsealed : sealedSegments { cl with
      fs := fs3
      segments := insertSegmentSorted (s.sealSegment env) (([]++[]++[last]).map Prod.fst)
      nextPtr := cl.nextPtr+2 } = [s.sealSegment env] := by
    have hne : cl.nextPtr+1 ≠ last.1.ptr := by omega
    rw [sealedSegments]
    rw [hin, if_neg (by simp), h.rep.current, filter_cons_of_pos (by simp [hptr, hne]),
      filter_cons_of_neg (by simp), filter_nil]
  have hscan : segmentBatches lz4 fs3 (s.sealSegment env) = [] := by
    rw [segmentBatches, hseal.1, hseal.2.1, hino, hsize, hdl, take_length,
      scanAll_stop (nextBatch_framing lz4) _ hstop]
  rw [sealedRecords, hsealed]
  simp [hscan]

/-! ## Two groups of survivors -/

def valued (v : Bytes) : Record := ⟨0,0,none,some v,none⟩

def bare : Record := ⟨0,0,none,none,none⟩

def bares (n first : ℕ) : List Record :=
  (List.replicate n bare).mapIdx (fun i r => { r with offsetDelta := Int64.ofNat (i+first) })

theorem valued_length (d : Int64) {n : ℕ} (hv : v.length = n) (hn : n < 2^62)
    (hd : (putVarint d.toInt).length = 1) (hs : (putVarint n).length = 5)
    (hb : (putVarint ((n+9:ℕ):ℤ)).length = 5) :
    (appendRecord { valued v with offsetDelta := d }).length = n+14 := by
  have hkey : (appendVarintBytes none).length = 1 := by decide
  have hval : (appendVarintBytes (some v)).length = n+5 := by
    rw [appendVarintBytes, length_append, hv]
    omega
  have hbody : (appendBody { valued v with offsetDelta := d }).length = n+9 := by
    have h0 : (putVarint (0:Int64).toInt).length = 1 := by decide
    have h1 : (putVarint ((0:ℕ):ℤ)).length = 1 := by decide
    have hh : headerList { valued v with offsetDelta := d } = [] := rfl
    rw [appendBody, hh]
    simp only [valued, length_append, length_nil, appendHeaders, flatMap_nil, h0, h1,
      hd, hkey, hval]
    omega
  rw [appendRecord, length_append, bodySize_eq _ (by omega) (by simp [headerList, valued]),
    hbody]
  omega

theorem bare_length (i : ℕ) (h : i < 1000) :
    (appendRecord { bare with offsetDelta := Int64.ofNat i }).length = if i < 64 then 6 else 7 := by
  decide +kernel +revert

theorem bares_length (n first : ℕ) (h : n+first ≤ 1000) : (appendRecords (bares n first)).length =
    ((List.range n).map (fun i => if i+first < 64 then 6 else 7)).sum := by
  have hb : bares n first =
      (List.range n).map (fun i => { bare with offsetDelta := Int64.ofNat (i+first) }) := by
    apply ext_getElem (by simp [bares])
    simp [bares]
  rw [hb, appendRecords, length_flatMap, map_map]
  congr 1
  apply map_congr_left
  intro i hi
  exact bare_length (i+first) (by have := mem_range.mp hi; omega)

def firstBatch (v : Bytes) : RecordBatch := ⟨0,1,compressionNone,0,0,[valued v]⟩

def secondBatch (v : Bytes) : RecordBatch :=
  ⟨0,1000,compressionNone,0,0,valued v::List.replicate 999 bare⟩

theorem secondBatch_records {base : ℕ} :
    (assignOffsets base (secondBatch v)).records = valued v::bares 999 1 := by
  rw [assignOffsets, secondBatch, mapIdx_cons]
  rfl

theorem append_alone {batch : RecordBatch} {held : List Held}
    (h : Exact noLz4 cl held last) (hfull : last.1.isFull eager (still 0) = true)
    (hr : RoundTrips noLz4 (assignOffsets cl.nextOffset batch))
    (hn : batch.records.length ≤ maxRecordsPerBatch) (hs : last.1.size < 2^33) :
    ∃ cl' f z s hle, appendStep noLz4 eager (still 0,batch) cl = some cl' ∧
      FairStep noLz4 eager (still 0,batch) cl ∧ z.2 = last.2 ∧
      (f.batch noLz4).records = (assignOffsets cl.nextOffset batch).records.map asRead ∧
      Exact noLz4 cl' (held++[z]) (s,(Extent.empty cl.nextOffset).push f hle) := by
  have hfair : Fair noLz4 eager (still 0) cl batch := by
    refine ⟨fun _ _ => hr,?_⟩
    intro s hs hnf
    rw [h.rep.active] at hs
    cases hs
    rw [hfull] at hnf
    cases hnf
  obtain ⟨cl',d,held1,last1,f,s,hle,hex,hroll,-,hrecs,hex'⟩ := append_pushes noLz4 eager (still 0) cl
    batch held last h hfair hr hn (by rw [maxFileSize]; omega)
  cases hroll with
  | stay hf =>
    rw [hfull] at hf
    cases hf
  | roll s0 _ _ => exact ⟨cl',f,(last.1.sealSegment (still 0),last.2),s,hle,hex,hfair,rfl,hrecs,hex'⟩

theorem one_frame_full {held : List Held} (f : Frame)
    (h : Exact noLz4 cl held last) (hf : last.2.frames = [f]) :
    last.1.isFull eager (still 0) = true ∧ last.1.size < 2^33 := by
  have hsize := (h.rep.keeps_all last (by simp)).size
  have hlt := headerField_lt f.bytes 8 4
  obtain ⟨_,hlen,_⟩ := (batchSize_ok _ _).mp f.sized
  rw [hf, raw_cons, raw_nil, append_nil] at hsize
  refine ⟨?_,by omega⟩
  have hm : eager.maxSegmentBytes = 1 := rfl
  rw [Segment.isFull]
  simp only [Bool.decide_or, Bool.or_eq_true, decide_eq_true_eq]
  exact Or.inl (by omega)

def overflowRun (v1 v2 : Bytes) : List (Env × RecordBatch) :=
  [(still 0,firstBatch v1),(still 0,secondBatch v2),(still 0,smallBatch 0 1)]

theorem bares_keyless {n first : ℕ} {r : Record} (hr : r ∈ bares n first) :
    headerList r = [] ∧ recordKey r = none := by
  obtain ⟨i,hi,rfl⟩ := mem_mapIdx.mp hr
  simp [headerList, bare, recordKey, keyOf]

theorem bares_asRead {n first : ℕ} : (bares n first).map asRead = bares n first := by
  apply ext_getElem (by simp)
  simp [bares, bare, asRead]

theorem bares_split (n : ℕ) : (bares (n+1) 1).take n = bares n 1 ∧
    (bares (n+1) 1).drop n = [{ bare with offsetDelta := Int64.ofNat (n+1) }] := by
  constructor
  · apply ext_getElem (by simp [bares])
    simp [bares]
  apply ext_getElem (by simp [bares])
  intro i h1 h2
  have : i = 0 := by simpa using h2
  simp [bares, this]

theorem bares_placed (n first second : ℕ) : (bares n first).mapIdx
    (fun i r => { r with offsetDelta := Int64.ofNat (i+second) }) = bares n second := by
  apply ext_getElem (by simp [bares])
  simp [bares]

theorem firstBatch_roundTrips (hv : v.length = 2147483648) :
    RoundTrips noLz4 (assignOffsets 0 (firstBatch v)) := by
  have hr : (assignOffsets 0 (firstBatch v)).records = [valued v] := rfl
  have hlen := valued_length 0 hv (by norm_num) (by decide) (by decide +kernel)
    (by decide +kernel)
  refine uncompressed_roundTrips noLz4 _ rfl Nat.one_pos rfl (by decide : 1 ≤ maxRecordsPerBatch)
    (by norm_num : 0+1 < 2^64) ?_ ?_
  · rw [hr]
    simp [headerList, valued]
  · rw [hr, appendRecords, flatMap_singleton]
    change 23+(appendRecord { valued v with offsetDelta := 0 }).length < 2^32
    omega

theorem secondBatch_roundTrips {base : ℕ} (hb : base < 2^32)
    (hv : v.length = 2147476673) : RoundTrips noLz4 (assignOffsets base (secondBatch v)) := by
  have hlen := valued_length 0 hv (by norm_num) (by decide) (by decide +kernel)
    (by decide +kernel)
  have hrest : (appendRecords (bares 999 1)).length = 6930 := by
    rw [bares_length 999 1 (by norm_num)]
    decide +kernel
  have hcount : (assignOffsets base (secondBatch v)).recordCount = 1000 := by
    rw [assignOffsets, secondBatch]
    dsimp only
    rw [length_cons, length_replicate]
  refine uncompressed_roundTrips noLz4 _ rfl (by omega) ?_ ?_ ?_ ?_ ?_
  · simp [assignOffsets]
  · rw [hcount]
    decide
  · rw [hcount]
    have : (assignOffsets base (secondBatch v)).baseOffset = base := rfl
    omega
  · rw [secondBatch_records]
    intro r hr
    rcases mem_cons.mp hr with rfl | hr
    · simp [headerList, valued]
    · simp [bares_keyless hr]
  rw [secondBatch_records, appendRecords, flatMap_cons, length_append]
  change 23+((appendRecord { valued v with offsetDelta := 0 }).length+
    (appendRecords (bares 999 1)).length) < 2^32
  omega

def overflowGroup (v1 v2 : Bytes) : RecordBatch := ⟨0,1000,compressionNone,0,0,
  valued v1::{ valued v2 with offsetDelta := 1 }::bares 998 2⟩

def lastGroup : RecordBatch := ⟨1000,1,compressionNone,0,0,[bare]⟩

theorem overflow_groups (v1 v2 : Bytes) :
    groups 1001 0 (valued v1::valued v2::bares 999 1) = [overflowGroup v1 v2,lastGroup] := by
  obtain ⟨h1,h2⟩ := bares_split 998
  have ht : (valued v1::valued v2::bares 999 1).take batchLimit =
      valued v1::valued v2::bares 998 1 := by
    rw [show batchLimit = 998+1+1 from rfl, take_succ_cons, take_succ_cons, h1]
  have hd : (valued v1::valued v2::bares 999 1).drop batchLimit =
      [{ bare with offsetDelta := Int64.ofNat 999 }] := by
    rw [show batchLimit = 998+1+1 from rfl, drop_succ_cons, drop_succ_cons, h2]
  have hlen : (valued v1::valued v2::bares 998 1).length = 1000 := by
    rw [length_cons, length_cons, bares, length_mapIdx, length_replicate]
  have hb : groupBatch 0 (valued v1::valued v2::bares 998 1) = overflowGroup v1 v2 := by
    rw [groupBatch, overflowGroup, hlen, mapIdx_cons, mapIdx_cons, ← bares_placed 998 1 2]
    rfl
  rw [groups, ht, hd, hb]
  rfl

variable {v1 v2 : Bytes}

theorem overflow_length (h1 : v1.length = 2147483648) (h2 : v2.length = 2147476673) :
    23+(appendRecords (overflowGroup v1 v2).records).length = 2^32 := by
  have hl1 := valued_length 0 h1 (by norm_num) (by decide) (by decide +kernel)
    (by decide +kernel)
  have hl2 := valued_length 1 h2 (by norm_num) (by decide) (by decide +kernel)
    (by decide +kernel)
  have hrest : (appendRecords (bares 998 2)).length = 6924 := by
    rw [bares_length 998 2 (by norm_num)]
    decide +kernel
  rw [overflowGroup, appendRecords, flatMap_cons, flatMap_cons, length_append,
    length_append]
  change 23+((appendRecord { valued v1 with offsetDelta := 0 }).length+
    ((appendRecord { valued v2 with offsetDelta := 1 }).length+
      (appendRecords (bares 998 2)).length)) = 2^32
  omega

theorem first_append (hv : v.length = 2147483648) :
    ∃ cl f last, appendStep noLz4 eager (still 0,firstBatch v) (smallLog 0) = some cl ∧
      FairStep noLz4 eager (still 0,firstBatch v) (smallLog 0) ∧ Exact noLz4 cl [] last ∧
      last.2.base = 0 ∧ last.2.frames = [f] ∧ (f.batch noLz4).records = [valued v] := by
  obtain ⟨last,hw,he⟩ := fresh_whole (smallLog_fresh 0)
  have hnext : (smallLog 0).nextOffset = 0 := by decide +kernel
  have hactive : ∀ s ∈ (smallLog 0).active, s.baseOffset = 0 ∧ s.size = 0 ∧
      s.isFull eager (still 0) = false := by decide +kernel
  obtain ⟨_,hsize,hroom⟩ := hactive last.1 hw.exact.rep.active
  have hr : RoundTrips noLz4 (assignOffsets (smallLog 0).nextOffset (firstBatch v)) := by
    rw [hnext]
    exact firstBatch_roundTrips hv
  have hfair : Fair noLz4 eager (still 0) (smallLog 0) (firstBatch v) := by
    refine ⟨fun _ _ => hr,?_⟩
    intro s hs _
    rw [(hactive s hs).1, hnext]
    simp [firstBatch]
  obtain ⟨cl,d,held1,last1,f,s,hle,hstep,hroll,-,hrecs,hex⟩ := append_pushes noLz4 eager (still 0)
    (smallLog 0) (firstBatch v) [] last hw.exact hfair hr Nat.one_le_ofNat
    (by rw [hsize, maxFileSize]; norm_num)
  cases hroll with
  | roll s0 hfull _ =>
    rw [hroom] at hfull
    cases hfull
  | stay _ _ =>
    refine ⟨cl,f,_,hstep,hfair,hex,?_,?_,?_⟩
    · simp [he, Extent.empty]
    · simp [he, Extent.empty]
    · rw [hrecs]
      rfl

theorem overflow_run (h1 : v1.length = 2147483648) (h2 : v2.length = 2147476673) :
    ∃ cl y1 y2 last, runAll (appendStep noLz4 eager) (overflowRun v1 v2) (smallLog 0) = some cl ∧
      Along (appendStep noLz4 eager) (FairStep noLz4 eager) (overflowRun v1 v2) (smallLog 0) ∧
      Exact noLz4 cl [y1,y2] last ∧ y1.2.base = 0 ∧ 0 < cl.nextOffset ∧
      (recordsOf noLz4 (framesOf [y1,y2])).map KeyRecord.record =
        valued v1::valued v2::bares 999 1 := by
  obtain ⟨cl1,f1,last1,hs1,hg1,hx1,hb1,hf1,hr1⟩ := first_append h1
  obtain ⟨hfull1,hsize1⟩ := one_frame_full f1 hx1 hf1
  have hn1 := (hx1.sound last1 (by simp)).narrow
  rw [← hx1.rep.next] at hn1
  obtain ⟨cl2,f2,z1,s2,hle2,hs2,hg2,hz1,hr2,hx2⟩ := append_alone hx1
    hfull1 (secondBatch_roundTrips (by omega) h2)
    (by rw [secondBatch, length_cons, length_replicate]; decide) hsize1
  obtain ⟨hfull2,hsize2⟩ := one_frame_full f2 hx2 (by simp [Extent.empty])
  have hn2 := (hx2.sound _ (mem_append_right _ (mem_singleton_self _))).narrow
  rw [← hx2.rep.next] at hn2
  simp only [Extent.push_base, Extent.empty] at hn2
  have hr3 : RoundTrips noLz4 (assignOffsets cl2.nextOffset (smallBatch 0 1)) :=
    uncompressed_roundTrips noLz4 _ rfl Nat.one_pos rfl (by decide : 1 ≤ maxRecordsPerBatch)
      (by change cl2.nextOffset+1 < 2^64; omega) (by decide : ∀ r ∈ (smallBatch 0 1).records,
        (headerList r).length ≤ maxHeadersPerRecord)
      (by decide : 23+(appendRecords (smallBatch 0 1).records).length < 2^32)
  obtain ⟨cl3,f3,z2,s3,hle3,hs3,hg3,hz2,-,hx3⟩ := append_alone hx2 hfull2 hr3
    (by decide) hsize2
  refine ⟨cl3,z1,z2,_,?_,?_,hx3,by rw [hz1, hb1],?_,?_⟩
  · simp [overflowRun, runAll, hs1, hs2, hs3]
  · simp [overflowRun, Along, hs1, hs2, hg1, hg2, hg3]
  · rw [hx3.rep.next]
    exact lt_of_le_of_lt (Nat.zero_le _) f3.base_lt_stop
  have hframes : framesOf [z1,z2] = [f1,f2] := by simp [framesOf, hz1, hz2, hf1, Extent.empty]
  rw [hframes, ← recordsOf_records, map_cons, map_cons, map_nil, flatMap_cons,
    flatMap_cons, flatMap_nil, append_nil, hr1, hr2, secondBatch_records,
    map_cons, bares_asRead]
  rfl

theorem overflow_kept {ys : List Held} (h : (recordsOf noLz4 (framesOf ys)).map KeyRecord.record =
      valued v1::valued v2::bares 999 1) : kept noLz4 ys = recordsOf noLz4 (framesOf ys) := by
  have hnone : ∀ kr ∈ recordsOf noLz4 (framesOf ys), recordKey kr.record = none := by
    intro kr hkr
    have hmem := mem_map_of_mem (f := KeyRecord.record) hkr
    rw [h, mem_cons, mem_cons] at hmem
    rcases hmem with he | he | he
    · rw [he]
      rfl
    · rw [he]
      rfl
    · exact (bares_keyless he).2
  have hall : ∀ krs : List KeyRecord, krs.Sublist (recordsOf noLz4 (framesOf ys)) →
      krs.filter (fun kr => recordKey kr.record = none) = krs := fun krs hs =>
    filter_eq_self.mpr (fun kr hkr => decide_eq_true (hnone kr (hs.subset hkr)))
  have hkeep := keepLast_keyless (fun kr => recordKey kr.record) (recordsOf noLz4 (framesOf ys))
  rwa [hall _ (keepLast_sublist _ _), hall _ (List.Sublist.refl _)] at hkeep

theorem overflow_forgets (h1 : v1.length = 2147483648) (h2 : v2.length = 2147476673) : ∃ cl cl',
    runAll (appendStep noLz4 eager) (overflowRun v1 v2) (smallLog 0) = some cl ∧
      Along (appendStep noLz4 eager) (FairStep noLz4 eager) (overflowRun v1 v2) (smallLog 0) ∧
      (sealedRecords noLz4 cl).map KeyRecord.record = valued v1::valued v2::bares 999 1 ∧
      compact noLz4 eager (still 0) keepOrder cl = (cl',.ok ()) ∧ sealedRecords noLz4 cl' = [] := by
  obtain ⟨cl,y1,y2,last,hrun,hal,hx,hb,hn,hrecs⟩ := overflow_run h1 h2
  have hkept := overflow_kept hrecs
  have hlen : (kept noLz4 [y1,y2]).length = 1001 := by
    rw [hkept, ← length_map (f := KeyRecord.record), hrecs, length_cons, length_cons,
      bares, length_mapIdx, length_replicate]
  have hgroups : groups (kept noLz4 [y1,y2]).length y1.2.base
      ((kept noLz4 [y1,y2]).map KeyRecord.record) = [overflowGroup v1 v2,lastGroup] := by
    rw [hlen, hb, hkept, hrecs]
    exact overflow_groups v1 v2
  have hover := overflow_length h1 h2
  have hpiece : Piece (nextBatch noLz4) (frame lastGroup compressionNone
      (appendRecords lastGroup.records),lastGroup) := by
    rw [Piece, nextBatch_some]
    decide +kernel
  have hsmall : (appendRecords lastGroup.records).length = 6 := by decide +kernel
  obtain ⟨cl',hm,hempty⟩ := overflowing_group_lost hx eager (still 0) keepOrder
    (overflowGroup v1 v2) lastGroup (frame (overflowGroup v1 v2) compressionNone _) rfl hgroups
    rfl rfl (overflow_stops noLz4 (by rw [hover]; norm_num)) hpiece
    (by rw [frame_length]; change 4096 ≤ _; omega) (by rw [frame_length, recoverChunkSize]; omega)
    (by rw [frame_length, frame_length, maxFileSize]; omega) (by omega)
  refine ⟨cl,cl',hrun,hal,?_,hm,hempty⟩
  rw [sealedRecords_clean noLz4 hx.rep (fun y hy => (hx.sound y (mem_append_left _ hy)).clean), hrecs]

/-- A group of 1001 survivors is longer than its length field counts, and all of them are lost. -/
theorem overflowing_group_forgotten : ∃ cl cl',
    Fresh noLz4 (smallLog 0) ∧ Reaches (fun x s t => appendStep noLz4 eager x s = some t)
      (FairStep noLz4 eager) (smallLog 0) cl ∧
    runAll (appendStep noLz4 eager) (overflowRun (List.replicate 2147483648 7)
      (List.replicate 2147476673 7)) (smallLog 0) = some cl ∧
    (sealedRecords noLz4 cl).length = 1001 ∧
    compact noLz4 eager (still 0) keepOrder cl = (cl',.ok ()) ∧ sealedRecords noLz4 cl' = [] ∧
    ¬KeepsState noLz4 cl cl' := by
  obtain ⟨cl,cl',hrun,hal,hrecs,hm,hempty⟩ := overflow_forgets
    length_replicate length_replicate
  refine ⟨cl,cl',smallLog_fresh 0,reaches_of_runAll _ _ hal hrun,hrun,?_,hm,hempty,?_⟩
  · rw [← length_map (f := KeyRecord.record), hrecs, length_cons, length_cons,
      bares, length_mapIdx, length_replicate]
  intro hk
  have hmem : valued (List.replicate 2147483648 7) ∈
      (sealedRecords noLz4 cl).map KeyRecord.record := by
    rw [hrecs]
    exact mem_cons_self
  obtain ⟨kr,hkr,he⟩ := mem_map.mp hmem
  have hkey : recordKey kr.record = none := by
    rw [he]
    rfl
  have hless := hk.keyless
  rw [hempty, filter_nil, map_nil, eq_comm, map_eq_nil_iff] at hless
  exact filter_eq_nil_iff.mp hless kr hkr (decide_eq_true hkey)

end GoCommon.ForgeLatestState
