import GoCommon.Lz4Block
import GoCommon.ForgeReopen
import GoCommon.ForgeProgress

/-!
# Accepted batches can be read back

An append checks the number of records only. The decoder has limits of its
own: the headers of a record, the buffer a compressed batch is restored into,
and the window in which a log is recovered when it is opened again. A run of
appends that stay within them can be read back from every batch on, before and
after the log has been closed and opened again.
-/

set_option autoImplicit false

namespace GoCommon.ForgeAcceptance
open List ByteWords ByteVarint FileDisk StepRuns ForgeRecord ForgeRecordCodec ForgeIndex
open ForgeSegment ForgeFrames ForgeSegmentFiles ForgeExtents ForgeCommitLog ForgeLogState
open ForgeLogRemoval ForgeLogRewrites ForgeLogRuns ForgeLogInvariant ForgeLogView ForgeUpkeep
open ForgeMerge ForgeProgress ForgeReopen

/-! ## Compressed batches -/

structure Restores (lz4 : Lz4) : Prop where
  inverse : ∀ src out n, lz4.compressBlock src = some out → out ≠ [] → src.length ≤ n →
    lz4.uncompressBlock out n = some src
  refuses : ∀ src out n, lz4.compressBlock src = some out → out ≠ [] → n < src.length →
    lz4.uncompressBlock out n = none

def firstBuffer (out : Bytes) : ℕ := min (out.length*decompressInitMultiplier) maxDecompressSize

def Buffered (src out : Bytes) : Prop :=
  ∃ k, src.length ≤ firstBuffer out*2^k ∧ firstBuffer out*2^k ≤ maxDecompressSize

theorem decompressLoop_restores (lz4 : Lz4) (h : Restores lz4) (src out : Bytes)
    (hc : lz4.compressBlock src = some out) (hne : out ≠ []) (k n size : ℕ) (hk : k < n)
    (hl : src.length ≤ size*2^k) (hu : size*2^k ≤ maxDecompressSize) :
    decompressLoop lz4 out n size = .ok src := by
  induction k generalizing n size with
  | zero =>
    obtain ⟨n,rfl⟩ := Nat.exists_eq_succ_of_ne_zero (Nat.ne_of_gt hk)
    rw [decompressLoop, h.inverse src out size hc hne (by simpa using hl)]
  | succ k ih =>
    obtain ⟨n,rfl⟩ := Nat.exists_eq_succ_of_ne_zero (Nat.ne_of_gt (Nat.zero_lt_of_lt hk))
    rw [decompressLoop]
    by_cases hs : src.length ≤ size
    · rw [h.inverse src out size hc hne hs]
    have hp : size*2^(k+1) = size*2*2^k := by ring
    have hle : size*2 ≤ size*2*2^k := Nat.le_mul_of_pos_right _ (Nat.two_pow_pos k)
    have hg : decompressGrowthFactor = 2 := rfl
    rw [hp] at hl hu
    rw [h.refuses src out size hc hne (by omega)]
    rw [hg, if_neg (by omega)]
    exact ih n (size*2) (by omega) hl hu

variable {lz4 : Lz4} {b : RecordBatch} {cfg : Config} {cl : CommitLog} {d : Disk Path} {env : Env}
  {held : List Held} {last : Held}

theorem decompress_restores (h : Restores lz4) {src out : Bytes}
    (hc : lz4.compressBlock src = some out) (hne : out ≠ []) (hb : Buffered src out) :
    decompress lz4 compressionLZ4 out = .ok src := by
  obtain ⟨k,hl,hu⟩ := hb
  have hpos : 0 < firstBuffer out := by
    have := length_pos_iff.mpr hne
    rw [firstBuffer, decompressInitMultiplier, maxDecompressSize]
    omega
  have hk : 2^k ≤ 2^24 := by
    calc 2^k ≤ firstBuffer out*2^k := Nat.le_mul_of_pos_left _ hpos
      _ ≤ maxDecompressSize := hu
      _ = 2^24 := rfl
  have hlt := (Nat.pow_le_pow_iff_right (by norm_num : 1 < 2)).mp hk
  exact decompressLoop_restores lz4 h src out hc hne k 26 _ (by omega) hl hu

/-- A batch that stays within the limits of the decoder and of the recovery. -/
structure Storable (lz4 : Lz4) (b : RecordBatch) : Prop where
  headers : ∀ r ∈ b.records, (headerList r).length ≤ maxHeadersPerRecord
  buffered : b.compression = compressionLZ4 → ∀ out,
    lz4.compressBlock (appendRecords b.records) = some out → out ≠ [] →
      Buffered (appendRecords b.records) out
  short : ∀ e, encodeBatch lz4 b = .ok e → e.length ≤ recoverChunkSize

theorem frame_roundTrips {ct : UInt8} {body : Bytes}
    (hp : 0 < b.recordCount) (hn : b.recordCount = b.records.length)
    (hm : b.recordCount ≤ maxRecordsPerBatch) (ho : b.baseOffset+b.recordCount < 2^64)
    (hh : ∀ r ∈ b.records, (headerList r).length ≤ maxHeadersPerRecord)
    (hpay : payload lz4 b = .ok (ct,body)) (hl : 23+body.length < 2^32)
    (hd : recordData lz4 ct body = .ok (appendRecords b.records))
    (hs : (appendRecords b.records).length < 2^63) : RoundTrips lz4 b := by
  have hmax : maxRecordsPerBatch = 65535 := rfl
  have he : encodeBatch lz4 b = .ok (frame b ct body) := by
    rw [encodeBatch, if_neg (by omega), hpay]
  have hr : decodeRecords b.recordCount (appendRecords b.records) = .ok (b.records.map asRead) := by
    rw [hn]
    exact decodeRecords_append b.records hs hh
  have hdec := decodeBatch_frame lz4 b ct hl (by omega) (by omega) hd hr
  exact ⟨_,_,he,batchSize_frame b _ _ hl,hdec,rfl,rfl,rfl,Nat.mod_eq_of_lt ho⟩

theorem payload_restored (h : Restores lz4) {ct : UInt8} {body : Bytes}
    (hb : b.compression = compressionLZ4 → ∀ out,
      lz4.compressBlock (appendRecords b.records) = some out → out ≠ [] →
        Buffered (appendRecords b.records) out)
    (hpay : payload lz4 b = .ok (ct,body)) :
    recordData lz4 ct body = .ok (appendRecords b.records) ∧
      ((appendRecords b.records).length ≤ maxDecompressSize ∨ body = appendRecords b.records) := by
  unfold payload at hpay
  split at hpay
  · rename_i hct
    by_cases hl : b.compression = compressionLZ4
    · rw [compress, if_pos hl] at hpay
      rcases hc : lz4.compressBlock (appendRecords b.records) with _ | out
      · simp [hc] at hpay
      cases out with
      | nil =>
        -- an empty block: the records are stored as they are
        simp only [hc, Except.ok.injEq, Prod.mk.injEq] at hpay
        obtain ⟨rfl,rfl⟩ := hpay
        exact ⟨by rw [recordData, if_neg (by simp)],.inr rfl⟩
      | cons x out =>
        simp only [hc, Except.ok.injEq, Prod.mk.injEq] at hpay
        obtain ⟨rfl,rfl⟩ := hpay
        have hbuf := hb hl (x::out) hc (by simp)
        obtain ⟨k,h1,h2⟩ := hbuf
        refine ⟨?_,.inl (le_trans h1 h2)⟩
        rw [hl]
        exact decompress_restores h hc (by simp) ⟨k,h1,h2⟩
    rw [compress, if_neg hl] at hpay
    obtain ⟨rfl,rfl⟩ := hpay
    exact ⟨by rw [recordData, if_pos hct, decompress, if_neg hl],.inr rfl⟩
  rename_i hct
  obtain ⟨rfl,rfl⟩ := hpay
  exact ⟨by rw [recordData, if_neg hct],.inr rfl⟩

theorem storable_roundTrips (h : Restores lz4) {e : Bytes}
    (hb : Storable lz4 b) (hn : b.recordCount = b.records.length)
    (hm : b.recordCount ≤ maxRecordsPerBatch) (ho : b.baseOffset+b.recordCount < 2^64)
    (he : encodeBatch lz4 b = .ok e) : RoundTrips lz4 b := by
  have hsize := hb.short e he
  rw [recoverChunkSize] at hsize
  have hz : b.recordCount ≠ 0 := by
    intro hz
    rw [encodeBatch, if_pos hz] at he
    cases he
  rw [encodeBatch, if_neg hz] at he
  rcases hpay : payload lz4 b with s | ⟨ct,body⟩
  · rw [hpay] at he
    cases he
  rw [hpay] at he
  cases he
  rw [frame_length] at hsize
  obtain ⟨hd,hs⟩ := payload_restored h hb.buffered hpay
  refine frame_roundTrips (by omega) hn hm ho hb.headers hpay (by omega) hd ?_
  rcases hs with hs | hs
  · rw [maxDecompressSize] at hs
    omega
  · rw [← hs]
    omega

/-! ## Runs of appends -/

structure Accepts (lz4 : Lz4) (cfg : Config) (x : Env × RecordBatch) (cl : CommitLog) : Prop where
  storable : Storable lz4 (assignOffsets cl.nextOffset x.2)
  bounded : cl.nextOffset+x.2.records.length < 2^64
  narrow : ∀ s ∈ cl.active, s.isFull cfg x.1 = false →
    cl.nextOffset+x.2.records.length < s.baseOffset+2^32

def acceptedBatches (lz4 : Lz4) (cfg : Config) :
    List (Env × RecordBatch) → CommitLog → List RecordBatch
  | [], _ => []
  | (env,batch)::xs, cl => match cl.append lz4 cfg env batch with
    | (cl',.ok _) => assignOffsets cl.nextOffset batch::acceptedBatches lz4 cfg xs cl'
    | (cl',.error _) => acceptedBatches lz4 cfg xs cl'

theorem accepts_fair (h : Restores lz4) {x : Env × RecordBatch}
    (ha : Accepts lz4 cfg x cl) (hn : x.2.records.length ≤ maxRecordsPerBatch) :
    Fair lz4 cfg x.1 cl x.2 :=
  ⟨fun e he => storable_roundTrips h ha.storable (by simp [assignOffsets]) hn ha.bounded he,
    ha.narrow⟩

theorem started_lookup {base ptr : ℕ} {d' : Disk Path} {s : Segment}
    (h : Started .main base ptr d d' s) {p : Path} {i : ℕ} (hp : d.lookup p = some i) :
    d'.lookup p = some i := by
  have hopen : ∀ {q : Path} {a b : Disk Path} {j : ℕ}, Fs.Opened q a b j → a.lookup p = some i →
      b.lookup p = some i := by
    intro q a b j ho hl
    by_cases hq : p = q
    · rcases ho.origin with hs | ⟨hs,_⟩
      · rw [hq] at hl ⊢
        rw [ho.named, ← hs, hl]
      · rw [← hq, hl] at hs
        cases hs
    · rw [ho.others p hq, hl]
  obtain ⟨e,h1,h2⟩ := h.log
  exact hopen h2 (hopen h1 hp)

structure Stocked (d : Disk Path) (held : List Held) (last : Held) : Prop where
  full : ∀ y ∈ held, y.2.frames ≠ [] → d.data y.1.logFile.ino = raw y.2.frames
  linked : ∀ y ∈ held++[last], Linked d y.1
  only : ∀ p i, d.lookup p = some i → p.dir = .main ∧
    (p.base = last.2.base ∨ ∃ y ∈ held, y.2.frames ≠ [] ∧ p.base = y.2.base)

structure Shelf (lz4 : Lz4) (cl : CommitLog) (held : List Held) (last : Held) : Prop where
  exact : Exact lz4 cl held last
  stocked : Stocked cl.fs.disk held last
  short : ∀ f ∈ framesOf (held++[last]), f.bytes.length ≤ recoverChunkSize

theorem stocked_rolled {held' : List Held} {last' : Held} (he : Exact lz4 cl held last)
    (h : Stocked cl.fs.disk held last) (hr : Rolled cfg env cl held last d held' last') :
    Stocked d held' last' := by
  cases hr with
  | stay _ hd =>
    rw [hd]
    exact h
  | roll s hfull hs =>
    have hmem : ∀ y ∈ held++[last], y.1 ∈ (held++[last]).map Prod.fst :=
      fun y hy => mem_map_of_mem hy
    have hdata : ∀ y ∈ held++[last], d.data y.1.logFile.ino = cl.fs.disk.data y.1.logFile.ino :=
      fun y hy => hs.data (he.rep.tidy.handles _ (hmem y hy)).1
    have hold : ∀ y ∈ held++[last], Linked d y.1 := fun y hy =>
      ⟨started_lookup hs (h.linked y hy).1,started_lookup hs (h.linked y hy).2⟩
    have hfiles := sealSegment_files env last.1
    refine ⟨?_,?_,?_⟩
    · intro y hy hne
      rcases mem_append.mp hy with hy | hy
      · rw [hdata y (by simp [hy])]
        exact h.full y hy hne
      simp only [files, Prod.mk.injEq] at hfiles
      rw [mem_singleton.mp hy]
      rw [hfiles.1, hdata last (by simp)]
      exact he.rep.live.written.data
    · intro y hy
      rcases mem_append.mp hy with hy | hy
      · rcases mem_append.mp hy with hy | hy
        · exact hold y (by simp [hy])
        · rw [mem_singleton.mp hy]
          exact linked_congr (hold last (by simp)) hfiles (fun _ _ _ => rfl)
      · rw [mem_singleton.mp hy, Linked, hs.base]
        exact ⟨hs.logNamed,hs.idxNamed⟩
    intro p i hp
    by_cases hnew : p.dir = .main ∧ p.base = cl.nextOffset
    · exact ⟨hnew.1,.inl hnew.2⟩
    rw [hs.others p hnew] at hp
    obtain ⟨hdir,hlast | ⟨y,hy,hne,hb⟩⟩ := h.only p i hp
    · refine ⟨hdir,?_⟩
      by_cases hn : last.2.frames = []
      · left
        rw [hlast, ← last.2.finish_nil hn, ← he.rep.next]
        rfl
      · exact .inr ⟨_,mem_append_right _ (mem_singleton_self _),hn,hlast⟩
    · exact ⟨hdir,.inr ⟨y,by simp [hy],hne,hb⟩⟩

theorem stocked_touched
    (h : Stocked d held last) {s : Segment} {a : Extent} (hr : Rep cl held (s,a))
    (hs : files s = files last.1) (ha : a.base = last.2.base)
    (ht : Disk.Touches last.1.logFile.ino last.1.index.file.ino d cl.fs.disk) :
    Stocked cl.fs.disk held (s,a) := by
  have hlook : ∀ p, cl.fs.disk.lookup p = d.lookup p := ht.lookup
  have hlinked : ∀ y ∈ held++[last], Linked cl.fs.disk y.1 :=
    fun y hy => linked_congr (h.linked y hy) rfl (fun p _ _ => hlook p)
  have hf := hs
  simp only [files, Prod.mk.injEq] at hf
  refine ⟨?_,?_,?_⟩
  · intro y hy hne
    have hap := ((pairwise_last).mp hr.apart).2 y hy hne
    have hkind := hr.tidy.kinds y.1 (by simp; exact .inl ⟨_,hy⟩) s (by simp)
    rw [ht.data _ (by rw [← hf.1]; exact hap.1) (by rw [← hf.2.1]; exact hkind)]
    exact h.full y hy hne
  · intro y hy
    rcases mem_append.mp hy with hy | hy
    · exact hlinked y (by simp [hy])
    · rw [mem_singleton.mp hy]
      exact linked_congr (hlinked last (by simp)) hs (fun _ _ _ => rfl)
  intro p i hp
  rw [hlook] at hp
  rw [ha]
  exact h.only p i hp

/-- An append whose frame fits the recovery window adds it if it is accepted. Only the segment
that was active joins the other ones. -/
theorem append_shelf_fair (h : Shelf lz4 cl held last) {batch : RecordBatch}
    {cl' : CommitLog} {r : Except Stop ℕ} (hfair : Fair lz4 cfg env cl batch)
    (hshort : ∀ e, encodeBatch lz4 (assignOffsets cl.nextOffset batch) = .ok e →
      e.length ≤ recoverChunkSize)
    (ha : cl.append lz4 cfg env batch = (cl',r)) : ∃ held' last', Shelf lz4 cl' held' last' ∧
      (∀ y ∈ held', y ∈ held ∨ last.1.isFull cfg env = true ∧ y.2 = last.2) ∧
      ((∃ e, r = .error e) ∧ framesOf (held'++[last']) = framesOf (held++[last]) ∨
        ∃ f, r = .ok f.base ∧ framesOf (held'++[last']) = framesOf (held++[last])++[f] ∧
          f.base = cl.nextOffset ∧
          (f.batch lz4).records = (assignOffsets cl.nextOffset batch).records.map asRead) := by
  rcases append_exact lz4 h.exact hfair ha with
    ⟨rfl,e,he⟩ | ⟨d,held1,last1,hr,ht,hout⟩
  · exact ⟨held,last,h,fun y hy => .inl hy,.inl ⟨⟨e,he⟩,rfl⟩⟩
  have hjoin : ∀ y ∈ held1, y ∈ held ∨ last.1.isFull cfg env = true ∧ y.2 = last.2 := by
    intro y hy
    cases hr with
    | stay => exact .inl hy
    | roll s hfull =>
      rcases mem_append.mp hy with hy | hy
      · exact .inl hy
      · rw [mem_singleton.mp hy]
        exact .inr ⟨hfull,rfl⟩
  rcases hout with ⟨e,he,hex⟩ | ⟨f,hres,henc,hrecs,s,hle,hfiles,hex⟩
  · have hst := stocked_touched (stocked_rolled h.exact h.stocked hr) hex.rep rfl
      rfl ht
    exact ⟨held1,last1,⟨hex,hst,by rw [rolled_frames hr]; exact h.short⟩,hjoin,
      .inl ⟨⟨_,he⟩,rolled_frames hr⟩⟩
  have hst := stocked_touched (stocked_rolled h.exact h.stocked hr) hex.rep hfiles rfl ht
  have hfr : framesOf (held1++[(s,last1.2.push f hle)]) = framesOf (held++[last])++[f] := by
    rw [← rolled_frames hr]
    simp [framesOf]
  refine ⟨held1,_,⟨hex,hst,?_⟩,hjoin,.inr ⟨f,hres,hfr,henc.base,hrecs⟩⟩
  rw [hfr]
  intro g hgm
  rcases mem_append.mp hgm with hgm | hgm
  · exact h.short g hgm
  · rw [mem_singleton.mp hgm]
    exact hshort _ henc.bytes

theorem append_shelf (hlz : Restores lz4) (h : Shelf lz4 cl held last) {batch : RecordBatch}
    {cl' : CommitLog} {r : Except Stop ℕ} (hg : Accepts lz4 cfg (env,batch) cl)
    (ha : cl.append lz4 cfg env batch = (cl',r)) : ∃ held' last', Shelf lz4 cl' held' last' ∧
      ((∃ e, r = .error e) ∧ framesOf (held'++[last']) = framesOf (held++[last]) ∨
        ∃ f, r = .ok f.base ∧ framesOf (held'++[last']) = framesOf (held++[last])++[f] ∧
          f.base = cl.nextOffset ∧
          (f.batch lz4).records = (assignOffsets cl.nextOffset batch).records.map asRead) := by
  by_cases hn : maxRecordsPerBatch < batch.records.length
  · rw [CommitLog.append, h.exact.rep.opened, if_pos hn] at ha
    cases ha
    exact ⟨held,last,h,.inl ⟨⟨_,rfl⟩,rfl⟩⟩
  obtain ⟨held',last',hs,_,hout⟩ := append_shelf_fair h
    (accepts_fair hlz hg (not_lt.mp hn)) hg.storable.short ha
  exact ⟨held',last',hs,hout⟩

theorem fresh_shelf (h : Fresh lz4 cl) :
    ∃ last, Shelf lz4 cl [] last ∧ framesOf ([]++[last]) = [] := by
  obtain ⟨s,hs,hrep,hu⟩ := fresh_rep lz4 cl h
  obtain ⟨last,hw,he⟩ := fresh_whole h
  have hfr : framesOf ([]++[last]) = [] := by simp [framesOf, he, Extent.empty]
  have hlast : last.1 = s := by
    have h1 := hw.exact.rep.active
    rw [hrep.active] at h1
    exact (Option.some.inj h1).symm
  refine ⟨last,⟨hw.exact,⟨by simp,?_,?_⟩,by rw [hfr]; simp⟩,hfr⟩
  · intro y hy
    rw [nil_append, mem_singleton] at hy
    rw [hy, hlast, Linked, hs.base]
    exact ⟨hs.logNamed,hs.idxNamed⟩
  intro p i hp
  by_cases hnew : p.dir = .main ∧ p.base = 0
  · exact ⟨hnew.1,.inl (by rw [hnew.2, he]; rfl)⟩
  · rw [hs.others p hnew] at hp
    cases hp

def stored (b : RecordBatch) : ℕ × List Record := (b.baseOffset,b.records.map asRead)

theorem run_shelf (hlz : Restores lz4) (cfg : Config) (xs : List (Env × RecordBatch))
    (cl cl' : CommitLog) (held : List Held) (last : Held) (h : Shelf lz4 cl held last)
    (hg : Along (appendStep lz4 cfg) (Accepts lz4 cfg) xs cl)
    (hr : runAll (appendStep lz4 cfg) xs cl = some cl') : ∃ held' last',
      Shelf lz4 cl' held' last' ∧
      (framesOf (held'++[last'])).map (fun f => ((f.batch lz4).baseOffset,(f.batch lz4).records)) =
        (framesOf (held++[last])).map (fun f => ((f.batch lz4).baseOffset,(f.batch lz4).records))++
          (acceptedBatches lz4 cfg xs cl).map stored := by
  induction xs generalizing cl held last with
  | nil =>
    cases hr
    exact ⟨held,last,h,by simp [acceptedBatches]⟩
  | cons x xs ih =>
    obtain ⟨hgood,hrest⟩ := hg
    obtain ⟨cl1,hstep,hrun⟩ := Option.bind_eq_some_iff.mp hr
    obtain ⟨r,ha,_⟩ := returned_some hstep
    obtain ⟨held1,last1,h1,hcase⟩ := append_shelf hlz h hgood ha
    obtain ⟨held',last',h',hfr⟩ := ih cl1 held1 last1 h1 (hrest cl1 hstep) hrun
    refine ⟨held',last',h',?_⟩
    rw [hfr]
    rcases hcase with ⟨⟨e,rfl⟩,hsame⟩ | ⟨f,rfl,hpush,hbase,hrecs⟩
    · rw [hsame, acceptedBatches, ha]
    have hmem : f ∈ framesOf (held1++[last1]) := by rw [hpush]; simp
    obtain ⟨y,hy,hfy⟩ := mem_flatMap.mp hmem
    have hread := ((h1.exact.sound y hy).clean f hfy).readable
    rw [hpush, acceptedBatches, ha]
    simp only [map_append, map_cons, map_nil, append_assoc,
      cons_append, nil_append, stored]
    rw [(Frame.batch_base hread).1, hbase, hrecs]
    rfl

/-! ## Closing and opening again -/

theorem close_saved (env : Env) (fs : Files) (s : Segment) (h : Saved fs.disk s.index) :
    (s.close env fs).disk.data s.index.file.ino = putEntries s.index.entries := by
  rcases h.position with hp | hd
  · obtain ⟨he,_,hi,_,hd,hf,_⟩ := sync_flushed env.written fs s.index ⟨h.data,h.dirty,hp⟩
    have hdata := hf.data
    rwa [hi, hd, he, take_length] at hdata
  · rw [close_clean env fs s (by rw [hd, drop_length]), h.data, hd, take_length]

structure Synced (d d' : Disk Path) (ys : List Held) : Prop where
  lookup : ∀ p, d'.lookup p = d.lookup p
  data : ∀ k, (∀ y ∈ ys, y.2.frames ≠ [] → k ≠ y.1.index.file.ino) → d'.data k = d.data k
  marked : ∀ y ∈ ys, y.2.frames ≠ [] →
    d'.data y.1.index.file.ino = putEntries y.1.index.entries

theorem close_settles (env : Env) {ys : List Held} (fs : Files)
    (hk : ∀ y ∈ ys, Keeps fs.disk y.1 y.2)
    (hap : ys.Pairwise (fun y z => y.2.frames ≠ [] → Apart y.1 z.1))
    (hkinds : ∀ y ∈ ys, ∀ z ∈ ys, y.1.logFile.ino ≠ z.1.index.file.ino) :
    Synced fs.disk ((ys.map Prod.fst).foldl (fun fs s => s.close env fs) fs).disk ys := by
  induction ys generalizing fs with
  | nil => exact ⟨fun _ => rfl,fun _ _ => rfl,by simp⟩
  | cons y ys ih =>
    obtain ⟨hy,hys⟩ := pairwise_cons.mp hap
    have ht := close_touches env fs y.1 y.1.index.file.ino
    have hdata : ∀ k, (y.2.frames ≠ [] → k ≠ y.1.index.file.ino) →
        (y.1.close env fs).disk.data k = fs.disk.data k := by
      intro k hne
      by_cases hf : y.2.frames = []
      · rw [close_clean env fs y.1 ((hk y (by simp)).unmarked hf)]
      · exact ht.data k (hne hf) (hne hf)
    have hrest := ih (y.1.close env fs)
      (fun z hz => (hk z (by simp [hz])).transport (fun _ =>
        ⟨hdata _ (fun _ => hkinds z (by simp [hz]) y (by simp)),
          hdata _ (fun hf => (hy z hz hf).2.symm)⟩))
      hys (fun z hz w hw => hkinds z (by simp [hz]) w (by simp [hw]))
    rw [map_cons, foldl_cons]
    refine ⟨fun p => (hrest.lookup p).trans (ht.lookup p),?_,?_⟩
    · intro k hne
      rw [hrest.data k (fun z hz => hne z (by simp [hz])), hdata k (hne y (by simp))]
    intro z hz hf
    rcases mem_cons.mp hz with rfl | hz
    · rw [hrest.data _ (fun w hw _ => (hy w hw hf).2)]
      exact close_saved env fs z.1 ((hk z (by simp)).saved hf)
    · exact hrest.marked z hz hf

def lasting (held : List Held) (last : Held) : List Held :=
  held.filter (fun y => y.2.frames ≠ [])++[last]

theorem mem_lasting (held : List Held) (last y : Held) : y ∈ lasting held last ↔
    y = last ∨ y ∈ held ∧ y.2.frames ≠ [] := by
  simp [lasting, or_comm]

theorem lasting_subset {y : Held} (h : y ∈ lasting held last) : y ∈ held++[last] := by
  rcases (mem_lasting held last y).mp h with rfl | ⟨h,_⟩
  · simp
  · simp [h]

theorem lasting_frames : framesOf (lasting held last) = framesOf (held++[last]) := by
  rw [lasting, framesOf, framesOf, flatMap_append, flatMap_append]
  congr 1
  induction held with
  | nil => rfl
  | cons y ys ih =>
    by_cases hf : y.2.frames = []
    · rw [filter_cons_of_neg (by simpa using hf), ih, flatMap_cons, hf, nil_append]
    · rw [filter_cons_of_pos (by simpa using hf), flatMap_cons, ih, flatMap_cons]

theorem lasting_sorted (h : (held++[last]).Pairwise (fun y z => y.2.finish ≤ z.2.base)) :
    (lasting held last).Pairwise (fun y z => y.2.finish ≤ z.2.base ∧ y.2.base < z.2.base) := by
  obtain ⟨hheld,hlast⟩ := (pairwise_last).mp h
  refine (pairwise_last).mpr ⟨?_,?_⟩
  · refine (hheld.filter _).imp_of_mem (fun {y z} hy _ hle => ⟨hle,?_⟩)
    have hf := of_decide_eq_true (mem_filter.mp hy).2
    exact lt_of_lt_of_le (y.2.base_lt_finish hf) hle
  · intro y hy
    obtain ⟨hm,hf⟩ := mem_filter.mp hy
    exact ⟨hlast y hm,lt_of_lt_of_le (y.2.base_lt_finish (of_decide_eq_true hf)) (hlast y hm)⟩

section Closing
variable {lz4 : Lz4} {cl : CommitLog} {held : List Held} {last : Held}
  (h : Shelf lz4 cl held last) (env : Env)
include h

theorem Shelf.synced : Synced cl.fs.disk (cl.close env).fs.disk (held++[last]) := by
  have hs := close_settles env cl.fs h.exact.rep.keeps_all h.exact.rep.apart
    (fun y hy z hz => h.exact.rep.tidy.kinds _ (mem_map_of_mem hy) _ (mem_map_of_mem hz))
  rw [CommitLog.close, h.exact.rep.opened, h.exact.rep.listed]
  exact hs

theorem Shelf.shelved {y : Held} (hy : y ∈ lasting held last) :
    Shelved (cl.close env).fs.disk y.2 := by
  have hs := h.synced env
  have hm := lasting_subset hy
  have hk := h.exact.rep.keeps_all y hm
  have hkinds : ∀ z ∈ held++[last], y.1.logFile.ino ≠ z.1.index.file.ino := fun z hz =>
    h.exact.rep.tidy.kinds _ (mem_map_of_mem hm) _ (mem_map_of_mem hz)
  have hlinked := h.stocked.linked y hm
  rw [Linked, hk.base] at hlinked
  refine ⟨⟨y.1.logFile.ino,y.1.index.file.ino,y.1.index.entries,hkinds y hm,?_,?_,?_,?_,
    (h.exact.sound y hm).indexed⟩,by rw [← hk.size]; exact hk.small⟩
  · rw [hs.lookup, hlinked.1]
  · rw [hs.lookup, hlinked.2]
  · rw [hs.data _ (fun z hz _ => hkinds z hz)]
    rcases (mem_lasting held last y).mp hy with rfl | ⟨hin,hf⟩
    · exact h.exact.rep.live.written.data
    · exact h.stocked.full y hin hf
  by_cases hf : y.2.frames = []
  · -- the active segment is empty: its index file is, and nobody writes to it
    obtain rfl : y = last := by
      rcases (mem_lasting held last y).mp hy with he | ⟨_,hne⟩
      · exact he
      · exact absurd hf hne
    have hnil : y.1.index.entries = [] := by
      have hi := h.exact.rep.live.indexed
      rwa [hf, marks, sublist_nil] at hi
    rw [hs.data, h.exact.rep.live.written.flushed.data, hnil, take_nil]
    intro z hz hne
    rcases mem_append.mp hz with hz | hz
    · exact (((pairwise_last).mp h.exact.rep.apart).2 z hz hne).2.symm
    · rw [mem_singleton.mp hz] at hne
      exact absurd hf hne
  · exact hs.marked y hm hf

theorem Shelf.bases (b : ℕ) : (∃ i, (cl.close env).fs.disk.lookup ⟨.main,b,.log⟩ = some i) ↔
    b ∈ ((lasting held last).map Prod.snd).map Extent.base := by
  rw [(h.synced env).lookup, map_map, mem_map]
  constructor
  · rintro ⟨i,hi⟩
    rcases (h.stocked.only _ i hi).2 with hb | ⟨y,hy,hf,hb⟩
    · exact ⟨last,(mem_lasting _ _ _).mpr (.inl rfl),hb.symm⟩
    · exact ⟨y,(mem_lasting _ _ _).mpr (.inr ⟨hy,hf⟩),hb.symm⟩
  rintro ⟨y,hy,rfl⟩
  have hm := lasting_subset hy
  have hl := (h.stocked.linked y hm).1
  rw [(h.exact.rep.keeps_all y hm).base] at hl
  exact ⟨_,hl⟩

theorem Shelf.reads : ReadsBack lz4 cl :=
  listing_readsBack lz4 (rep_listing h.exact.rep) h.exact.sound h.exact.rep.ordered

theorem Shelf.batches : storedBatches lz4 cl = (framesOf (held++[last])).map (Frame.batch lz4) :=
  listing_batches lz4 (rep_listing h.exact.rep)
    (fun y hy f hf => ((h.exact.sound y hy).clean f hf).readable)

theorem Shelf.reopens (env' : Env) : ∃ cl',
    newCommitLog lz4 env' (cl.close env).fs = ((cl.close env).fs,.ok cl') ∧
    storedBatches lz4 cl' = storedBatches lz4 cl ∧ cl'.newestOffset = cl.newestOffset ∧
    ReadsBack lz4 cl' := by
  have hsorted := lasting_sorted h.exact.rep.ordered
  have hun : Unstaged (cl.close env).fs.disk := fun p hp => by
    rw [(h.synced env).lookup]
    exact h.exact.unstaged p hp
  have hmap : (lasting held last).map Prod.snd =
      (held.filter (fun y => y.2.frames ≠ [])).map Prod.snd++[last.2] := by simp [lasting]
  have hpair : ((lasting held last).map Prod.snd).Pairwise (fun x y => x.base < y.base) :=
    pairwise_map.mpr (hsorted.imp (fun hle => hle.2))
  have hall : ∀ x ∈ (lasting held last).map Prod.snd,
      Shelved (cl.close env).fs.disk x ∧ Scannable lz4 x := by
    intro x hx
    obtain ⟨y,hy,rfl⟩ := mem_map.mp hx
    have hm := lasting_subset hy
    exact ⟨h.shelved env hy,fun f hf => ⟨((h.exact.sound y hm).clean f hf).readable,
      h.short f (mem_flatMap.mpr ⟨y,hm,hf⟩)⟩⟩
  have hbases := h.bases env
  rw [hmap] at hpair hall hbases
  obtain ⟨cl',ys,hopen,hfs,hys,hload⟩ := newCommitLog_loads lz4 env' hun hpair hbases hall
  rw [← hmap] at hys
  have hsound : ∀ y ∈ ys, Sound lz4 y := by
    intro y hy
    have hin : y.2 ∈ (lasting held last).map Prod.snd := hys ▸ mem_map_of_mem hy
    obtain ⟨z,hz,he⟩ := mem_map.mp hin
    have hs := h.exact.sound z (lasting_subset hz)
    exact ⟨by rw [← he]; exact hs.clean,hload.indexed y hy,hload.next y hy,
      by rw [← he]; exact hs.narrow⟩
  have hframes : framesOf ys = framesOf (held++[last]) := by
    rw [← lasting_frames, framesOf, framesOf, ← flatMap_map Prod.snd Extent.frames, hys,
      flatMap_map]
  refine ⟨cl',hopen,?_,?_,listing_readsBack lz4 hload.listing hsound ?_⟩
  · rw [listing_batches lz4 hload.listing (fun y hy f hf => ((hsound y hy).clean f hf).readable),
      hframes, h.batches]
  · have hlast : ys.getLast?.map Prod.snd = some last.2 := by
      rw [← List.getLast?_map, hys, hmap, List.getLast?_concat]
    obtain ⟨y,hy,hy2⟩ := Option.map_eq_some_iff.mp hlast
    rw [CommitLog.newestOffset, CommitLog.newestOffset, hload.newest y hy, hy2, h.exact.rep.next]
  · rw [← pairwise_map (f := Prod.snd) (R := fun x y : Extent => x.finish ≤ y.base), hys,
      pairwise_map]
    exact hsorted.imp (fun hle => hle.1)

end Closing

/-- In a run of appends that all stay within the limits, the log holds the
accepted batches and reads them back, also after it has been opened again. -/
theorem accepted_read_back (lz4 : Lz4) (hlz : Restores lz4) (cfg : Config)
    (xs : List (Env × RecordBatch)) (cl0 cl : CommitLog) (h0 : Fresh lz4 cl0)
    (hg : Along (appendStep lz4 cfg) (Accepts lz4 cfg) xs cl0)
    (hr : runAll (appendStep lz4 cfg) xs cl0 = some cl) :
    (storedBatches lz4 cl).map (fun b => (b.baseOffset,b.records)) =
      (acceptedBatches lz4 cfg xs cl0).map stored ∧ ReadsBack lz4 cl ∧
    ∀ env env', ∃ cl', newCommitLog lz4 env' (cl.close env).fs = ((cl.close env).fs,.ok cl') ∧
      storedBatches lz4 cl' = storedBatches lz4 cl ∧ cl'.newestOffset = cl.newestOffset ∧
      ReadsBack lz4 cl' := by
  obtain ⟨last0,hs0,hf0⟩ := fresh_shelf h0
  obtain ⟨held,last,hs,hframes⟩ := run_shelf hlz cfg xs cl0 cl [] last0 hs0 hg hr
  refine ⟨?_,hs.reads,fun env env' => hs.reopens env env'⟩
  rw [hs.batches, map_map]
  rw [hf0] at hframes
  exact hframes

def blockLz4 : Lz4 := ⟨Lz4Block.compressBlock,Lz4Block.uncompressBlock⟩

theorem blockLz4_restores : Restores blockLz4 := by
  constructor
  · intro src out n hc hne hn
    exact (Lz4Block.uncompressBlock_eq hc hne n).trans (if_pos hn)
  · intro src out n hc hne hn
    exact (Lz4Block.uncompressBlock_eq hc hne n).trans (if_neg (not_le.mpr hn))

def lz4Batch : RecordBatch :=
  ⟨0,1,compressionLZ4,0,0,[⟨0,0,none,some (List.replicate 200 7),none⟩]⟩

def packed : Bytes := [143,156,3,0,0,1,144,3,7,1,0,176,80,7,7,7,7,0]

theorem lz4Batch_packed : blockLz4.compressBlock (appendRecords lz4Batch.records) = some packed ∧
    firstBuffer packed = 72 ∧ (appendRecords lz4Batch.records).length = 208 := by
  decide +kernel

theorem lz4Batch_accepts (h : cl.nextOffset+1 < 2^32) :
    Accepts blockLz4 defaultConfig (still 0,lz4Batch) cl := by
  have hrecs : (assignOffsets cl.nextOffset lz4Batch).records = lz4Batch.records := rfl
  obtain ⟨hpacked,hbuffer,hlength⟩ := lz4Batch_packed
  refine ⟨⟨?_,?_,?_⟩,lt_trans h (by norm_num),
    fun s _ _ => lt_of_lt_of_le h (Nat.le_add_left _ _)⟩
  · rw [hrecs]
    decide
  · intro _ out hout _
    rw [hrecs, hpacked] at hout
    cases hout
    rw [hrecs]
    exact ⟨2,by rw [hbuffer, hlength]; decide,by rw [hbuffer]; decide⟩
  intro e he
  have hpay : payload blockLz4 (assignOffsets cl.nextOffset lz4Batch) = .ok (compressionLZ4,packed) := by
    rw [payload, hrecs, show (assignOffsets cl.nextOffset lz4Batch).compression = compressionLZ4 from rfl,
      if_pos (by decide : compressionLZ4 ≠ compressionNone), compress, if_pos rfl, hpacked]
    rfl
  have hz : (assignOffsets cl.nextOffset lz4Batch).recordCount ≠ 0 := Nat.one_ne_zero
  dsimp only at he
  rw [encodeBatch, if_neg hz, hpay] at he
  cases he
  rw [frame_length]
  decide +kernel

/-- Two batches of 208 bytes are stored in blocks of 18 and read back, in a buffer that has been
doubled twice. -/
theorem compressed_batches_read_back : ∃ cl0 cl, Fresh blockLz4 cl0 ∧
    runAll (appendStep blockLz4 defaultConfig) [(still 0,lz4Batch),(still 0,lz4Batch)] cl0 = some cl ∧
    blockLz4.compressBlock (appendRecords lz4Batch.records) = some packed ∧
    blockLz4.uncompressBlock packed 144 = none ∧
    (acceptedBatches blockLz4 defaultConfig [(still 0,lz4Batch),(still 0,lz4Batch)] cl0).length = 2 ∧
    (storedBatches blockLz4 cl).length = 2 ∧ ReadsBack blockLz4 cl := by
  have hfresh : Fresh blockLz4 (smallLog 0) := ⟨still 0,(smallLog 0).fs,rfl⟩
  have hsome : (runAll (appendStep blockLz4 defaultConfig) [(still 0,lz4Batch),(still 0,lz4Batch)]
      (smallLog 0)).isSome := by decide +kernel
  have hnext : ∀ t ∈ appendStep blockLz4 defaultConfig (still 0,lz4Batch) (smallLog 0),
      t.nextOffset = 1 := by decide +kernel
  obtain ⟨cl,hcl⟩ := Option.isSome_iff_exists.mp hsome
  have hlen : (acceptedBatches blockLz4 defaultConfig [(still 0,lz4Batch),(still 0,lz4Batch)]
      (smallLog 0)).length = 2 := by decide +kernel
  obtain ⟨h1,h2,_⟩ := accepted_read_back blockLz4 blockLz4_restores defaultConfig
    [(still 0,lz4Batch),(still 0,lz4Batch)] (smallLog 0) cl hfresh
    ⟨lz4Batch_accepts (by decide +kernel),fun t ht =>
      ⟨lz4Batch_accepts (by rw [hnext t ht]; norm_num),fun _ _ => trivial⟩⟩ hcl
  refine ⟨smallLog 0,cl,hfresh,hcl,lz4Batch_packed.1,by decide +kernel,hlen,?_,h2⟩
  have h3 := congrArg List.length h1
  rwa [length_map, length_map, hlen] at h3

/-! ## A record with too many headers -/

def crowdedRecord (n : ℕ) : Record := ⟨0,0,none,some [7],some (List.replicate n ⟨none,none⟩)⟩

def crowdedBatch (n : ℕ) : RecordBatch := ⟨0,1,compressionNone,0,0,[crowdedRecord n]⟩

theorem crowdedRecord_length (n : ℕ) : (appendRecord (crowdedRecord n)).length ≤ 2*n+100 := by
  have hh : (appendHeaders (List.replicate n ⟨none,none⟩)).length = 2*n := by
    induction n with
    | zero => rfl
    | succ n ih =>
      have hc : appendHeaders (List.replicate (n+1) ⟨none,none⟩) =
          putVarint (-1)++putVarint (-1)++appendHeaders (List.replicate n ⟨none,none⟩) := rfl
      have hone : (putVarint (-1)).length = 1 := by decide
      rw [hc, length_append, length_append]
      omega
  have hbody : (appendBody (crowdedRecord n)).length ≤ 2*n+51 := by
    have h0 := putVarint_length 0
    have h1 := putVarint_length (-1)
    have h2 := putVarint_length 1
    have h3 := putVarint_length (List.replicate n (⟨none,none⟩ : Header)).length
    have hb : appendBody (crowdedRecord n) = putVarint 0++putVarint 0++putVarint (-1)++
        (putVarint 1++[7])++putVarint (List.replicate n (⟨none,none⟩ : Header)).length++
        appendHeaders (List.replicate n ⟨none,none⟩) := rfl
    rw [hb]
    simp only [length_append, hh, length_singleton]
    omega
  have hlen := putVarint_length (bodySize (crowdedRecord n))
  rw [appendRecord, length_append]
  omega

theorem crowded_unreadable (n : ℕ) {base : ℕ} {c : RecordBatch} (hn : maxHeadersPerRecord < n)
    (hu : n < 2^30) :
    decodeBatch noLz4 (frame (assignOffsets base (crowdedBatch n)) compressionNone
      (appendRecords [crowdedRecord n])) ≠ .ok c := by
  intro hc
  have hlen := crowdedRecord_length n
  have hrecs : appendRecords [crowdedRecord n] = appendRecord (crowdedRecord n)++[] := by
    simp [appendRecords]
  have hcount : (headerList (crowdedRecord n)).length = n := length_replicate
  obtain ⟨recData,hd,hr⟩ := decodeBatch_body noLz4 _ _ _
    (by rw [hrecs, append_nil]; omega) (by decide : 1 < 2^16) hc
  cases hd
  have hfail := decodeRecord_limit (crowdedRecord n) [] (by rw [append_nil]; omega)
    (by omega)
  rw [if_neg (by omega)] at hfail
  have hone : (assignOffsets base (crowdedBatch n)).recordCount = 0+1 := rfl
  rw [hone, decodeRecords, hrecs, hfail] at hr
  cases hr

theorem crowded_encoded (n base : ℕ) : encodeBatch noLz4 (assignOffsets base (crowdedBatch n)) =
    .ok (frame (assignOffsets base (crowdedBatch n)) compressionNone
      (appendRecords [crowdedRecord n])) := rfl

/-- A record with one header more than the decoder allows is accepted, and no
read returns it. -/
theorem crowded_record_unreadable : Restores noLz4 ∧ Fresh noLz4 (smallLog 0) ∧ ∃ cl,
    (smallLog 0).append noLz4 defaultConfig (still 0) (crowdedBatch 10001) = (cl,.ok 0) ∧
    ∀ m b post, cl.read noLz4 0 m ≠ .ok (b::post) := by
  have hfresh := smallLog_fresh 0
  refine ⟨⟨fun _ _ _ h => (nomatch h),fun _ _ _ h => (nomatch h)⟩,hfresh,?_⟩
  obtain ⟨last,hs,hempty⟩ := fresh_shelf hfresh
  have hnext : (smallLog 0).nextOffset = 0 := by decide +kernel
  have hlen := crowdedRecord_length 10001
  have hsize : 23+(appendRecords [crowdedRecord 10001]).length < 2^32 := by
    rw [appendRecords, flatMap_singleton]
    omega
  have hlast : last.1.size = 0 := by
    have hf : last.2.frames = [] := by simpa [framesOf] using hempty
    rw [hs.exact.rep.live.written.size, hf]
    rfl
  rcases ha : (smallLog 0).append noLz4 defaultConfig (still 0) (crowdedBatch 10001) with ⟨cl,r⟩
  have henc := crowded_encoded 10001 (smallLog 0).nextOffset
  have happ : Appends noLz4 (smallLog 0) (crowdedBatch 10001) := by
    intro e he
    rw [henc] at he
    cases he
    exact ⟨batchSize_frame _ _ _ hsize,by rw [hnext]; decide⟩
  have hok := append_succeeds noLz4 defaultConfig (still 0) (smallLog 0) (crowdedBatch 10001) []
    last _ hs.exact.rep (by decide : 1 ≤ maxRecordsPerBatch) henc
    (by rw [hlast, frame_length, maxFileSize]; omega)
  rw [ha, hnext] at hok
  dsimp only at hok
  refine ⟨cl,by rw [hok],?_⟩
  rcases append_outcome noLz4 defaultConfig (still 0) hs.exact.rep happ ha with
    ⟨_,e,he⟩ | ⟨d,held1,last1,hr,_,⟨e,he,_⟩ | ⟨f,_,s,hle,hp⟩⟩
  · rw [he] at hok
    cases hok
  · rw [he] at hok
    cases hok
  intro m b post hread
  obtain ⟨pre,y,rest,hpick,_,hy⟩ := read_picked noLz4 hp.rep 0
  rw [hy m] at hread
  have hmem : y ∈ held1++[(s,last1.2.push f hle)] := by rw [hpick.parts]; simp
  obtain ⟨mid,hsub,hreadable,hbs⟩ := readFrom_front noLz4 cl.fs y.1 y.2 (hp.rep.keeps_all y hmem)
    0 m _ hread
  have hframes : framesOf (held1++[(s,last1.2.push f hle)]) = [f] := by
    have hroll := rolled_frames hr
    rw [hempty, framesOf, flatMap_append, flatMap_singleton] at hroll
    rw [framesOf, flatMap_append, flatMap_singleton, Extent.push_frames,
      ← append_assoc, hroll, nil_append]
  have hb := hbs.subset (mem_cons_self)
  obtain ⟨g,hg,rfl⟩ := mem_map.mp hb
  have hgf : g ∈ framesOf (held1++[(s,last1.2.push f hle)]) :=
    mem_flatMap.mpr ⟨y,hmem,hsub.subset hg⟩
  rw [hframes, mem_singleton] at hgf
  have hbytes := hp.encodes.bytes
  rw [henc, Except.ok.injEq] at hbytes
  have hdec := hreadable g hg
  rw [Frame.Readable, hgf, ← hbytes] at hdec
  exact crowded_unreadable 10001 (by decide) (by norm_num) hdec

end GoCommon.ForgeAcceptance
