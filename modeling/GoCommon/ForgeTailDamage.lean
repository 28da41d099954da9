import GoCommon.ForgeRecovery

/-!
# Damaged tails

A segment is written, closed, damaged from some byte of its log on and opened
again. What the index says about the log is not damaged with it. Recovery
finds the longest prefix of decodable batches exactly when the scan from the
last index entry ends where the scan from the start of the file ends.
-/

set_option autoImplicit false

namespace GoCommon.ForgeTailDamage
open List ByteWords ByteStream FileDisk ForgeRecord ForgeRecordCodec ForgeIndex ForgeSegment
open ForgeSegmentFiles ForgeRecovery

def appendAll (lz4 : Lz4) (cfg : Config) : List (Env × RecordBatch) → Files → Segment →
    Except Stop (Files × Segment)
  | [], fs, s => .ok (fs,s)
  | (env,b)::rest, fs, s => match encodeBatch lz4 b with
    | .error e => .error e
    | .ok encoded => match s.append cfg env encoded b.baseOffset b.recordCount fs with
      | .error e => .error e
      | .ok (fs,s) => appendAll lz4 cfg rest fs s

def buildSegment (lz4 : Lz4) (cfg : Config) (env : Env) (baseOffset : ℕ)
    (bs : List (Env × RecordBatch)) : Except Stop (Files × Segment) :=
  match openSegment lz4 env .main baseOffset 0 (Fs.boot Disk.empty) with
  | (_,.error e) => .error e
  | (fs,.ok s) => appendAll lz4 cfg bs fs s

def damaged (fs : Files) (s : Segment) (k : ℕ) (junk : Bytes) : Bytes :=
  (fs.disk.data s.logFile.ino).take k++junk

def reopenDamaged (lz4 : Lz4) (closing opening : Env) (fs : Files) (s : Segment) (k : ℕ)
    (junk : Bytes) (t : ℤ) : Files × Except Stop Segment :=
  openSegment lz4 opening .main s.baseOffset 0
    (Fs.boot ((s.close closing fs).disk.put s.logFile.ino ⟨damaged fs s k junk,t⟩))

def lastEnd (baseOffset : ℕ) (ps : List (Bytes × RecordBatch)) : ℕ :=
  (ps.getLast?.map (fun p => endOffset p.2)).getD baseOffset

def Recovered (lz4 : Lz4) (baseOffset : ℕ) (log : Bytes) (r : Except Stop Segment) : Prop :=
  ∃ s ps rest, r = .ok s ∧ Batches lz4 ps ∧ log = flat ps++rest ∧
    (∀ qs rest', Batches lz4 qs → log = flat qs++rest' → (flat qs).length ≤ (flat ps).length) ∧
    s.size = (flat ps).length ∧ s.nextOffset = lastEnd baseOffset ps

/-- The log is empty, or the batches from the position of the last index entry
on end with those from the start of the log. -/
def TailIntact (lz4 : Lz4) (baseOffset p : ℕ) (log : Bytes) : Prop :=
  log = [] ∨
  (log ≠ [] ∧ log.length ≤ p ∧ ∃ ps, Batches lz4 ps ∧ log = flat ps ∧
    lastEnd baseOffset ps = baseOffset) ∨
  (p < log.length ∧ ∃ ps qs rest, Batches lz4 ps ∧ Batches lz4 qs ∧
    (∀ q ∈ qs, q.1.length ≤ recoverChunkSize) ∧ log = flat ps++rest ∧
    log.drop p = flat qs++rest ∧ nextBatch lz4 rest = .ok none ∧
    rest.length ≤ recoverChunkSize ∧ advance baseOffset (qs.map Prod.snd) = lastEnd baseOffset ps)

theorem recover_iff (lz4 : Lz4) (env : Env) (fs : Files) (s : Segment)
    (hd : (fs.disk.data s.logFile.ino).length = s.size) (hn : s.nextOffset = s.baseOffset) :
    Recovered lz4 s.baseOffset (fs.disk.data s.logFile.ino) (s.recover lz4 env fs).2 ↔
      TailIntact lz4 s.baseOffset (markedPosition s.index) (fs.disk.data s.logFile.ino) := by
  generalize hlog : fs.disk.data s.logFile.ino = log at hd ⊢
  by_cases hs : s.size ≤ markedPosition s.index
  · rw [recover_skips lz4 env fs hs]
    constructor
    · rintro ⟨r,ps,rest,hr,hp,hl,_,hz,hnext⟩
      cases hr
      have hlen := congrArg List.length hl
      rw [length_append] at hlen
      have hrest : rest = [] := length_eq_zero_iff.mp (by omega)
      rw [hrest, append_nil] at hl
      by_cases h0 : log = []
      · exact .inl h0
      · exact .inr (.inl ⟨h0,by omega,ps,hp,hl,by rw [← hnext, hn]⟩)
    rintro (h0 | ⟨_,_,ps,hp,hl,he⟩ | ⟨hlt,_⟩)
    · refine ⟨s,[],[],rfl,by simp [Batches],by simp [h0],?_,by simp [← hd, h0],hn⟩
      intro qs rest' _ hq
      have := congrArg List.length hq
      simp only [h0, length_nil, length_append] at this
      omega
    · refine ⟨s,ps,[],rfl,hp,by simp [hl],?_,by rw [← hd, hl],by rw [he, hn]⟩
      intro qs rest' _ hq
      rw [← hl, hq, length_append]
      omega
    · omega
  rw [recover_scans lz4 env fs s (by rw [hlog, hd]) (by omega), hlog, hn]
  have hp : markedPosition s.index ≤ log.length := by omega
  constructor
  · rintro ⟨r,ps,rest,hr,hb,hl,_,hz,hnext⟩
    rcases hw : windowed lz4 log (markedPosition s.index) s.baseOffset with e | ⟨v,m⟩
    · simp [hw] at hr
    simp only [hw, Except.ok.injEq] at hr
    subst hr
    obtain ⟨qs,hq,hqw,hqd,hstop,hlen,hm⟩ := windowed_split lz4 hw
    dsimp only at hz hnext
    have hrest : rest = log.drop v := by rw [hl, hz, drop_left]
    exact .inr (.inr ⟨by omega,ps,qs,log.drop v,hb,hq,hqw,by rw [← hrest, hl],hqd,hstop,hlen,
      by rw [← hm, hnext]⟩)
  rintro (h0 | ⟨_,hle,_⟩ | ⟨hlt,ps,qs,rest,hb,hq,hqw,hl,hqd,hstop,hlen,he⟩)
  · rw [h0] at hd
    simp only [length_nil] at hd
    omega
  · omega
  rw [windowed_batches lz4 log _ _ hp qs rest hq hqw hqd hstop hlen]
  have hsize := congrArg List.length hl
  rw [length_append] at hsize
  refine ⟨_,ps,rest,rfl,hb,hl,?_,by dsimp only; omega,he⟩
  intro qs' rest' hq' hl'
  have hscan := scan_batches lz4 rest hb hstop
  rw [← hl] at hscan
  exact scanAll_longest (nextBatch_framing lz4) hscan hq' hl'

theorem open_iff (lz4 : Lz4) (env : Env) (baseOffset ptr i j : ℕ) (fs : Files) (idx : Index Path)
    (hi : fs.disk.lookup ⟨.main,baseOffset,.log⟩ = some i)
    (hj : fs.disk.lookup ⟨.main,baseOffset,.idx⟩ = some j)
    (hl : loadEntries (fs.disk.data j) = idx.entries) :
    Recovered lz4 baseOffset (fs.disk.data i) (openSegment lz4 env .main baseOffset ptr fs).2 ↔
      TailIntact lz4 baseOffset (markedPosition idx) (fs.disk.data i) := by
  have hmark : ∀ f d, markedPosition ⟨f,idx.entries,baseOffset,d⟩ = markedPosition idx := by
    intro f d
    simp only [markedPosition, Index.lastEntry]
    rcases idx.entries.getLast? with _ | e <;> rfl
  rw [openSegment_existing lz4 env ptr hi hj, hl, ← hmark]
  exact recover_iff lz4 env fs _ rfl rfl

theorem appendAll_written (lz4 : Lz4) (cfg : Config) (bs : List (Env × RecordBatch))
    (fs fs' : Files) (s s' : Segment) (log : Bytes) (h : Written .main fs.disk s log)
    (ha : appendAll lz4 cfg bs fs s = .ok (fs',s')) : ∃ log', Written .main fs'.disk s' log' ∧
      fs'.disk.names = fs.disk.names ∧ s'.logFile.ino = s.logFile.ino ∧
      s'.index.file.ino = s.index.file.ino ∧ s'.baseOffset = s.baseOffset := by
  induction bs generalizing fs s log with
  | nil =>
    cases ha
    exact ⟨log,h,rfl,rfl,rfl,rfl⟩
  | cons x bs ih =>
    obtain ⟨env,b⟩ := x
    unfold appendAll at ha
    rcases he : encodeBatch lz4 b with e | encoded
    · simp [he] at ha
    rcases hx : s.append cfg env encoded b.baseOffset b.recordCount fs with e | ⟨fs1,s1⟩
    · simp [he, hx] at ha
    simp only [he, hx] at ha
    obtain ⟨hw,ht,hs⟩ := append_written h hx
    obtain ⟨log',h1,h2,h3,h4,h5⟩ := ih fs1 s1 _ hw ha
    exact ⟨log',h1,h2.trans ht.names,h3.trans (by rw [hs.log]),h4.trans hs.idx,h5.trans hs.base⟩

theorem build_written (lz4 : Lz4) (cfg : Config) (env : Env) (baseOffset : ℕ)
    (bs : List (Env × RecordBatch)) (fs : Files) (s : Segment)
    (h : buildSegment lz4 cfg env baseOffset bs = .ok (fs,s)) :
    ∃ log, Written .main fs.disk s log ∧ s.baseOffset = baseOffset ∧
      fs.disk.lookup ⟨.main,baseOffset,.log⟩ = some s.logFile.ino ∧
      fs.disk.lookup ⟨.main,baseOffset,.idx⟩ = some s.index.file.ino := by
  have hnone : ∀ p, (Fs.boot (Disk.empty : Disk Path)).disk.lookup p = none := fun p => rfl
  obtain ⟨fs0,s0,ho,hs⟩ := openSegment_started lz4 env .main baseOffset 0 (Fs.boot Disk.empty)
    (fun p i hp => by simp [hnone] at hp) (fun e i hp => by simp [hnone] at hp)
    (fun i hp => by simp [hnone] at hp)
  simp only [buildSegment, ho] at h
  obtain ⟨log,hw,hn,hl,hi,hb⟩ := appendAll_written lz4 cfg bs fs0 fs s0 s [] hs.written h
  obtain ⟨e,h1,h2⟩ := hs.log
  refine ⟨log,hw,hb.trans hs.base,?_,?_⟩
  · rw [Disk.lookup, hn, hl]
    exact (h2.others _ (by simp)).trans h1.named
  · rw [Disk.lookup, hn, hi]
    exact h2.named

/-- Opening a segment whose log was damaged finds the longest decodable prefix
exactly when the batches after the last index entry are still in step with it. -/
theorem damaged_tail_recovered_iff (lz4 : Lz4) (cfg : Config) (env closing opening : Env)
    (baseOffset : ℕ) (bs : List (Env × RecordBatch)) (fs : Files) (s : Segment)
    (h : buildSegment lz4 cfg env baseOffset bs = .ok (fs,s)) (k : ℕ) (junk : Bytes) (t : ℤ) :
    Recovered lz4 baseOffset (damaged fs s k junk)
      (reopenDamaged lz4 closing opening fs s k junk t).2 ↔
    TailIntact lz4 baseOffset (markedPosition s.index) (damaged fs s k junk) := by
  obtain ⟨log,hw,hb,hl,hi⟩ := build_written lz4 cfg env baseOffset bs fs s h
  obtain ⟨hc,_,ht⟩ := close_written closing .main fs s log hw
  have hlog : ((s.close closing fs).disk.put s.logFile.ino ⟨damaged fs s k junk,t⟩).data
      s.logFile.ino = damaged fs s k junk := by simp
  have hload : loadEntries (((s.close closing fs).disk.put s.logFile.ino
      ⟨damaged fs s k junk,t⟩).data s.index.file.ino) = s.index.entries := by
    rw [Disk.data_put_other _ _ (Ne.symm hw.apart), hc, loadEntries_put _ hw.ranged]
  have hiff := open_iff lz4 opening baseOffset 0 s.logFile.ino s.index.file.ino
    (Fs.boot ((s.close closing fs).disk.put s.logFile.ino ⟨damaged fs s k junk,t⟩)) s.index
    ((ht.lookup _).trans hl) ((ht.lookup _).trans hi) hload
  rw [Fs.boot, hlog] at hiff
  rw [reopenDamaged, hb]
  exact hiff

/-- The second of two batches is cut. -/
theorem cut_inside_second_batch : ∃ fs s,
    buildSegment noLz4 defaultConfig (still 0) 0
      [(still 0,smallBatch 0 1),(still 0,smallBatch 1 2)] = .ok (fs,s) ∧
    Recovered noLz4 0 (damaged fs s 50 [])
      (reopenDamaged noLz4 (still 0) (still 0) fs s 50 [] 0).2 := by
  refine ⟨_,_,rfl,(damaged_tail_recovered_iff noLz4 defaultConfig (still 0) (still 0) (still 0) 0
    [(still 0,smallBatch 0 1),(still 0,smallBatch 1 2)] _ _ rfl 50 [] 0).mpr (.inr (.inr ⟨?_,?_⟩))⟩
  · decide +kernel
  have hp : Batches noLz4 [(smallFrame 0 1,smallBatch 0 1)] := by
    intro p hp
    rw [mem_singleton.mp hp, Piece]
    decide +kernel
  refine ⟨[(smallFrame 0 1,smallBatch 0 1)],[(smallFrame 0 1,smallBatch 0 1)],
    (smallFrame 1 2).take 8,hp,hp,?_,?_,?_,?_,?_,?_⟩
  all_goals decide +kernel

/-! A log cut at its last index entry keeps its batches but starts again at the
base offset. -/

theorem recovered_scan (lz4 : Lz4) (baseOffset : ℕ) (log : Bytes) (r : Except Stop Segment)
    (bs : List RecordBatch) (c : ℕ) (h : Recovered lz4 baseOffset log r)
    (hs : scanAll (nextBatch lz4) log = .ok (bs,c)) :
    r.toOption.map (fun s => (s.size,s.nextOffset)) =
      some (c,(bs.getLast?.map endOffset).getD baseOffset) := by
  obtain ⟨s,ps,rest,rfl,hp,hl,hmax,hz,hn⟩ := h
  obtain ⟨qs,hq,_,hc,hb,hstop⟩ := scanAll_split (nextBatch_framing lz4) log bs c hs
  have h1 := hmax qs _ hq hb
  have h2 := scanAll_longest (nextBatch_framing lz4) hs hp hl
  have hrest : rest = log.drop c := by
    rw [hl, show c = (flat ps).length by omega, drop_left]
  have hscan := scan_batches lz4 rest hp (by rw [hrest, hstop])
  rw [← hl, hs] at hscan
  simp only [Except.ok.injEq, Prod.mk.injEq] at hscan
  simp only [Except.toOption, Option.map_some, hz, hn, lastEnd, hscan.1, hscan.2]
  simp [Function.comp_def]

def markAll : Config := { defaultConfig with indexInterval := 1 }

/-- A log that is cut at the position of the last index entry is not recovered. -/
theorem cut_at_last_mark : ∃ fs s,
    buildSegment noLz4 markAll (still 0) 0
      [(still 0,smallBatch 0 1),(still 0,smallBatch 1 2)] = .ok (fs,s) ∧
    ¬ Recovered noLz4 0 (damaged fs s 42 [])
      (reopenDamaged noLz4 (still 0) (still 0) fs s 42 [] 0).2 := by
  refine ⟨_,_,rfl,fun h => ?_⟩
  have hs := recovered_scan noLz4 0 _ _ [smallBatch 0 1] 42 h (by decide +kernel)
  revert hs
  decide +kernel

end GoCommon.ForgeTailDamage
