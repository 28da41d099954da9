import GoCommon.ForgeLogRuns

/-!
# Reading a log

A log whose frames all decode and whose segments span fewer than `2^32`
offsets is read exactly: a read picks the last segment that starts at or
before the offset and returns batches of that segment that end after the
offset, in order and without a gap, as far as the byte window reaches.
-/

set_option autoImplicit false

namespace GoCommon.ForgeLogView
open List ByteWords ByteStream FileDisk BinarySearch ForgeRecord ForgeRecordCodec ForgeSegment
open ForgeFrames ForgeExtents ForgeCommitLog ForgeLogState ForgeLogRemoval ForgeRewrite
open ForgeLogSwap ForgeLogRewrites ForgeLogRuns

structure Clean (lz4 : Lz4) (f : Frame) : Prop where
  readable : f.Readable lz4
  numbered : (f.batch lz4).records.map (absOffset f.base) = List.range' f.base f.count

structure Sound (lz4 : Lz4) (y : Held) : Prop where
  clean : ∀ f ∈ y.2.frames, Clean lz4 f
  indexed : y.1.index.entries.Sublist (marks y.2.base 0 y.2.frames)
  next : y.1.nextOffset = y.2.finish
  narrow : y.2.finish < y.2.base+2^32

structure Exact (lz4 : Lz4) (cl : CommitLog) (held : List Held) (last : Held) : Prop where
  rep : Rep cl held last
  unstaged : Unstaged cl.fs.disk
  sound : ∀ y ∈ held++[last], Sound lz4 y

/-! ## One segment -/

/-- The bytes a read may look at from a position on. The sum of position and
limit is computed in 64 bits when the segment is mapped. -/
def windowSize (s : Segment) (pos : ℕ) (m : ℤ) : ℕ :=
  if s.mmapData ≠ none ∧ 2^63 ≤ pos+m then 0 else m.toNat

variable (lz4 : Lz4) (fs : Files) {cl : CommitLog} (o : ℕ)

variable {last y : Held} {a : Extent} {held : List Held} {cfg : Config} {env : Env}
  {batch : RecordBatch} {d : Disk Path}

theorem window_eq {s : Segment} {pre post : List Frame} {m : ℤ}
    (h : Keeps fs.disk s a) (ha : a.frames = pre++post) (h0 : 0 ≤ m) (h1 : m < 2^63) :
    (s.window fs (raw pre).length m = .ok none ∧
      (raw post).take (windowSize s (raw pre).length m) = []) ∨
    s.window fs (raw pre).length m =
      .ok (some ((raw post).take (windowSize s (raw pre).length m))) := by
  have htake := h.take
  have hsize : s.size = (raw pre).length+(raw post).length := by
    rw [h.size, ha, raw_append, length_append]
  have hsmall := h.small
  have hmax : maxFileSize = 2^63-1 := rfl
  have hdrop : ∀ k : ℕ, (raw pre).length+k ≤ s.size →
      ((fs.disk.data s.logFile.ino).take ((raw pre).length+k)).drop (raw pre).length =
        (raw post).take k := by
    intro k hk
    have : (fs.disk.data s.logFile.ino).take ((raw pre).length+k) =
        (raw a.frames).take ((raw pre).length+k) := by
      rw [← htake, take_take, min_eq_left hk]
    rw [this, ha, raw_append, drop_take, drop_left]
    congr 1
    omega
  generalize (raw pre).length = pos at *
  unfold Segment.window
  rcases hmap : s.mmapData with _ | n
  · have hw : windowSize s pos m = m.toNat := by simp [windowSize, hmap]
    dsimp only
    rw [hw]
    split
    · have hz : (raw post).length = 0 := by omega
      exact .inl ⟨rfl,by simp [length_eq_zero_iff.mp hz]⟩
    rename_i hr
    refine .inr ?_
    have hk : (if m < (s.size:ℤ)-pos then m else (s.size:ℤ)-pos).toNat =
        min m.toNat (raw post).length := by
      split <;> omega
    have hge : ¬ (if m < (s.size:ℤ)-pos then m else (s.size:ℤ)-pos) < 0 := by
      split <;> omega
    have hd := hdrop (min m.toNat (raw post).length) (by omega)
    rw [drop_take, show pos+min m.toNat (raw post).length-pos =
      min m.toNat (raw post).length by omega] at hd
    rw [if_neg hge, hk, hd]
    have htk : (raw post).take (min m.toNat (raw post).length) = (raw post).take m.toNat := by
      rw [← take_take, take_length]
    rw [htk, if_neg]
    rintro ⟨hnil,hpos⟩
    have hl := congrArg List.length hnil
    rw [length_take, length_nil] at hl
    split at hpos <;> omega
  have hn := h.mapped n hmap
  dsimp only
  by_cases hover : 2^63 ≤ (pos:ℤ)+m
  · have hneg := int64_wrapped hover (by omega)
    rw [if_pos (by omega)]
    have hw : windowSize s pos m = 0 := if_pos ⟨by simp [hmap],hover⟩
    exact .inl ⟨rfl,by rw [hw, take_zero]⟩
  have hw : windowSize s pos m = m.toNat := if_neg (fun hc => hover hc.2)
  rw [int64_of_range (by omega) (by omega), hw, hn]
  split
  · refine .inl ⟨rfl,?_⟩
    rw [take_eq_nil_iff]
    by_cases hz : m.toNat = 0
    · exact .inl hz
    · refine .inr (length_eq_zero_iff.mp ?_)
      omega
  rename_i hstop
  refine .inr ?_
  have hk : (min ((pos:ℤ)+m) s.size).toNat = pos+min m.toNat (raw post).length := by omega
  rw [hk, hdrop _ (by omega), ← take_take, take_length]

def pending (o : ℕ) (fs : List Frame) : List Frame := fs.filter (fun f => o < f.stop)

theorem pending_append {fs gs : List Frame} :
    pending o (fs++gs) = pending o fs++pending o gs := filter_append _ _

theorem pending_nil (fs : List Frame) (h : ∀ f ∈ fs, f.stop ≤ o) : pending o fs = [] := by
  rw [pending, filter_eq_nil_iff]
  intro f hf
  have := h f hf
  simp only [decide_eq_true_eq]
  omega

theorem pending_all (fs : List Frame) (h : ∀ f ∈ fs, o < f.stop) : pending o fs = fs := by
  rw [pending, filter_eq_self]
  intro f hf
  simpa using h f hf

theorem pending_batch {fs : List Frame} (h : ∀ f ∈ fs, f.Readable lz4) :
    (fs.map (Frame.batch lz4)).filter (fun b => o < endOffset b) =
      (pending o fs).map (Frame.batch lz4) := by
  rw [filter_map]
  congr 1
  refine filter_congr (fun f hf => ?_)
  simp [Frame.batch_end (h f hf)]

/-- A read returns the batches of its window that end after the offset; the
frames before the window all end before. -/
theorem readFrom_window {s : Segment} (o : ℕ) {m : ℤ}
    (hk : Keeps fs.disk s a) (hread : ∀ f ∈ a.frames, f.Readable lz4)
    (hi : s.index.entries.Sublist (marks a.base 0 a.frames)) (hn : a.finish < a.base+2^32)
    (h0 : 0 ≤ m) (h1 : m < 2^63) :
    ∃ skip rest, a.frames = skip++rest ∧ (∀ f ∈ skip, f.stop ≤ o) ∧
      (s.index.lookup o).1 = (raw skip).length ∧
      s.readFrom lz4 fs o m = .ok ((pending o
        (fits (windowSize s (raw skip).length m) rest)).map (Frame.batch lz4)) := by
  rw [← hk.idxBase] at hi
  obtain ⟨skip,rest,hsplit,hpos,hskip⟩ := lookup_before s.index a.frames hi o a.sorted
    (fun f hf => by rw [hk.idxBase]; exact a.above f hf)
    (fun f hf => by
      have := a.stop_le_finish f hf
      rw [hk.idxBase]
      omega)
  refine ⟨skip,rest,hsplit,hskip,hpos,?_⟩
  have hrest : ∀ f ∈ rest, f.Readable lz4 := fun f hf => hread f (by simp [hsplit, hf])
  have hscan := scan_take lz4 rest (windowSize s (raw skip).length m) hrest
  have hfit : ∀ f ∈ fits (windowSize s (raw skip).length m) rest, f.Readable lz4 :=
    fun f hf => hrest f ((fits_front _ _).subset hf)
  unfold Segment.readFrom
  rw [hpos]
  rcases window_eq fs hk hsplit h0 h1 with ⟨hw,hnil⟩ | hw
  · rw [hnil, scanAll_stop (nextBatch_framing lz4) [] rfl] at hscan
    simp only [Except.ok.injEq, Prod.mk.injEq, nil_eq, map_eq_nil_iff] at hscan
    simp [hw, hscan.1, pending]
  · simp only [hw, hscan]
    rw [pending_batch lz4 o hfit]

theorem readFrom_sound (o : ℕ) (m : ℤ)
    (hk : Keeps fs.disk y.1 y.2) (hs : Sound lz4 y) (h0 : 0 ≤ m) (h1 : m < 2^63) :
    ∃ skip rest, y.2.frames = skip++rest ∧ (∀ f ∈ skip, f.stop ≤ o) ∧
      (y.1.index.lookup o).1 = (raw skip).length ∧
      y.1.readFrom lz4 fs o m = .ok ((pending o
        (fits (windowSize y.1 (raw skip).length m) rest)).map (Frame.batch lz4)) :=
  readFrom_window lz4 fs o hk (fun f hf => (hs.clean f hf).readable) hs.indexed hs.narrow
    h0 h1

def Unbounded (m : ℤ) (s : Segment) : Prop := s.size ≤ m ∧ s.size+m < 2^63

theorem readFrom_unbounded (y : Held) (o : ℕ) (m : ℤ)
    (hk : Keeps fs.disk y.1 y.2) (hs : Sound lz4 y) (hm : Unbounded m y.1) :
    y.1.readFrom lz4 fs o m = .ok ((pending o y.2.frames).map (Frame.batch lz4)) := by
  obtain ⟨hle,hsum⟩ := hm
  obtain ⟨skip,rest,hsplit,hskip,_,hr⟩ := readFrom_sound lz4 fs o m hk hs (by omega) (by omega)
  have hsize : y.1.size = (raw skip).length+(raw rest).length := by
    rw [hk.size, hsplit, raw_append, length_append]
  have hw : windowSize y.1 (raw skip).length m = m.toNat := by
    rw [windowSize, if_neg]
    omega
  rw [hr, fits_all _ _ (by omega), hsplit, pending_append, pending_nil o skip hskip,
    nil_append]

/-! ## The segment of an offset -/

/-- The list split at the last element that starts at or before an offset, or
at the first element. -/
theorem findSegment_split {ss : List Segment} (o : ℕ) (hne : ss ≠ [])
    (hs : ss.Pairwise (fun s t => s.baseOffset ≤ t.baseOffset)) :
    ∃ pre s post, ss = pre++s::post ∧ findSegment ss o = some s ∧
      (∀ t ∈ post, o < t.baseOffset) ∧ (s.baseOffset ≤ o ∨ pre = []) := by
  obtain ⟨lo,hi,rfl,hlo,hhi⟩ := sorted_split Segment.baseOffset o hs
  have hsearch : search (lo++hi).length (fun j =>
      ((lo++hi)[j]?).all (fun s => decide (o < s.baseOffset))) = lo.length := by
    refine search_eq (by simp) ?_ ?_
    · intro k hk
      have := hlo _ (getElem_mem hk)
      rw [List.getElem?_append_left hk, List.getElem?_eq_getElem hk]
      simp only [Option.all_some, decide_eq_false_iff_not]
      omega
    intro k h1 h2
    rw [length_append] at h2
    rw [List.getElem?_append_right h1, List.getElem?_eq_getElem (by omega)]
    simpa using hhi _ (getElem_mem _)
  rcases eq_nil_or_concat lo with rfl | ⟨pre,s,rfl⟩
  · cases hi with
    | nil => exact absurd rfl hne
    | cons s post =>
      refine ⟨[],s,post,rfl,?_,fun t ht => hhi t (by simp [ht]),.inr rfl⟩
      unfold findSegment
      rw [hsearch]
      rfl
  refine ⟨pre,s,hi,by simp,?_,hhi,.inl (hlo s (by simp))⟩
  unfold findSegment
  rw [hsearch]
  simp

structure Picked (o : ℕ) (ys pre : List Held) (y : Held) (post : List Held) : Prop where
  parts : ys = pre++y::post
  after : ∀ z ∈ post, o < z.2.base
  upTo : y.2.base ≤ o ∨ pre = []

structure Listing (cl : CommitLog) (ys : List Held) : Prop where
  listed : cl.segments = ys.map Prod.fst
  opened : cl.closed = false
  keeps : ∀ y ∈ ys, Keeps cl.fs.disk y.1 y.2
  bases : ys.Pairwise (fun y z => y.2.base ≤ z.2.base)

theorem Listing.picked {ys : List Held} (h : Listing cl ys)
    (hys : ys ≠ []) (o : ℕ) : ∃ pre y post, Picked o ys pre y post ∧
      findSegment cl.segments o = some y.1 ∧
      ∀ m, cl.read lz4 o m = y.1.readFrom lz4 cl.fs o m := by
  have hne : cl.segments ≠ [] := by simpa [h.listed] using hys
  have hbases : cl.segments.Pairwise (fun s t => s.baseOffset ≤ t.baseOffset) := by
    rw [h.listed, pairwise_map]
    refine h.bases.imp_of_mem (fun {y z} hy hz hle => ?_)
    rw [(h.keeps y hy).base, (h.keeps z hz).base]
    exact hle
  obtain ⟨pre,s,post,hsplit,hfind,hafter,hupto⟩ := findSegment_split o hne hbases
  have hl := h.listed
  rw [hsplit, eq_comm] at hl
  obtain ⟨pre',rest,rfl,rfl,hrest⟩ := map_eq_append_iff.mp hl
  obtain ⟨y,post',rfl,rfl,rfl⟩ := map_eq_cons_iff.mp hrest
  have hk : ∀ z ∈ pre'++y::post', z.1.baseOffset = z.2.base := fun z hz => (h.keeps z hz).base
  refine ⟨pre',y,post',⟨rfl,?_,?_⟩,hfind,?_⟩
  · intro z hz
    rw [← hk z (by simp [hz])]
    exact hafter _ (mem_map_of_mem hz)
  · rw [← hk y (by simp)]
    simpa using hupto
  · intro m
    simp only [CommitLog.read, h.opened, Bool.false_eq_true, if_false, hne, hfind]

theorem rep_listing (h : Rep cl held last) : Listing cl (held++[last]) :=
  ⟨h.listed,h.opened,h.keeps_all,h.ordered.imp (fun {y _} hle => le_trans y.2.base_le_finish hle)⟩

theorem read_picked
    (h : Rep cl held last) (o : ℕ) : ∃ pre y post, Picked o (held++[last]) pre y post ∧
      findSegment cl.segments o = some y.1 ∧
      ∀ m, cl.read lz4 o m = y.1.readFrom lz4 cl.fs o m :=
  (rep_listing h).picked lz4 (by simp) o

/-! ## Writing -/

theorem numbered_mapIdx {base : ℕ} {rs : List Record} (h : base+rs.length < 2^64) :
    (rs.mapIdx (fun i r => { r with offsetDelta := Int64.ofNat i })).map (absOffset base) =
      List.range' base rs.length := by
  refine ext_getElem (by simp) (fun i h1 h2 => ?_)
  simp only [length_map, length_mapIdx] at h1
  have hi : (Int64.ofNat i).toUInt64.toNat = i := by
    exact Nat.mod_eq_of_lt (by omega)
  simp only [getElem_map, getElem_mapIdx, absOffset, hi, getElem_range']
  omega

theorem absOffset_asRead {base : ℕ} (r : Record) : absOffset base (asRead r) = absOffset base r :=
  rfl

theorem encodes_clean {b : RecordBatch} {f : Frame} (he : Encodes lz4 b f) (hr : RoundTrips lz4 b)
    (hn : b.records.map (absOffset b.baseOffset) = List.range' b.baseOffset b.recordCount) :
    Clean lz4 f ∧ (f.batch lz4).records = b.records.map asRead := by
  obtain ⟨e,c,h1,_,h3,_,_,h6,_⟩ := hr
  have heq : e = f.bytes := by
    have := he.bytes
    rw [h1] at this
    exact Except.ok.inj this
  rw [heq] at h3
  obtain ⟨hread,hbatch⟩ := Frame.readable_of lz4 f c h3
  refine ⟨⟨hread,?_⟩,by rw [hbatch, h6]⟩
  rw [hbatch, h6, map_map, he.base, he.count, ← hn]
  exact map_congr_left (fun r _ => absOffset_asRead r)

/-- The batch round-trips and keeps the active segment below `2^32` offsets. -/
structure Fair (lz4 : Lz4) (cfg : Config) (env : Env) (cl : CommitLog) (batch : RecordBatch) :
    Prop where
  codes : ∀ e, encodeBatch lz4 (assignOffsets cl.nextOffset batch) = .ok e →
    RoundTrips lz4 (assignOffsets cl.nextOffset batch)
  narrow : ∀ s ∈ cl.active, s.isFull cfg env = false →
    cl.nextOffset+batch.records.length < s.baseOffset+2^32

instance (lz4 : Lz4) (cfg : Config) (env : Env) (cl : CommitLog) (batch : RecordBatch) :
    Decidable (Fair lz4 cfg env cl batch) :=
  have : Decidable (∀ e, encodeBatch lz4 (assignOffsets cl.nextOffset batch) = .ok e →
      RoundTrips lz4 (assignOffsets cl.nextOffset batch)) :=
    match h : encodeBatch lz4 (assignOffsets cl.nextOffset batch) with
    | .error _ => isTrue (by simp)
    | .ok e => decidable_of_iff (RoundTrips lz4 (assignOffsets cl.nextOffset batch)) (by simp)
  decidable_of_iff (_ ∧ _) ⟨fun h => ⟨h.1,h.2⟩,fun h => ⟨h.codes,h.narrow⟩⟩

theorem roundTrips_bounded {b : RecordBatch} (h : RoundTrips lz4 b) :
    b.baseOffset+b.recordCount < 2^64 := by
  obtain ⟨_,_,_,_,_,_,_,_,h⟩ := h
  rw [← h]
  exact Nat.mod_lt _ (by norm_num)

theorem Fair.appends {lz4 : Lz4} {cl : CommitLog}
    (h : Fair lz4 cfg env cl batch) : Appends lz4 cl batch := by
  intro e he
  have hr := h.codes e he
  have hb := roundTrips_bounded lz4 hr
  obtain ⟨e',_,h1,h2,_⟩ := hr
  rw [he] at h1
  rw [Except.ok.inj h1]
  exact ⟨h2,hb⟩

theorem encodes_records {cl : CommitLog} {f : Frame} (h : Fair lz4 cfg env cl batch)
    (he : Encodes lz4 (assignOffsets cl.nextOffset batch) f) : Clean lz4 f ∧
      (f.batch lz4).records = (assignOffsets cl.nextOffset batch).records.map asRead := by
  have hr := h.codes _ he.bytes
  exact encodes_clean lz4 he hr (numbered_mapIdx (roundTrips_bounded lz4 hr))

theorem live_indexed {dir : Dir} (h : Live dir d y.1 y.2) :
    y.1.index.entries.Sublist (marks y.2.base 0 y.2.frames) ∧ y.1.nextOffset = y.2.finish :=
  ⟨h.indexed,h.next⟩

theorem sound_sealed {lz4 : Lz4} (env : Env) (h : Sound lz4 y) :
    Sound lz4 (y.1.sealSegment env,y.2) :=
  ⟨h.clean,by simpa using h.indexed,by simpa using h.next,h.narrow⟩

variable {cl' : CommitLog} {held' : List Held}

theorem sound_rolled {lz4 : Lz4} {cl : CommitLog} {last' : Held} (h : ∀ y ∈ held++[last], Sound lz4 y)
    (hr : Rolled cfg env cl held last d held' last') : ∀ y ∈ held'++[last'], Sound lz4 y := by
  cases hr with
  | stay => exact h
  | roll s _ hs =>
    intro y hy
    simp only [mem_append, mem_singleton] at hy
    rcases hy with (hy | rfl) | rfl
    · exact h y (by simp [hy])
    · exact sound_sealed env (h last (by simp))
    · refine ⟨by simp [Extent.empty],by rw [hs.entries]; simp,hs.next,?_⟩
      exact Nat.lt_add_of_pos_right (by norm_num)

theorem rolled_unstaged {cl : CommitLog} {last' : Held} (h : Unstaged cl.fs.disk)
    (hr : Rolled cfg env cl held last d held' last') : Unstaged d := by
  cases hr with
  | stay _ hd => rw [hd]; exact h
  | roll s _ hs => exact started_unstaged hs h

theorem rolled_span {lz4 : Lz4} {cl : CommitLog} {last' : Held} (h : Rep cl held last)
    (hf : Fair lz4 cfg env cl batch) (hb : batch.records.length < 2^32)
    (hr : Rolled cfg env cl held last d held' last') :
    cl.nextOffset+batch.records.length < last'.2.base+2^32 := by
  cases hr with
  | stay hfull =>
    rw [← h.live.base]
    exact hf.narrow last.1 (by rw [h.active]; rfl) hfull
  | roll => exact Nat.add_lt_add_left hb _

theorem append_exact {held : List Held} {r : Except Stop ℕ}
    (h : Exact lz4 cl held last) (hf : Fair lz4 cfg env cl batch)
    (ha : cl.append lz4 cfg env batch = (cl',r)) :
    (cl' = cl ∧ ∃ e, r = .error e) ∨
    ∃ d held1 last1, Rolled cfg env cl held last d held1 last1 ∧
      Disk.Touches last1.1.logFile.ino last1.1.index.file.ino d cl'.fs.disk ∧
      ((∃ e, r = .error (.err e) ∧ Exact lz4 cl' held1 last1) ∨
        ∃ f, r = .ok f.base ∧ Encodes lz4 (assignOffsets cl.nextOffset batch) f ∧
          (f.batch lz4).records = (assignOffsets cl.nextOffset batch).records.map asRead ∧
          ∃ s hle, files s = files last1.1 ∧ Exact lz4 cl' held1 (s,last1.2.push f hle)) := by
  rcases append_outcome lz4 cfg env h.rep hf.appends ha with
    hno | ⟨d,held1,last1,hr,hn,hout⟩
  · exact .inl hno
  have hu : Unstaged cl'.fs.disk := by
    intro p hp
    rw [Disk.lookup, hn.names]
    exact rolled_unstaged h.unstaged hr p hp
  have hs := sound_rolled h.sound hr
  refine .inr ⟨d,held1,last1,hr,hn,?_⟩
  rcases hout with ⟨e,he,hrep⟩ | ⟨f,hres,s,hle,hp⟩
  · exact .inl ⟨e,he,hrep,hu,hs⟩
  obtain ⟨hclean,hrecs⟩ := encodes_records lz4 hf hp.encodes
  have hcount : f.count = batch.records.length := hp.encodes.count
  have hlen := f.count_lt
  refine .inr ⟨f,hres,hp.encodes,hrecs,s,hle,hp.files,hp.rep,hu,?_⟩
  intro y hy
  rcases mem_append.mp hy with hy | hy
  · exact hs y (by simp [hy])
  rw [mem_singleton.mp hy]
  obtain ⟨h1,h2⟩ := live_indexed hp.rep.live
  refine ⟨?_,h1,h2,?_⟩
  · intro g hg
    rcases mem_append.mp hg with hg | hg
    · exact (hs last1 (by simp)).clean g hg
    · rw [mem_singleton.mp hg]
      exact hclean
  · have hspan := rolled_span h.rep hf (by omega) hr
    rw [Extent.push_finish, Frame.stop, hp.encodes.base, hcount]
    exact hspan

theorem append_pushes (cfg : Config) (env : Env) (cl : CommitLog)
    (batch : RecordBatch) (held : List Held) (last : Held) (h : Exact lz4 cl held last)
    (hf : Fair lz4 cfg env cl batch) (hr : RoundTrips lz4 (assignOffsets cl.nextOffset batch))
    (hn : batch.records.length ≤ maxRecordsPerBatch) (hs : last.1.size+2^33 ≤ maxFileSize) :
    ∃ cl' d held1 last1 f s hle, exec lz4 cfg (.append env batch) cl = some cl' ∧
      Rolled cfg env cl held last d held1 last1 ∧ f.base = cl.nextOffset ∧
      (f.batch lz4).records = (assignOffsets cl.nextOffset batch).records.map asRead ∧
      Exact lz4 cl' held1 (s,last1.2.push f hle) := by
  obtain ⟨e,_,he,hsz,_⟩ := hr
  have hlen : e.length < 2^33 := by
    obtain ⟨_,h2,_⟩ := (batchSize_ok e e.length).mp hsz
    have := headerField_lt e 8 4
    omega
  rcases ha : cl.append lz4 cfg env batch with ⟨cl',r⟩
  have hok := append_succeeds lz4 cfg env cl batch held last e h.rep hn he (by omega)
  rw [ha] at hok
  have hex : exec lz4 cfg (.append env batch) cl = some cl' := by
    rw [exec, ha]
    dsimp only at hok
    rw [hok]
    rfl
  rcases append_exact lz4 h hf ha with
    ⟨_,e',he'⟩ | ⟨d,held1,last1,hroll,_,⟨e',he',_⟩ | ⟨f,_,henc,hrecs,s,hle,_,hex'⟩⟩
  · rw [he'] at hok
    cases hok
  · rw [he'] at hok
    cases hok
  · exact ⟨cl',d,held1,last1,f,s,hle,hex,hroll,henc.base,hrecs,hex'⟩

/-! ## Retention -/

theorem thinned_exact {lz4 : Lz4} (env : Env) (h : Exact lz4 cl held last)
    (ht : ∀ I : Files → List Held → Prop, I cl.fs held →
      (∀ fs pre y post, (∀ z ∈ pre++y::post, Keeps fs.disk z.1 z.2) → I fs (pre++y::post) →
        I (y.1.remove env fs) (pre++post)) →
      ∃ left, Thinned cl cl' held left last ∧ I cl'.fs left) :
    ∃ left, left.Sublist held ∧ Exact lz4 cl' left last ∧ cl'.nextOffset = cl.nextOffset := by
  have hout := ht (fun fs _ => Unstaged fs.disk) h.unstaged ?_
  · obtain ⟨left,hl,hu⟩ := hout
    refine ⟨left,hl.sub,⟨hl.rep,hu,?_⟩,hl.next⟩
    exact fun y hy => h.sound y ((hl.sub.append_right [last]).subset hy)
  · intro fs pre y post hk hu p hp
    rw [remove_lookup (hk y (by simp)), if_neg (by rw [hp]; simp)]
    exact hu p hp

/-! ## Rewriting -/

theorem finish_lt {n : ℕ} (hb : a.base < n) (h : ∀ f ∈ a.frames, f.stop < n) : a.finish < n := by
  rcases eq_nil_or_concat a.frames with hn | ⟨fs,f,hf⟩
  · rw [a.finish_nil hn]
    exact hb
  · rw [concat_eq_append] at hf
    rw [a.finish_last fs f hf]
    exact h f (by simp [hf])

theorem replaced_exact {lz4 : Lz4} {pre gone post : List Held}
    {kept : Extent} {fin : Segment} (h : Exact lz4 cl (pre++gone++post) last)
    (hc : ∀ f ∈ a.frames, Clean lz4 f) (hn : a.finish < a.base+2^32)
    (hr : Replaced lz4 cl cl' pre gone post last a fin kept) :
    kept = a ∧ Exact lz4 cl' (pre++(fin,a)::post) last := by
  obtain ⟨rfl,hnext⟩ := hr.whole (fun f hf => (hc f hf).readable)
  refine ⟨rfl,hr.rep,hr.unstaged,?_⟩
  intro y hy
  by_cases hyf : y = (fin,kept)
  · rw [hyf]
    exact ⟨hc,hr.marked,hnext,hn⟩
  · refine h.sound y ?_
    simp only [mem_append, mem_cons] at hy ⊢
    tauto

theorem dropped_exact {lz4 : Lz4} {pre gone post : List Held}
    (h : Exact lz4 cl (pre++gone++post) last) (hd : Dropped cl cl' pre gone post last) :
    Exact lz4 cl' (pre++post) last := by
  refine ⟨hd.rep,hd.unstaged,fun y hy => h.sound y ?_⟩
  simp only [mem_append] at hy ⊢
  tauto

structure Mergeable (cfg : Config) (env : Env) (cl : CommitLog) : Prop where
  adjacent : Enough cfg env cl → Adjacent (mergeCandidates cfg env cl) cl.segments
  narrow : Enough cfg env cl → ∀ c ∈ mergeCandidates cfg env cl, ∀ d ∈ mergeCandidates cfg env cl,
    d.nextOffset < c.baseOffset+2^32

instance (cfg : Config) (env : Env) (cl : CommitLog) : Decidable (Mergeable cfg env cl) :=
  decidable_of_iff (_ ∧ _) ⟨fun h => ⟨h.1,h.2⟩,fun h => ⟨h.adjacent,h.narrow⟩⟩

theorem joined_clean {lz4 : Lz4} {cl : CommitLog}
    {pre ys post : List Held} (h : Exact lz4 cl held last)
    (ha : Mergeable cfg env cl) (hc : Chosen cfg env cl held pre (y::ys) post)
    (hb : a.base = y.2.base) (hf : a.frames = framesOf (y::ys)) :
    (∀ f ∈ a.frames, Clean lz4 f) ∧ a.finish < a.base+2^32 := by
  have hmem : ∀ z ∈ y::ys, z ∈ held := by
    rw [hc.parts]
    simp only [mem_append]
    tauto
  have hcand : ∀ z ∈ y::ys, z.1 ∈ mergeCandidates cfg env cl := by
    intro z hz
    rw [← hc.chosen]
    exact mem_map_of_mem hz
  have hspan : ∀ z ∈ y::ys, z.2.finish < a.base+2^32 := by
    intro z hz
    have := ha.narrow hc.enough _ (hcand y (by simp)) _ (hcand z hz)
    rwa [(h.sound z (by simp [hmem z hz])).next,
      (h.rep.keeps y (hmem y (by simp))).base, ← hb] at this
  have hin : ∀ f ∈ a.frames, ∃ z ∈ y::ys, f ∈ z.2.frames := by
    intro f hfm
    rw [hf] at hfm
    exact mem_flatMap.mp hfm
  refine ⟨fun f hfm => ?_,finish_lt (Nat.lt_add_of_pos_right (by norm_num)) (fun f hfm => ?_)⟩
  · obtain ⟨z,hz,hfz⟩ := hin f hfm
    exact (h.sound z (by simp [hmem z hz])).clean f hfz
  · obtain ⟨z,hz,hfz⟩ := hin f hfm
    exact lt_of_le_of_lt (z.2.stop_le_finish f hfz) (hspan z hz)

theorem failed_exact {lz4 : Lz4} (h : Exact lz4 cl held last) (hf : Failed cl cl' held last) :
    Exact lz4 cl' held last ∧ cl'.nextOffset = cl.nextOffset :=
  ⟨⟨hf.rep,hf.unstaged,h.sound⟩,hf.next⟩

theorem merge_exact {r : Except Stop Unit} (h : Exact lz4 cl held last)
    (ha : Mergeable cfg env cl) (hm : mergeSegments lz4 cfg env cl = (cl',r)) :
    Ends r (cl' = cl ∨
      (∃ pre gone post, Chosen cfg env cl held pre gone post ∧ (∀ y ∈ gone, y.2.frames = []) ∧
        Exact lz4 cl' (pre++post) last ∧ cl'.nextOffset = cl.nextOffset) ∨
      ∃ pre y ys post a fin, Chosen cfg env cl held pre (y::ys) post ∧ a.base = y.2.base ∧
        a.frames = framesOf (y::ys) ∧ Exact lz4 cl' (pre++(fin,a)::post) last ∧
        cl'.nextOffset = cl.nextOffset)
      (Exact lz4 cl' held last ∧ cl'.nextOffset = cl.nextOffset) := by
  refine (merge_rep lz4 cfg env h.rep h.unstaged ha.adjacent hm).imp ?_ (failed_exact h)
  rintro (rfl | ⟨pre,gone,post,hc,he,hd⟩ | ⟨pre,y,ys,post,a,fin,kept,hc,hb,hf,hrep⟩)
  · exact .inl rfl
  · exact .inr (.inl ⟨pre,gone,post,hc,he,dropped_exact (hc.parts ▸ h) hd,hd.next⟩)
  · obtain ⟨hclean,hnar⟩ := joined_clean h ha hc hb hf
    obtain ⟨_,hex⟩ := replaced_exact (hc.parts ▸ h) hclean hnar hrep
    exact .inr (.inr ⟨pre,y,ys,post,a,fin,hc,hb,hf,hex,hrep.next⟩)

end GoCommon.ForgeLogView
