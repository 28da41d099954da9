import GoCommon.ForgeConsumer
import GoCommon.ForgeMerge

/-!
# Delivery to a consumer

The records of a log that only receives appends form a tape on which the
offset of a record is its index. A poll returns the records of the tape from
the offset of the consumer on and moves the offset past them, so all polls
together return one consecutive run of the tape.
-/

set_option autoImplicit false

namespace GoCommon.ForgeDelivery
open List ByteWords Tiling StepRuns ForgeRecord ForgeRecordCodec ForgeSegment ForgeFrames
open ForgeExtents ForgeCommitLog ForgeLogState ForgeRewrite ForgeLogRewrites ForgeLogRuns
open ForgeLogView ForgeMerge ForgeConsumer

/-! ## Reading a run of frames -/

variable {fs : List Frame} {lz4 : Lz4} {cfg : Config} {batch : RecordBatch}

theorem pending_split (o : ℕ) (h : fs.Pairwise (fun f g => f.stop ≤ g.base)) :
    ∃ lo hi, fs = lo++hi ∧ (∀ f ∈ lo, f.stop ≤ o) ∧ (∀ f ∈ hi, o < f.stop) ∧ pending o fs = hi := by
  induction fs with
  | nil => exact ⟨[],[],rfl,by simp,by simp,rfl⟩
  | cons f fs ih =>
    rw [pairwise_cons] at h
    by_cases hf : f.stop ≤ o
    · obtain ⟨lo,hi,rfl,h1,h2,h3⟩ := ih h.2
      refine ⟨f::lo,hi,rfl,by simpa using ⟨hf,h1⟩,h2,?_⟩
      rw [pending, filter_cons_of_neg (by simpa using hf)]
      exact h3
    have hall : ∀ g ∈ f::fs, o < g.stop := by
      intro g hg
      rcases mem_cons.mp hg with rfl | hg
      · omega
      · have h1 := h.1 g hg
        have h2 := g.base_lt_stop
        omega
    exact ⟨[],f::fs,rfl,by simp,hall,pending_all o _ hall⟩

structure Seen (lz4 : Lz4) (cl : CommitLog) (ys : List Held) (o : ℕ) (m : ℤ) (pre : List Held)
    (y : Held) (post : List Held) (skip rest : List Frame) : Prop where
  picked : Picked o ys pre y post
  found : findSegment cl.segments o = some y.1
  frames : y.2.frames = skip++rest
  before : ∀ f ∈ skip, f.stop ≤ o
  position : (y.1.index.lookup o).1 = (raw skip).length
  read : cl.read lz4 o m = .ok ((pending o
    (fits (windowSize y.1 (raw skip).length m) rest)).map (Frame.batch lz4))

section Reading
variable {lz4 : Lz4} {cl : CommitLog} {held : List Held} {last : Held}
  (h : Exact lz4 cl held last)
include h

theorem read_seen (o : ℕ) {m : ℤ} (h0 : 0 ≤ m) (h1 : m < 2^63) :
    ∃ pre y post skip rest, Seen lz4 cl (held++[last]) o m pre y post skip rest := by
  obtain ⟨pre,y,post,hp,hfind,hr⟩ := read_picked lz4 h.rep o
  have hy : y ∈ held++[last] := by rw [hp.parts]; simp
  obtain ⟨skip,rest,hf,hb,hpos,hread⟩ := readFrom_sound lz4 cl.fs o m (h.rep.keeps_all y hy)
    (h.sound y hy) h0 h1
  exact ⟨pre,y,post,skip,rest,hp,hfind,hf,hb,hpos,(hr m).trans hread⟩

theorem before_picked {o : ℕ} {pre : List Held} {y : Held} {post : List Held}
    (hp : Picked o (held++[last]) pre y post) : ∀ f ∈ framesOf pre, f.stop ≤ o := by
  have hord := h.rep.ordered
  rw [hp.parts, pairwise_append] at hord
  intro f hf
  obtain ⟨z,hz,hfz⟩ := mem_flatMap.mp hf
  rcases hp.upTo with hle | rfl
  · exact le_trans (z.2.stop_le_finish f hfz) (le_trans (hord.2.2 z hz y (by simp)) hle)
  · cases hz

/-- A read returns a run of consecutive frames, the first of which is the
first frame that ends after the offset. -/
theorem read_run (o : ℕ) {m : ℤ} (h0 : 0 ≤ m) (h1 : m < 2^63) : ∃ before run after,
    framesOf (held++[last]) = before++run++after ∧ (∀ f ∈ before, f.stop ≤ o) ∧
      (∀ f ∈ run, o < f.stop) ∧ cl.read lz4 o m = .ok (run.map (Frame.batch lz4)) := by
  obtain ⟨pre,y,post,skip,rest,hs⟩ := read_seen h o h0 h1
  obtain ⟨more,hmore⟩ := fits_front (windowSize y.1 (raw skip).length m) rest
  have hsort := y.2.sorted
  rw [hs.frames, ← hmore, pairwise_append, pairwise_append] at hsort
  obtain ⟨lo,hi,hfit,hlo,hhi,hpend⟩ := pending_split o hsort.2.1.1
  refine ⟨framesOf pre++skip++lo,hi,more++framesOf post,?_,?_,hhi,by rw [hs.read, hpend]⟩
  · rw [hs.picked.parts]
    simp only [framesOf, flatMap_append, flatMap_cons, hs.frames]
    rw [← hmore, hfit]
    simp
  intro f hf
  simp only [mem_append] at hf
  rcases hf with (hf | hf) | hf
  · exact before_picked h hs.picked f hf
  · exact hs.before f hf
  · exact hlo f hf

end Reading

/-! ## Polling a run of frames -/

def contents (lz4 : Lz4) (fs : List Frame) : List Record :=
  fs.flatMap (fun f => (f.batch lz4).records)

@[simp] theorem contents_nil : contents lz4 [] = [] := rfl

@[simp] theorem contents_cons {f : Frame} :
    contents lz4 (f::fs) = (f.batch lz4).records++contents lz4 fs := flatMap_cons

@[simp] theorem contents_append {gs : List Frame} :
    contents lz4 (fs++gs) = contents lz4 fs++contents lz4 gs := flatMap_append

theorem contents_length (lz4 : Lz4) (lo hi : ℕ) (fs : List Frame)
    (h : Tiles Frame.base Frame.stop lo fs hi) (hc : ∀ f ∈ fs, f.Readable lz4) :
    lo+(contents lz4 fs).length = hi := by
  induction fs generalizing lo with
  | nil => exact h
  | cons f fs ih =>
    have h1 := ih _ h.2 (fun g hg => hc g (by simp [hg]))
    have h2 := h.1
    rw [contents_cons, length_append, Frame.batch_records (hc f (by simp))]
    simp only [Frame.stop] at h1
    omega

/-- The records of one batch: those before the offset are skipped, and the
rest are added until there are enough. -/
theorem pollRecords_eq (n base b o : ℕ) (rs acc : List Record)
    (hr : rs.map (absOffset base) = List.range' b rs.length) (hb : b+rs.length < 2^64)
    (ha : acc.length < n) : pollRecords n base o acc rs =
      if n ≤ acc.length+(rs.drop (o-b)).length then
        (acc++(rs.drop (o-b)).take (n-acc.length),some (max b o+(n-acc.length)))
      else (acc++rs.drop (o-b),none) := by
  induction rs generalizing b acc with
  | nil =>
    rw [drop_nil, if_neg (by simp only [length_nil]; omega)]
    simp [pollRecords]
  | cons r rs ih =>
    rw [length_cons] at hr hb
    rw [map_cons, range'_succ, List.cons.injEq] at hr
    rw [pollRecords, hr.1]
    by_cases hlt : b < o
    · have hd : (r::rs).drop (o-b) = rs.drop (o-(b+1)) := by
        rw [show o-b = o-(b+1)+1 by omega, drop_succ_cons]
      rw [if_pos hlt, ih (b+1) acc hr.2 (by omega) ha, hd,
        max_eq_right (by omega), max_eq_right (by omega)]
    have hz : o-b = 0 := by omega
    rw [if_neg hlt, hz, drop_zero, max_eq_left (by omega)]
    by_cases hfull : n ≤ acc.length+1
    · have hone : n-acc.length = 1 := by omega
      rw [if_pos (by simp only [length_append, length_singleton]; omega),
        if_pos (by simp only [length_cons]; omega), hone, Nat.mod_eq_of_lt (by omega)]
      simp
    have hnext := ih (b+1) (acc++[r]) hr.2 (by omega)
      (by simp only [length_append, length_singleton]; omega)
    rw [show o-(b+1) = 0 by omega, drop_zero, max_eq_left (by omega)] at hnext
    rw [if_neg (by simp only [length_append, length_singleton]; omega), hnext]
    simp only [length_append, length_cons, length_nil, zero_add]
    have htake : (r::rs).take (n-acc.length) = r::rs.take (n-(acc.length+1)) := by
      rw [show n-acc.length = n-(acc.length+1)+1 by omega, take_succ_cons]
    rw [htake, show b+1+(n-(acc.length+1)) = b+(n-acc.length) by omega,
      show acc.length+1+rs.length = acc.length+(rs.length+1) by omega]
    simp

theorem pollBatches_eq (lz4 : Lz4) (n lo hi o : ℕ) (fs : List Frame) (acc : List Record)
    (ht : Tiles Frame.base Frame.stop lo fs hi) (hc : ∀ f ∈ fs, Clean lz4 f)
    (hp : ∀ f ∈ fs, o < f.stop) (hlo : lo ≤ o) (ha : acc.length < n) :
    pollBatches n o acc (fs.map (Frame.batch lz4)) =
      if n ≤ acc.length+((contents lz4 fs).drop (o-lo)).length then
        (acc++((contents lz4 fs).drop (o-lo)).take (n-acc.length),o+(n-acc.length))
      else (acc++(contents lz4 fs).drop (o-lo),if fs = [] then o else hi) := by
  induction fs generalizing lo o acc with
  | nil =>
    rw [contents_nil, drop_nil, if_neg (by simp only [length_nil]; omega)]
    simp [pollBatches]
  | cons f fs ih =>
    obtain ⟨hf1,hf2⟩ := ht
    have hclean := hc f (by simp)
    have hlen := Frame.batch_records hclean.readable
    have hbase := (Frame.batch_base hclean.readable).1
    have hstop := hp f (by simp)
    have hsplit : (contents lz4 (f::fs)).drop (o-lo) =
        (f.batch lz4).records.drop (o-lo)++contents lz4 fs := by
      rw [contents_cons, drop_append_of_le_length]
      simp only [Frame.stop] at hstop
      omega
    have hnew : ((f.batch lz4).records.drop (o-lo)).length = f.stop-o := by
      rw [length_drop, Frame.stop]
      omega
    have hrecs := pollRecords_eq n f.base f.base o (f.batch lz4).records acc
      (by rw [hlen]; exact hclean.numbered) (by rw [hlen]; exact f.bounded) ha
    rw [hf1, max_eq_right hlo] at hrecs
    rw [map_cons, pollBatches, hbase, hf1, hrecs, hsplit, length_append]
    by_cases hfull : n ≤ acc.length+((f.batch lz4).records.drop (o-lo)).length
    · rw [if_pos hfull, if_pos (by omega)]
      rw [take_append_of_le_length (by omega)]
    rw [if_neg hfull]
    have hnext : ∀ g ∈ fs, f.stop < g.stop := by
      intro g hg
      have := ((tiles_bounds _ _ _ hf2 (fun x _ => le_of_lt x.base_lt_stop)).2 g hg).1
      exact lt_of_le_of_lt this g.base_lt_stop
    simp only
    rw [Frame.batch_end hclean.readable, ih f.stop f.stop (acc++(f.batch lz4).records.drop (o-lo))
      hf2 (fun g hg => hc g (by simp [hg])) hnext (le_refl _)
      (by rw [length_append]; omega), Nat.sub_self, drop_zero, length_append]
    by_cases hmore : n ≤ acc.length+((f.batch lz4).records.drop (o-lo)).length+
        (contents lz4 fs).length
    · have htake : ((f.batch lz4).records.drop (o-lo)++contents lz4 fs).take (n-acc.length) =
          (f.batch lz4).records.drop (o-lo)++(contents lz4 fs).take
            (n-(acc.length+((f.batch lz4).records.drop (o-lo)).length)) := by
        rw [take_append, take_of_length_le (by omega), Nat.sub_sub]
      rw [if_pos hmore, if_pos (by omega), htake, append_assoc, hnew,
        show f.stop+(n-(acc.length+(f.stop-o))) = o+(n-acc.length) by omega]
    rw [Nat.add_assoc] at hmore
    rw [Nat.add_assoc, if_neg hmore, if_neg hmore]
    by_cases hfs : fs = []
    · subst hfs
      have hhi : f.stop = hi := hf2
      simp [hhi]
    · simp [hfs]

/-! ## The tape -/

structure Recorded (lz4 : Lz4) (cl : CommitLog) (held : List Held) (last : Held)
    (tape : List Record) : Prop where
  whole : Whole lz4 cl held last
  tiles : Tiles Frame.base Frame.stop 0 (framesOf (held++[last])) cl.nextOffset
  tape : contents lz4 (framesOf (held++[last])) = tape

section Tape
variable {lz4 : Lz4} {cl : CommitLog} {held : List Held} {last : Held} {tape : List Record}
  (h : Recorded lz4 cl held last tape)
include h

theorem recorded_clean : ∀ f ∈ framesOf (held++[last]), Clean lz4 f := by
  intro f hf
  obtain ⟨y,hy,hfy⟩ := mem_flatMap.mp hf
  exact (h.whole.exact.sound y hy).clean f hfy

theorem recorded_length : tape.length = cl.nextOffset := by
  have := contents_length lz4 _ _ _ h.tiles (fun f hf => (recorded_clean h f hf).readable)
  rw [← h.tape]
  omega

theorem recorded_bounded : cl.nextOffset < 2^64 := by
  have ht := h.tiles
  rcases eq_nil_or_concat (framesOf (held++[last])) with hn | ⟨fs,f,hf⟩
  · rw [hn] at ht
    have hz : 0 = cl.nextOffset := ht
    omega
  · rw [hf, concat_eq_append, tiles_last] at ht
    rw [← ht.2]
    exact f.bounded

/-- A poll returns the records of the tape from the offset on and moves past
them. It returns none only when the read does. -/
theorem poll_delivers (n o : ℕ) (hn : 0 < n) (hmade : n*recordSize ≤ maxAlloc)
    (ho : o ≤ tape.length) : ∃ k, k ≤ n ∧
    o+k ≤ tape.length ∧ poll lz4 cl n o = .ok ((tape.drop o).take k,o+k) ∧
    (0 < k ↔ cl.read lz4 o (pollBytes n) ≠ .ok []) := by
  have hm0 : 0 ≤ pollBytes n := le_trans (by decide) (le_max_right _ _)
  have hm1 : pollBytes n < 2^63 := max_lt (int64_lt) (by decide)
  obtain ⟨before,run,after,hfr,hb,hr,hread⟩ := read_run h.whole.exact o hm0 hm1
  have ht := h.tiles
  rw [hfr, append_assoc, tiles_append] at ht
  obtain ⟨lo,ht1,ht2⟩ := ht
  obtain ⟨hi,ht2,ht3⟩ := (tiles_append).mp ht2
  have hclean := recorded_clean h
  rw [hfr] at hclean
  have hread' : ∀ f ∈ before++run++after, f.Readable lz4 := fun f hf => (hclean f hf).readable
  have hl1 := contents_length lz4 _ _ _ ht1 (fun f hf => hread' f (by simp [hf]))
  have hl2 := contents_length lz4 _ _ _ ht2 (fun f hf => hread' f (by simp [hf]))
  have hl3 := contents_length lz4 _ _ _ ht3 (fun f hf => hread' f (by simp [hf]))
  have hlen := recorded_length h
  have hlo : lo ≤ o := by
    rcases eq_nil_or_concat before with rfl | ⟨fs,f,rfl⟩
    · have : 0 = lo := ht1
      omega
    · rw [concat_eq_append, tiles_last] at ht1
      rw [← ht1.2]
      exact hb f (by simp)
  have hdrop : tape.drop o = (contents lz4 run).drop (o-lo)++(contents lz4 after).drop (o-hi) := by
    rw [← h.tape, hfr, contents_append, contents_append, append_assoc, drop_append,
      drop_append, drop_eq_nil_of_le (by omega), nil_append,
      show o-(contents lz4 before).length-(contents lz4 run).length = o-hi by omega,
      show o-(contents lz4 before).length = o-lo by omega]
  have hpoll := pollBatches_eq lz4 n lo hi o run [] ht2 (fun f hf => hclean f (by simp [hf])) hr
    hlo hn
  simp only [length_nil, zero_add, nil_append, Nat.sub_zero] at hpoll
  simp only [poll, hread, if_neg (show ¬((n:ℤ) < 0 ∨ maxAlloc < n*recordSize) by omega), hpoll]
  have hrun : ((contents lz4 run).drop (o-lo)).length = hi-o := by
    rw [length_drop]
    omega
  by_cases hfull : n ≤ ((contents lz4 run).drop (o-lo)).length
  · refine ⟨n,le_refl n,by omega,?_,?_⟩
    · rw [if_pos hfull, hdrop, take_append_of_le_length hfull]
    have hne : run ≠ [] := by
      rintro rfl
      rw [contents_nil, drop_nil, length_nil] at hfull
      omega
    simpa [hne] using hn
  rw [if_neg hfull]
  by_cases hrun0 : run = []
  · exact ⟨0,by omega,ho,by simp [hrun0],by simp [hrun0]⟩
  obtain ⟨f,hf⟩ := exists_mem_of_ne_nil _ hrun0
  have hlt := hr f hf
  have hle := ((tiles_bounds _ _ _ ht2 (fun x _ => le_of_lt x.base_lt_stop)).2 f hf).2
  refine ⟨hi-o,by omega,by omega,?_,?_⟩
  · rw [if_neg hrun0, hdrop, show o+(hi-o) = hi by omega, take_append_of_le_length
      (by omega), take_of_length_le (by omega)]
  · have hpos : 0 < hi-o := by omega
    simpa [hrun0] using hpos

theorem append_recorded {env : Env} {cl' : CommitLog}
    {r : Except Stop ℕ} (hf : Fair lz4 cfg env cl batch)
    (ha : cl.append lz4 cfg env batch = (cl',r)) : ∃ held' last',
      ((∃ e, r = .error e) ∧ Recorded lz4 cl' held' last' tape) ∨
      (r = .ok tape.length ∧ Recorded lz4 cl' held' last'
        (tape++(assignOffsets tape.length batch).records.map asRead)) := by
  have hlen := recorded_length h
  obtain ⟨held',last',hw,hcase⟩ := append_whole h.whole hf ha
  refine ⟨held',last',?_⟩
  rcases hcase with ⟨hfr,hn,he⟩ | ⟨f,hfr,hb,hn,hr,hrecs⟩
  · exact .inl ⟨he,hw,by rw [hfr, hn]; exact h.tiles,by rw [hfr]; exact h.tape⟩
  refine .inr ⟨by rw [hr, hb, hlen],hw,?_,?_⟩
  · rw [hfr, hn, tiles_last]
    exact ⟨by rw [hb]; exact h.tiles,rfl⟩
  · rw [hfr, contents_append, h.tape, contents_cons, contents_nil, append_nil, hrecs, hlen]

end Tape

theorem fresh_recorded {cl : CommitLog} (h : Fresh lz4 cl) :
    ∃ last, Recorded lz4 cl [] last [] := by
  obtain ⟨last,hw,he⟩ := fresh_whole h
  have hf : framesOf ([]++[last]) = [] := by simp [framesOf, he, Extent.empty]
  refine ⟨last,hw,?_,by rw [hf]; rfl⟩
  rw [hf, hw.exact.rep.next, he]
  rfl

/-! ## Interleavings -/

def appended (base : ℕ) (batch : RecordBatch) : List KeyRecord :=
  (assignOffsets base batch).records.map (fun r => ⟨absOffset base r,asRead r⟩)

structure Session where
  log : CommitLog
  tape : List KeyRecord
  start : ℕ
  offset : ℕ
  taken : List Record

inductive SessionOp where
  | append (env : Env) (batch : RecordBatch)
  | newConsumer (offset : ℕ)
  | poll (maxRecords : ℤ)

def exec (lz4 : Lz4) (cfg : Config) : SessionOp → Session → Option Session
  | .append env batch, s => match s.log.append lz4 cfg env batch with
    | (cl,.ok base) => some { s with log := cl, tape := s.tape++appended base batch }
    | (cl,.error (.err _)) => some { s with log := cl }
    | (_,.error _) => none
  | .newConsumer offset, s => some { s with start := offset, offset := offset, taken := [] }
  | .poll maxRecords, s => match poll lz4 s.log maxRecords s.offset with
    | .ok (rs,o) => some { s with offset := o, taken := s.taken++rs }
    | .error (.err _) => some s
    | .error _ => none

def Admitted (lz4 : Lz4) (cfg : Config) : SessionOp → Session → Prop
  | .append env batch, s => Fair lz4 cfg env s.log batch
  | .newConsumer offset, s => offset ≤ s.log.newestOffset
  | .poll maxRecords, _ => 1 ≤ maxRecords

instance (lz4 : Lz4) (cfg : Config) : ∀ op s, Decidable (Admitted lz4 cfg op s)
  | .append env batch, s => inferInstanceAs (Decidable (Fair lz4 cfg env s.log batch))
  | .newConsumer _, _ => inferInstanceAs (Decidable (_ ≤ _))
  | .poll _, _ => inferInstanceAs (Decidable (_ ≤ _))

structure Delivered (lz4 : Lz4) (s : Session) : Prop where
  log : ∃ held last, Recorded lz4 s.log held last (s.tape.map KeyRecord.record)
  offsets : s.tape.map KeyRecord.offset = List.range s.tape.length
  started : s.start ≤ s.offset
  within : s.offset ≤ s.tape.length
  taken : s.taken = ((s.tape.drop s.start).take (s.offset-s.start)).map KeyRecord.record

theorem appended_offsets {base : ℕ} (h : base+batch.records.length < 2^64) :
    (appended base batch).map KeyRecord.offset = List.range' base (appended base batch).length := by
  have hn := numbered_mapIdx h
  simpa [appended, assignOffsets, Function.comp_def] using hn

theorem appended_records {base : ℕ} :
    (appended base batch).map KeyRecord.record = (assignOffsets base batch).records.map asRead := by
  simp [appended, Function.comp_def]

theorem append_delivered {env : Env}
    {s t : Session} (h : Delivered lz4 s) (hf : Fair lz4 cfg env s.log batch)
    (hs : exec lz4 cfg (.append env batch) s = some t) : Delivered lz4 t := by
  obtain ⟨held,last,hrec⟩ := h.log
  rcases ha : s.log.append lz4 cfg env batch with ⟨cl,r⟩
  obtain ⟨held',last',hcase⟩ := append_recorded hrec hf ha
  rw [length_map] at hcase
  simp only [exec, ha] at hs
  rcases hcase with ⟨⟨e,rfl⟩,hrec'⟩ | ⟨rfl,hrec'⟩
  · cases e with
    | err e =>
      cases hs
      exact ⟨⟨held',last',hrec'⟩,h.offsets,h.started,h.within,h.taken⟩
    | panic => cases hs
    | hang => cases hs
  cases hs
  have h1 := h.started
  have h2 := h.within
  have hlen := recorded_length hrec'
  have hbound : s.tape.length+batch.records.length < 2^64 := by
    have hfin : s.tape.length+batch.records.length = cl.nextOffset := by
      simpa [assignOffsets] using hlen
    rw [hfin]
    exact recorded_bounded hrec'
  refine ⟨⟨held',last',by rw [map_append, appended_records]; exact hrec'⟩,?_,h1,?_,?_⟩
  · rw [map_append, h.offsets, appended_offsets hbound, length_append,
      range_add]
    simp [range'_eq_map_range]
  · rw [length_append]
    exact le_trans h2 (Nat.le_add_right _ _)
  dsimp only
  rw [drop_append_of_le_length (by omega), take_append_of_le_length
    (by rw [length_drop]; omega)]
  exact h.taken

theorem poll_delivered {maxRecords : ℤ} {s t : Session} (h : Delivered lz4 s) (hn : 1 ≤ maxRecords)
    (hs : exec lz4 cfg (.poll maxRecords) s = some t) : Delivered lz4 t := by
  obtain ⟨held,last,hrec⟩ := h.log
  obtain ⟨n,rfl⟩ := Int.eq_ofNat_of_zero_le (show 0 ≤ maxRecords by omega)
  by_cases hmade : n*recordSize ≤ maxAlloc
  swap
  · simp only [exec] at hs
    split at hs
    · rename_i hp
      exact absurd (poll_allocates hp) hmade
    · cases hs
      exact h
    · cases hs
  obtain ⟨k,_,hle,hp,_⟩ := poll_delivers hrec n s.offset (by omega) hmade
    (by rw [length_map]; exact h.within)
  rw [length_map] at hle
  simp only [exec, hp] at hs
  cases hs
  have h1 := h.started
  refine ⟨h.log,h.offsets,le_trans h1 (Nat.le_add_right _ _),hle,?_⟩
  rw [h.taken, show s.offset+k-s.start = s.offset-s.start+k by omega, take_add,
    drop_drop, show s.start+(s.offset-s.start) = s.offset by omega]
  simp

theorem step_delivered {op : SessionOp} {s t : Session}
    (h : Delivered lz4 s) (hg : Admitted lz4 cfg op s) (hs : exec lz4 cfg op s = some t) :
    Delivered lz4 t := by
  cases op with
  | append env batch => exact append_delivered h hg hs
  | newConsumer offset =>
    cases hs
    obtain ⟨held,last,hrec⟩ := h.log
    refine ⟨h.log,h.offsets,le_refl _,?_,by simp⟩
    have hle : offset ≤ s.log.nextOffset := hg
    rw [← recorded_length hrec, length_map] at hle
    exact hle
  | poll maxRecords => exact poll_delivered h hg hs

theorem filter_offsets (tape : List KeyRecord) (a lo hi : ℕ)
    (h : tape.map KeyRecord.offset = List.range' a tape.length) (ha : a ≤ lo) (hlo : lo ≤ hi) :
    tape.filter (fun kr => lo ≤ kr.offset ∧ kr.offset < hi) = (tape.drop (lo-a)).take (hi-lo) := by
  induction tape generalizing a lo with
  | nil => simp
  | cons kr tape ih =>
    rw [length_cons, map_cons, range'_succ, List.cons.injEq] at h
    by_cases hlt : a < lo
    · rw [filter_cons_of_neg (by simp only [decide_eq_true_eq]; omega),
        ih (a+1) lo h.2 (by omega) hlo, show lo-a = lo-(a+1)+1 by omega, drop_succ_cons]
    have hin : ∀ x ∈ tape, lo+1 ≤ x.offset := by
      intro x hx
      have hm : x.offset ∈ List.range' (a+1) tape.length := by
        rw [← h.2]
        exact mem_map_of_mem hx
      have := (mem_range'_1.mp hm).1
      omega
    rw [show lo-a = 0 by omega, drop_zero]
    by_cases hhi : lo < hi
    · have hcongr : tape.filter (fun kr => decide (lo ≤ kr.offset ∧ kr.offset < hi)) =
          tape.filter (fun kr => decide (lo+1 ≤ kr.offset ∧ kr.offset < hi)) := by
        refine filter_congr (fun x hx => ?_)
        have := hin x hx
        simp only [decide_eq_decide]
        omega
      rw [filter_cons_of_pos (by simp only [decide_eq_true_eq]; omega), hcongr,
        ih (a+1) (lo+1) h.2 (by omega) (by omega), show lo+1-(a+1) = 0 by omega, drop_zero,
        show hi-lo = hi-(lo+1)+1 by omega, take_succ_cons]
    rw [show hi-lo = 0 by omega, take_zero, filter_eq_nil_iff]
    simp only [decide_eq_true_eq]
    omega

/-- In every interleaving of appends and polls the polls of the consumer have
returned exactly the appended records whose offsets lie between its starting
offset and its current offset, in order. Every offset below the newest one
belongs to one appended record. -/
theorem polls_deliver_in_order (lz4 : Lz4) (cfg : Config) (cl0 : CommitLog) (s : Session)
    (h0 : Fresh lz4 cl0)
    (h : Reaches (fun op s t => exec lz4 cfg op s = some t) (Admitted lz4 cfg) ⟨cl0,[],0,0,[]⟩ s) :
    s.taken = (s.tape.filter (fun kr => s.start ≤ kr.offset ∧ kr.offset < s.offset)).map
        KeyRecord.record ∧
      s.tape.map KeyRecord.offset = List.range s.log.newestOffset ∧
      s.start ≤ s.offset ∧ s.offset ≤ s.log.newestOffset := by
  have hd : Delivered lz4 s := by
    refine h.invariant (Delivered lz4) ?_ (fun op s t hs hg ht =>
      step_delivered hs hg ht)
    obtain ⟨last,hrec⟩ := fresh_recorded h0
    exact ⟨⟨[],last,hrec⟩,rfl,le_refl _,le_refl _,rfl⟩
  obtain ⟨held,last,hrec⟩ := hd.log
  have hlen : s.tape.length = s.log.newestOffset := by
    have := recorded_length hrec
    rwa [length_map] at this
  have hoff := hd.offsets
  rw [range_eq_range'] at hoff
  refine ⟨?_,by rw [hd.offsets, hlen],hd.started,by rw [← hlen]; exact hd.within⟩
  rw [filter_offsets s.tape 0 s.start s.offset hoff (Nat.zero_le _) hd.started]
  exact hd.taken

def twoPolls : List SessionOp :=
  [.append (still 0) (smallBatch 0 1),.newConsumer 0,.append (still 0) (smallBatch 0 2),.poll 1,
    .append (still 0) (smallBatch 0 3),.poll 5]

/-- Two polls over three segments. -/
theorem two_polls_deliver : ∃ s,
    runAll (exec noLz4 eager) twoPolls ⟨smallLog 0,[],0,0,[]⟩ = some s ∧
    s.taken.length = 2 ∧ s.log.segments.length = 3 ∧
    s.taken = (s.tape.filter (fun kr => s.start ≤ kr.offset ∧ kr.offset < s.offset)).map
        KeyRecord.record ∧
      s.tape.map KeyRecord.offset = List.range s.log.newestOffset ∧
      s.start ≤ s.offset ∧ s.offset ≤ s.log.newestOffset := by
  obtain ⟨s,hs,h1,h2⟩ : ∃ s ∈ runAll (exec noLz4 eager) twoPolls ⟨smallLog 0,[],0,0,[]⟩,
      s.taken.length = 2 ∧ s.log.segments.length = 3 := by decide +kernel
  exact ⟨s,hs,h1,h2,polls_deliver_in_order noLz4 eager (smallLog 0) s (smallLog_fresh 0)
    (reaches_of_runAll _ _ (by decide +kernel) hs)⟩

end GoCommon.ForgeDelivery
