import GoCommon.ForgeLogSwap

/-!
# Merging and compaction on extents

Merging adjacent segments joins their extents. Compaction replaces all sealed
extents by one that starts at the first base offset and holds the surviving
records, which are at most as many as the offsets the old extents cover.
-/

set_option autoImplicit false

namespace GoCommon.ForgeLogRewrites
open List ForgeRecord ForgeRecordCodec ForgeSegment ForgeFrames ForgeExtents ForgeCommitLog
open ForgeLogState ForgeLogRemoval ForgeRewrite ForgeLogSwap

/-! ## Merging -/

theorem rawWrites_frames (n : ℕ) (fs : List Frame) (h : (raw fs).length ≤ n) :
    rawWrites n (raw fs) = fs.map writeOf := by
  induction fs generalizing n with
  | nil => cases n <;> rfl
  | cons f fs ih =>
    have hp := f.size_pos
    rw [raw_cons, length_append] at h
    cases n with
    | zero => omega
    | succ n =>
      simp only [raw_cons, rawWrites, batchSize_append f.bytes (raw fs) _ f.sized, take_left,
        drop_left, f.header, map_cons, writeOf]
      rw [ih n (by omega)]

def framesOf (held : List Held) : List Frame := held.flatMap (fun y => y.2.frames)

theorem framesOf_cons (y : Held) (held : List Held) : framesOf (y::held) = y.2.frames++framesOf held :=
  flatMap_cons

variable (lz4 : Lz4) (cfg : Config) (env : Env) (order : Order) (cl : CommitLog) (held : List Held)

theorem framesOf_sorted (h : held.Pairwise (fun y z => y.2.finish ≤ z.2.base)) :
    (framesOf held).Pairwise (fun f g => f.stop ≤ g.base) := by
  induction held with
  | nil => simp [framesOf]
  | cons y held ih =>
    rw [pairwise_cons] at h
    rw [framesOf_cons, pairwise_append]
    refine ⟨y.2.sorted,ih h.2,?_⟩
    intro f hf g hg
    obtain ⟨z,hz,hgz⟩ := mem_flatMap.mp hg
    exact le_trans (y.2.stop_le_finish f hf) (le_trans (h.1 z hz) (z.2.above g hgz))

theorem exists_joined {y : Held} {held : List Held}
    (h : (y::held).Pairwise (fun y z => y.2.finish ≤ z.2.base)) :
    ∃ a : Extent, a.base = y.2.base ∧ a.frames = framesOf (y::held) ∧
      ∀ n, (∀ z ∈ y::held, z.2.finish ≤ n) → a.finish ≤ n := by
  have hab : ∀ f ∈ framesOf (y::held), y.2.base ≤ f.base := by
    intro f hf
    obtain ⟨z,hz,hfz⟩ := mem_flatMap.mp hf
    rcases mem_cons.mp hz with rfl | hz
    · exact z.2.above f hfz
    · rw [pairwise_cons] at h
      exact le_trans y.2.base_le_finish (le_trans (h.1 z hz) (z.2.above f hfz))
  refine ⟨⟨y.2.base,framesOf (y::held),framesOf_sorted _ h,hab⟩,rfl,rfl,?_⟩
  intro n hn
  rcases eq_nil_or_concat (framesOf (y::held)) with he | ⟨fs,f,he⟩
  · rw [Extent.finish_nil _ he]
    exact le_trans y.2.base_le_finish (hn y (by simp))
  rw [concat_eq_append] at he
  rw [Extent.finish_last _ fs f he]
  have hf : f ∈ framesOf (y::held) := by simp [he]
  obtain ⟨z,hz,hfz⟩ := mem_flatMap.mp hf
  exact le_trans (z.2.stop_le_finish f hfz) (hn z hz)

theorem raw_framesOf :
    (held.map (fun y => raw y.2.frames)).flatMap (fun r => rawWrites r.length r) =
      (framesOf held).map writeOf := by
  induction held with
  | nil => rfl
  | cons y held ih =>
    rw [map_cons, flatMap_cons, ih, rawWrites_frames _ _ (le_refl _), framesOf_cons, map_append]

def Enough (cfg : Config) (env : Env) (cl : CommitLog) : Prop :=
  cfg.minMergeSegments ≤ (mergeCandidates cfg env cl).length

instance (cfg : Config) (env : Env) (cl : CommitLog) : Decidable (Enough cfg env cl) :=
  inferInstanceAs (Decidable (_ ≤ _))

def Adjacent (candidates segments : List Segment) : Prop := ∃ xs ys,
  segments = xs++candidates++ys ∧ ∀ x ∈ xs, ∀ c ∈ candidates, x.baseOffset < c.baseOffset

def AdjacentAt (cs ss : List Segment) (i : ℕ) : Prop :=
  ss = ss.take i++cs++ss.drop (i+cs.length) ∧
    ∀ x ∈ ss.take i, ∀ c ∈ cs, x.baseOffset < c.baseOffset

instance (cs ss : List Segment) (i : ℕ) : Decidable (AdjacentAt cs ss i) :=
  inferInstanceAs (Decidable (_ ∧ _))

theorem adjacent_iff (cs ss : List Segment) :
    (∃ i ∈ List.range (ss.length+1), AdjacentAt cs ss i) ↔ Adjacent cs ss := by
  constructor
  · rintro ⟨i,_,h1,h2⟩
    exact ⟨_,_,h1,h2⟩
  rintro ⟨xs,ys,rfl,h2⟩
  have htake : (xs++cs++ys).take xs.length = xs := by simp
  have hdrop : (xs++cs++ys).drop (xs.length+cs.length) = ys := by
    rw [← length_append, drop_left]
  refine ⟨xs.length,by simp,?_,?_⟩
  · rw [htake, hdrop]
  · rwa [htake]

instance (cs ss : List Segment) : Decidable (Adjacent cs ss) :=
  decidable_of_iff _ (adjacent_iff cs ss)

variable {last : Held} {ys : List Held} {r : Except Stop Unit}

theorem rep_split {cl : CommitLog} {held : List Held} (h : Rep cl held last)
    {cs : List Segment} (hc : ∀ c ∈ cs, c.ptr ≠ cl.activeSegment) (hne : cs ≠ [])
    (ha : Adjacent cs cl.segments) : ∃ pre gone post, held = pre++gone++post ∧
      gone.map Prod.fst = cs ∧ ∀ y ∈ pre, ∀ z ∈ gone, y.2.base < z.2.base := by
  obtain ⟨xs,ys,hs,hlt⟩ := ha
  rw [h.listed] at hs
  obtain ⟨l1,post,hl,h1,hpost⟩ := map_eq_append_iff.mp hs
  obtain ⟨pre,gone,hg,hpre,hgone⟩ := map_eq_append_iff.mp h1
  have hbase : ∀ y ∈ pre, ∀ z ∈ gone, y.2.base < z.2.base := by
    intro y hy z hz
    have hy' : y ∈ held++[last] := by rw [hl, hg]; simp [hy]
    have hz' : z ∈ held++[last] := by rw [hl, hg]; simp [hz]
    rw [← (h.keeps_all y hy').base, ← (h.keeps_all z hz').base]
    exact hlt _ (by rw [← hpre]; exact mem_map_of_mem hy) _
      (by rw [← hgone]; exact mem_map_of_mem hz)
  rcases eq_nil_or_concat post with hn | ⟨post',z,hz⟩
  · rw [hn, append_nil, hg] at hl
    rcases eq_nil_or_concat gone with hn | ⟨gone',z,hz⟩
    · rw [hn] at hgone
      exact absurd hgone.symm hne
    rw [concat_eq_append] at hz
    rw [hz, ← append_assoc] at hl
    have hlast := (append_inj' hl rfl).2
    have hm : last.1 ∈ cs := by
      rw [← hgone, hz, ← hlast]
      simp
    exact absurd h.current.symm (hc _ hm)
  rw [concat_eq_append] at hz
  rw [hz, hg, ← append_assoc] at hl
  have hheld := (append_inj' hl rfl).1
  exact ⟨pre,gone,post',hheld,hgone,hbase⟩

structure Dropped (cl cl' : CommitLog) (pre gone post : List Held) (last : Held) : Prop where
  rep : Rep cl' (pre++post) last
  unstaged : Unstaged cl'.fs.disk
  next : cl'.nextOffset = cl.nextOffset
  names : ∀ p, (∀ y ∈ gone, p.base ≠ y.2.base) → cl'.fs.disk.lookup p = cl.fs.disk.lookup p

theorem removeSegments_dropped (pre gone post : List Held)
    (last : Held) (h : Rep cl (pre++gone++post) last) (hu : Unstaged cl.fs.disk) :
    Dropped cl (removeSegments env (gone.map Prod.fst) cl) pre gone post last := by
  have heq : removeSegments env (gone.map Prod.fst) cl = withFiles cl last
      ((gone.map Prod.fst).foldl (fun fs s => s.remove env fs) cl.fs) (pre++post) := by
    rw [removeSegments, withFiles, h.listed, filter_others h.ptrs]
  have hrule := removeAll_rule env (I := fun fs held =>
      Rep (withFiles cl last fs held) held last ∧ Unstaged fs.disk ∧
      ∀ p, (∀ y ∈ gone, p.base ≠ y.2.base) → fs.disk.lookup p = cl.fs.disk.lookup p)
    (G := fun y => y ∈ gone) ?_ pre gone post cl.fs (fun y hy => hy) ⟨?_,hu,fun p _ => rfl⟩
  · rw [heq]
    exact ⟨hrule.1,hrule.2.1,rfl,hrule.2.2⟩
  · rintro fs xs y ys hy ⟨h1,h2,h3⟩
    have hk : Keeps fs.disk y.1 y.2 := h1.keeps y (by simp)
    refine ⟨withFiles_step env cl h1,?_,?_⟩
    · intro p hp
      rw [remove_lookup hk, if_neg (by rw [hp]; simp)]
      exact h2 p hp
    · intro p hp
      rw [remove_lookup hk, if_neg (fun hb => hp y hy hb.2)]
      exact h3 p hp
  · rw [withFiles_self cl last h.listed]
    exact h

structure Chosen (cfg : Config) (env : Env) (cl : CommitLog) (held pre gone post : List Held) :
    Prop where
  enough : Enough cfg env cl
  parts : held = pre++gone++post
  chosen : gone.map Prod.fst = mergeCandidates cfg env cl
  before : ∀ y ∈ pre, ∀ z ∈ gone, y.2.base < z.2.base

theorem candidates_ptr {c : Segment}
    (h : c ∈ mergeCandidates cfg env cl) : c.ptr ≠ cl.activeSegment := by
  simp only [mergeCandidates, mem_filter, decide_eq_true_eq] at h
  exact h.2.1

theorem stageRaw_rep {cl cl' : CommitLog} {pre post : List Held} {y : Held}
    (h : Rep cl (pre++(y::ys)++post) last) (hu : Unstaged cl.fs.disk)
    (hb : ∀ z ∈ pre, z.2.base < y.2.base) (hne : framesOf (y::ys) ≠ [])
    (hm : stageAndSwapSegment lz4 cfg env ((y::ys).map Prod.fst) y.1.baseOffset
      ((framesOf (y::ys)).map writeOf) cl = (cl',r)) :
    Ends r (∃ a fin kept, a.base = y.2.base ∧ a.frames = framesOf (y::ys) ∧
      Replaced lz4 cl cl' pre (y::ys) post last a fin kept) (Failed cl cl' (pre++(y::ys)++post) last) := by
  have hord := h.ordered
  rw [append_assoc, append_assoc] at hord
  obtain ⟨_,htail,hpre⟩ := pairwise_append.mp hord
  obtain ⟨hgone,_,hpost⟩ := pairwise_append.mp htail
  obtain ⟨a,hab,haf,han⟩ := exists_joined hgone
  rw [(h.keeps y (by simp)).base, ← haf, ← hab] at hm
  refine (stageAndSwap_rep lz4 cfg env pre post last h hu (by rwa [haf])
    (fun z hz => by rw [hab]; exact ⟨hpre z hz y (by simp),hb z hz⟩)
    (fun z hz => han _ (fun w hw => hpost w hw z hz)) hm).imp ?_ id
  rintro ⟨fin,kept,hrep⟩
  exact ⟨a,fin,kept,hab,haf,hrep⟩

/-- What a merge of adjacent candidates does: nothing, removing empty segments or staging the
frames of the candidates. -/
theorem mergeSegments_cases (h : Rep cl held last)
    (ha : Enough cfg env cl → Adjacent (mergeCandidates cfg env cl) cl.segments) :
    mergeSegments lz4 cfg env cl = (cl,.ok ()) ∨
    (∃ pre gone post, Chosen cfg env cl held pre gone post ∧ (∀ y ∈ gone, y.2.frames = []) ∧
      mergeSegments lz4 cfg env cl = (removeSegments env (gone.map Prod.fst) cl,.ok ())) ∨
    ∃ pre y ys post, Chosen cfg env cl held pre (y::ys) post ∧ framesOf (y::ys) ≠ [] ∧
      mergeSegments lz4 cfg env cl = stageAndSwapSegment lz4 cfg env ((y::ys).map Prod.fst)
        y.1.baseOffset ((framesOf (y::ys)).map writeOf) cl := by
  simp only [mergeSegments, h.opened, Bool.false_eq_true, if_false]
  split
  · exact .inl rfl
  rename_i hmin
  have hmin : Enough cfg env cl := not_lt.mp hmin
  by_cases hne : mergeCandidates cfg env cl = []
  · left
    rw [hne]
    simp only [map_nil, all_nil, if_true, removeSegments, foldl_nil,
      not_mem_nil, not_false_eq_true, decide_true, filter_true]
  obtain ⟨pre,gone,post,rfl,hgone,hbefore⟩ := rep_split h
    (fun c hc => candidates_ptr cfg env cl hc) hne (ha hmin)
  have hraw : (mergeCandidates cfg env cl).map (Segment.readRawBytes cl.fs) =
      gone.map (fun y => raw y.2.frames) := by
    rw [← hgone, map_map]
    refine map_congr_left (fun y hy => ?_)
    exact readRawBytes_keeps (h.keeps y (by simp [hy]))
  rw [hraw, raw_framesOf]
  split
  · rename_i hall
    refine .inr (.inl ⟨pre,gone,post,⟨hmin,rfl,hgone,hbefore⟩,?_,by rw [hgone]⟩)
    intro y hy
    rw [all_eq_true] at hall
    exact (raw_eq_nil _).mp (List.isEmpty_iff.mp (hall _ (mem_map_of_mem hy)))
  rename_i hdata
  rcases gone with _ | ⟨y,ys⟩
  · exact absurd hgone.symm hne
  refine .inr (.inr ⟨pre,y,ys,post,⟨hmin,rfl,hgone,hbefore⟩,?_,by rw [← hgone]; rfl⟩)
  intro hn
  apply hdata
  rw [all_eq_true]
  intro r hr
  obtain ⟨z,hz,rfl⟩ := mem_map.mp hr
  rw [framesOf, flatMap_eq_nil_iff] at hn
  simp [hn z hz]

theorem merge_rep {cl cl' : CommitLog} {held : List Held}
    {r : Except Stop Unit} (h : Rep cl held last) (hu : Unstaged cl.fs.disk)
    (ha : Enough cfg env cl → Adjacent (mergeCandidates cfg env cl) cl.segments)
    (hm : mergeSegments lz4 cfg env cl = (cl',r)) :
    Ends r (cl' = cl ∨
      (∃ pre gone post, Chosen cfg env cl held pre gone post ∧ (∀ y ∈ gone, y.2.frames = []) ∧
        Dropped cl cl' pre gone post last) ∨
      ∃ pre y ys post a fin kept, Chosen cfg env cl held pre (y::ys) post ∧ a.base = y.2.base ∧
        a.frames = framesOf (y::ys) ∧ Replaced lz4 cl cl' pre (y::ys) post last a fin kept)
      (Failed cl cl' held last) := by
  rcases mergeSegments_cases lz4 cfg env cl held h ha with
    hs | ⟨pre,gone,post,hc,he,hs⟩ | ⟨pre,y,ys,post,hc,hne,hs⟩
  · rw [hs] at hm
    cases hm
    exact .of_done (.inl rfl)
  · rw [hs] at hm
    cases hm
    refine .of_done (.inr (.inl ⟨pre,gone,post,hc,he,?_⟩))
    exact removeSegments_dropped env cl pre gone post last (hc.parts ▸ h) hu
  rw [hs] at hm
  obtain rfl := hc.parts
  refine (stageRaw_rep lz4 cfg env h hu (fun z hz => hc.before z hz y (by simp)) hne hm).imp ?_ id
  rintro ⟨a,fin,kept,hab,haf,hx⟩
  exact .inr (.inr ⟨pre,y,ys,post,a,fin,kept,hc,hab,haf,hx⟩)

/-! ## Compaction -/

theorem counts_le (fs : List Frame) (lo hi : ℕ) (hs : fs.Pairwise (fun f g => f.stop ≤ g.base))
    (hl : ∀ f ∈ fs, lo ≤ f.base) (hh : ∀ f ∈ fs, f.stop ≤ hi) (hlo : lo ≤ hi) :
    lo+(fs.map Frame.count).sum ≤ hi := by
  induction fs generalizing lo with
  | nil => simpa using hlo
  | cons f fs ih =>
    rw [pairwise_cons] at hs
    have h1 := hl f (by simp)
    have h2 := ih f.stop hs.2 hs.1 (fun g hg => hh g (by simp [hg])) (hh f (by simp))
    simp only [map_cons, sum_cons, Frame.stop] at h2 ⊢
    omega

theorem readAllBatches_count (fs : Files) (y : Held) (h : Keeps fs.disk y.1 y.2)
    (bs : List RecordBatch) (hr : readAllBatches lz4 fs y.1 = .ok bs) :
    (bs.flatMap keyRecords).length ≤ (y.2.frames.map Frame.count).sum := by
  obtain ⟨mid,hs,hread,hb⟩ := readFrom_front lz4 fs y.1 y.2 h _ _ bs hr
  have h1 : (bs.flatMap keyRecords).length ≤
      ((mid.map (Frame.batch lz4)).flatMap keyRecords).length := (hb.flatMap _).length_le
  have h2 : ((mid.map (Frame.batch lz4)).flatMap keyRecords).length =
      (mid.map Frame.count).sum := by
    rw [length_flatMap, map_map]
    congr 1
    refine map_congr_left (fun f hf => ?_)
    simp [keyRecords, Frame.batch_records (hread f hf)]
  have h3 : (mid.map Frame.count).sum ≤ (y.2.frames.map Frame.count).sum :=
    (hs.map _).sum_le_sum (fun _ _ => Nat.zero_le _)
  omega

theorem readAllRecords_count (fs : Files) (held : List Held) (krs : List KeyRecord)
    (h : ∀ y ∈ held, Keeps fs.disk y.1 y.2)
    (hr : readAllRecords lz4 fs (held.map Prod.fst) = .ok krs) :
    krs.length ≤ ((framesOf held).map Frame.count).sum := by
  induction held generalizing krs with
  | nil =>
    cases hr
    simp
  | cons y held ih =>
    rw [map_cons, readAllRecords] at hr
    rcases hb : readAllBatches lz4 fs y.1 with e | bs
    · simp [hb] at hr
    rcases ht : readAllRecords lz4 fs (held.map Prod.fst) with e | rest
    · simp [hb, ht] at hr
    simp only [hb, ht, Except.ok.injEq] at hr
    have h1 := readAllBatches_count lz4 fs y (h y (by simp)) bs hb
    have h2 := ih rest (fun z hz => h z (by simp [hz])) ht
    rw [framesOf_cons, ← hr, length_append, map_append, sum_append]
    omega

theorem note_length (l : Latest) (kr : KeyRecord) : (l.note kr).all.length ≤ l.all.length+1 := by
  unfold Latest.note
  split
  · simp [Latest.all]
    omega
  have h : (l.keyed.insert (keyOf kr.record) kr).entries.length ≤ l.keyed.entries.length+1 := by
    exact Nat.succ_le_succ (List.Sublist.length_le (kerase_sublist _ _))
  simp only [Latest.all, length_append, length_map]
  omega

theorem survivors_length (krs : List KeyRecord) : (survivors order krs).length ≤ krs.length := by
  have h : ∀ (krs : List KeyRecord) (l : Latest),
      (krs.foldl Latest.note l).all.length ≤ l.all.length+krs.length := by
    intro krs
    induction krs with
    | nil => simp
    | cons kr krs ih =>
      intro l
      have h1 := ih (l.note kr)
      have h2 := note_length l kr
      rw [foldl_cons, length_cons]
      omega
  have h0 := h krs ⟨∅,[]⟩
  rw [survivors, length_insertionSort, (order.perm _).length_eq]
  have hz : (Latest.all ⟨∅,[]⟩).length = 0 := rfl
  omega

def Fits (lz4 : Lz4) (b : RecordBatch) : Prop :=
  ∀ e, encodeBatch lz4 b = .ok e → batchSize e = .ok e.length

instance (lz4 : Lz4) (b : RecordBatch) : Decidable (Fits lz4 b) :=
  match h : encodeBatch lz4 b with
  | .error _ => isTrue (by simp [Fits, h])
  | .ok e => decidable_of_iff (batchSize e = .ok e.length) (by simp [Fits, h])

structure Encodes (lz4 : Lz4) (b : RecordBatch) (f : Frame) : Prop where
  bytes : encodeBatch lz4 b = .ok f.bytes
  base : f.base = b.baseOffset
  count : f.count = b.recordCount

theorem group_encodes (base : ℕ) (rs : List Record) (hne : rs ≠ [])
    (hl : rs.length ≤ batchLimit) (hb : base+rs.length < 2^64)
    (hf : Fits lz4 (groupBatch base rs)) : ∃ f : Frame, Encodes lz4 (groupBatch base rs) f ∧
      f.base = base ∧ f.count = rs.length ∧ encodeGroup lz4 (groupBatch base rs) = writeOf f := by
  have hpos : rs.length ≠ 0 := by simpa using hne
  have hlim : batchLimit = 1000 := rfl
  have hbase : (groupBatch base rs).baseOffset = base := Nat.mod_eq_of_lt (by omega)
  have he : encodeBatch lz4 (groupBatch base rs) = .ok (frame (groupBatch base rs) compressionNone
      (appendRecords (groupBatch base rs).records)) := by
    have hc : (groupBatch base rs).recordCount ≠ 0 := hpos
    simp only [encodeBatch, hc, if_false, payload]
    rfl
  obtain ⟨f,h1,h2,h3⟩ := encoded_frame he (hf _ he)
    (by simp only [groupBatch]; omega) (by rw [hbase]; exact hb)
  refine ⟨f,⟨by rw [he, h1],h2,h3⟩,by rw [h2, hbase],h3,?_⟩
  simp [encodeGroup, he, writeOf, h1, h2, h3]

theorem groups_encode (n base : ℕ) (rs : List Record) (hn : rs.length ≤ n)
    (hb : base+rs.length < 2^64) (hf : ∀ g ∈ groups n base rs, Fits lz4 g) :
    ∃ fs : List Frame, List.Forall₂ (Encodes lz4) (groups n base rs) fs ∧
      (groups n base rs).map (encodeGroup lz4) = fs.map writeOf ∧
      fs.Pairwise (fun f g => f.stop ≤ g.base) ∧
      (∀ f ∈ fs, base ≤ f.base ∧ f.stop ≤ base+rs.length) ∧
      (rs ≠ [] → fs.getLast?.map Frame.stop = some (base+rs.length)) := by
  induction n generalizing base rs with
  | zero =>
    have hz : rs = [] := length_eq_zero_iff.mp (by omega)
    exact ⟨[],by simp [groups],rfl,by simp,by simp,fun h => absurd hz h⟩
  | succ n ih =>
    have hlim : batchLimit = 1000 := rfl
    by_cases hz : rs = []
    · exact ⟨[],by simp [groups, hz],by simp [groups, hz],by simp,by simp,fun h => absurd hz h⟩
    have hpos : 0 < rs.length := length_pos_iff.mpr hz
    have hg : groups (n+1) base rs = groupBatch base (rs.take batchLimit)::
        groups n (base+batchLimit) (rs.drop batchLimit) := by simp [groups, hz]
    rw [hg] at hf ⊢
    have htake : (rs.take batchLimit).length = min batchLimit rs.length := length_take
    have hdrop : (rs.drop batchLimit).length = rs.length-batchLimit := length_drop
    obtain ⟨f,h1,h2,h3,h4⟩ := group_encodes lz4 base (rs.take batchLimit)
      (by rw [← length_pos_iff]; omega) (by omega) (by omega) (hf _ (by simp))
    have hstop : f.stop = base+min batchLimit rs.length := by
      rw [Frame.stop, h2, h3, htake]
    by_cases hmore : rs.drop batchLimit = []
    · have hlen : rs.length ≤ batchLimit := by
        rw [drop_eq_nil_iff] at hmore
        exact hmore
      have hnil : groups n (base+batchLimit) (rs.drop batchLimit) = [] := by
        rw [hmore]
        cases n <;> simp [groups]
      rw [hnil]
      refine ⟨[f],by simpa using h1,by simp [h4],by simp,?_,fun _ => ?_⟩
      · intro g hgm
        rw [mem_singleton.mp hgm]
        omega
      · simp only [List.getLast?_singleton, Option.map_some, Option.some.injEq]
        omega
    have hlen : batchLimit < rs.length := by
      by_contra hcon
      exact hmore (drop_eq_nil_iff.mpr (by omega))
    obtain ⟨fs,i1,i2,i3,i4,i5⟩ := ih (base+batchLimit) (rs.drop batchLimit) (by omega) (by omega)
      (fun g hgm => hf g (by simp [hgm]))
    refine ⟨f::fs,List.Forall₂.cons h1 i1,by simp [h4, i2],?_,?_,fun _ => ?_⟩
    · rw [pairwise_cons]
      refine ⟨fun g hgm => ?_,i3⟩
      have := (i4 g hgm).1
      omega
    · intro g hgm
      rcases mem_cons.mp hgm with rfl | hgm
      · omega
      · have := i4 g hgm
        omega
    have hl := i5 hmore
    cases fs with
    | nil => simp at hl
    | cons g gs =>
      rw [List.getLast?_cons_cons, hl, hdrop,
        show base+batchLimit+(rs.length-batchLimit) = base+rs.length by omega]

theorem sealed_held {cl : CommitLog} {held : List Held} (h : Rep cl held last) :
    sealedSegments cl = held.map Prod.fst := by
  unfold sealedSegments
  split
  · rename_i hl
    rw [h.listed, length_map, length_append, length_singleton] at hl
    rw [length_eq_zero_iff.mp (show held.length = 0 by omega)]
    rfl
  rw [h.listed, map_append, filter_append, filter_eq_self.mpr]
  · simp [h.current]
  · intro s hs
    obtain ⟨y,hy,rfl⟩ := mem_map.mp hs
    simpa [h.current] using h.ptr_ne y hy

def compacted (order : Order) (base : ℕ) (krs : List KeyRecord) : List RecordBatch :=
  groups (survivors order krs).length base ((survivors order krs).map KeyRecord.record)

def CompactFits (lz4 : Lz4) (order : Order) (cl : CommitLog) : Prop :=
  ∀ s ∈ (sealedSegments cl).head?, ∀ krs, readAllRecords lz4 cl.fs (sealedSegments cl) = .ok krs →
    ∀ g ∈ compacted order s.baseOffset krs, Fits lz4 g

instance (lz4 : Lz4) (order : Order) (cl : CommitLog) : Decidable (CompactFits lz4 order cl) :=
  match h : readAllRecords lz4 cl.fs (sealedSegments cl) with
  | .error _ => isTrue (by simp [CompactFits, h])
  | .ok krs => decidable_of_iff (∀ s ∈ (sealedSegments cl).head?,
      ∀ g ∈ compacted order s.baseOffset krs, Fits lz4 g) (by simp [CompactFits, h])

theorem exists_survivors
    {y : Held} {krs : List KeyRecord} (h : Rep cl (y::ys) last) (hn : cl.nextOffset < 2^64)
    (hr : readAllRecords lz4 cl.fs ((y::ys).map Prod.fst) = .ok krs)
    (hne : survivors order krs ≠ []) (hf : ∀ g ∈ compacted order y.2.base krs, Fits lz4 g) :
    ∃ a : Extent, a.base = y.2.base ∧ a.finish = y.2.base+(survivors order krs).length ∧
      a.finish ≤ last.2.base ∧ a.frames ≠ [] ∧
      List.Forall₂ (Encodes lz4) (compacted order y.2.base krs) a.frames ∧
      writeBatches lz4 y.1.baseOffset ((survivors order krs).map KeyRecord.record) =
        a.frames.map writeOf := by
  obtain ⟨hord,hle⟩ := (pairwise_last).mp h.ordered
  obtain ⟨j,hjb,hjf,hjn⟩ := exists_joined hord
  have hcount : y.2.base+(survivors order krs).length ≤ last.2.base := by
    have h1 := survivors_length order krs
    have h2 := readAllRecords_count lz4 cl.fs (y::ys) krs h.keeps hr
    have h3 := counts_le j.frames j.base last.2.base j.sorted j.above
      (fun f hfm => le_trans (j.stop_le_finish f hfm) (hjn _ hle))
      (le_trans j.base_le_finish (hjn _ hle))
    rw [hjf] at h3
    omega
  have hnext : last.2.base ≤ cl.nextOffset := by
    rw [h.next]
    exact last.2.base_le_finish
  have hlen : ((survivors order krs).map KeyRecord.record).length = (survivors order krs).length :=
    length_map _
  obtain ⟨fs,henc,hwr,hsort,hbd,hlast⟩ := groups_encode lz4 (survivors order krs).length y.2.base
    ((survivors order krs).map KeyRecord.record) (by omega) (by omega) hf
  rw [hlen] at hbd hlast
  have hfin := hlast (by simpa using hne)
  have hfne : fs ≠ [] := by
    rintro rfl
    simp at hfin
  have hafin : (⟨y.2.base,fs,hsort,fun f hfm => (hbd f hfm).1⟩ : Extent).finish =
      y.2.base+(survivors order krs).length := by simp [Extent.finish, hfin]
  refine ⟨⟨y.2.base,fs,hsort,fun f hfm => (hbd f hfm).1⟩,rfl,hafin,by rw [hafin]; exact hcount,hfne,
    henc,?_⟩
  rw [(h.keeps y (by simp)).base, writeBatches, hlen, hwr]

theorem stageSurvivors_rep {cl cl' : CommitLog} {y : Held} {krs : List KeyRecord}
    (h : Rep cl (y::ys) last) (hu : Unstaged cl.fs.disk)
    (hn : cl.nextOffset < 2^64)
    (hr : readAllRecords lz4 cl.fs ((y::ys).map Prod.fst) = .ok krs)
    (hne : survivors order krs ≠ []) (hf : ∀ g ∈ compacted order y.2.base krs, Fits lz4 g)
    (hm : stageAndSwapSegment lz4 cfg env ((y::ys).map Prod.fst) y.1.baseOffset
      (writeBatches lz4 y.1.baseOffset ((survivors order krs).map KeyRecord.record)) cl = (cl',r)) :
    Ends r (∃ a fin kept, a.base = y.2.base ∧
      a.finish = y.2.base+(survivors order krs).length ∧ a.finish ≤ last.2.base ∧
      List.Forall₂ (Encodes lz4) (compacted order y.2.base krs) a.frames ∧
      Replaced lz4 cl cl' [] (y::ys) [] last a fin kept) (Failed cl cl' (y::ys) last) := by
  obtain ⟨a,hab,hafin,hle,hfne,henc,hwr⟩ := exists_survivors lz4 order cl h hn hr hne hf
  rw [hwr, (h.keeps y (by simp)).base, ← hab] at hm
  refine (stageAndSwap_rep lz4 cfg env [] [] last (by simpa using h) hu hfne
    (by simp) (by simpa using hle) hm).imp ?_ (by simp)
  rintro ⟨fin,kept,hrep⟩
  exact ⟨a,fin,kept,hab,hafin,hle,henc,hrep⟩

/-- What a compaction does: nothing, removing all sealed segments or staging the survivors. -/
theorem compact_cases (h : Rep cl held last) :
    (held = [] ∧ compact lz4 cfg env order cl = (cl,.ok ())) ∨
    (∃ e, readAllRecords lz4 cl.fs (held.map Prod.fst) = .error e ∧
      compact lz4 cfg env order cl = (cl,.error e)) ∨
    (∃ krs, readAllRecords lz4 cl.fs (held.map Prod.fst) = .ok krs ∧ survivors order krs = [] ∧
      compact lz4 cfg env order cl = (removeSegments env (held.map Prod.fst) cl,.ok ())) ∨
    ∃ y ys krs, held = y::ys ∧ readAllRecords lz4 cl.fs (held.map Prod.fst) = .ok krs ∧
      survivors order krs ≠ [] ∧ compact lz4 cfg env order cl =
        stageAndSwapSegment lz4 cfg env ((y::ys).map Prod.fst) y.1.baseOffset
          (writeBatches lz4 y.1.baseOffset ((survivors order krs).map KeyRecord.record)) cl := by
  have hs := sealed_held h
  simp only [compact, h.opened, Bool.false_eq_true, if_false, hs]
  rcases held with _ | ⟨y,ys⟩
  · exact .inl ⟨rfl,rfl⟩
  simp only [map_cons]
  rw [← map_cons]
  rcases hr : readAllRecords lz4 cl.fs ((y::ys).map Prod.fst) with e | krs
  · exact .inr (.inl ⟨e,rfl,rfl⟩)
  rcases hv : survivors order krs with _ | ⟨kr,rest⟩
  · exact .inr (.inr (.inl ⟨krs,rfl,hv,by simp only [hv]⟩))
  · refine .inr (.inr (.inr ⟨y,ys,krs,rfl,rfl,by rw [hv]; simp,?_⟩))
    simp only [hv]
    rfl

theorem compact_rep {cl cl' : CommitLog} {held : List Held} (h : Rep cl held last)
    (hu : Unstaged cl.fs.disk) (hn : cl.nextOffset < 2^64) (hf : CompactFits lz4 order cl)
    (hm : compact lz4 cfg env order cl = (cl',r)) :
    Ends r (held = [] ∧ cl' = cl ∨
      (∃ krs, readAllRecords lz4 cl.fs (held.map Prod.fst) = .ok krs ∧
        survivors order krs = [] ∧ Dropped cl cl' [] held [] last) ∨
      ∃ y ys krs a fin kept, held = y::ys ∧
        readAllRecords lz4 cl.fs (held.map Prod.fst) = .ok krs ∧ a.base = y.2.base ∧
        a.finish = y.2.base+(survivors order krs).length ∧ a.finish ≤ last.2.base ∧
        List.Forall₂ (Encodes lz4) (compacted order y.2.base krs) a.frames ∧
        Replaced lz4 cl cl' [] held [] last a fin kept) (Failed cl cl' held last) := by
  rcases compact_cases lz4 cfg env order cl held h with
    ⟨hnil,hs⟩ | ⟨e,he,hs⟩ | ⟨krs,hk,hv,hs⟩ | ⟨y,ys,krs,rfl,hk,hv,hs⟩
  · rw [hs] at hm
    cases hm
    exact .of_done (.inl ⟨hnil,rfl⟩)
  · rw [hs] at hm
    cases hm
    exact ⟨by simp,fun _ _ => ⟨h,hu,rfl,fun _ _ => rfl,fun _ _ => rfl⟩⟩
  · rw [hs] at hm
    cases hm
    refine .of_done (.inr (.inl ⟨krs,hk,hv,?_⟩))
    exact removeSegments_dropped env cl [] held [] last (by simpa using h) hu
  rw [hs] at hm
  have hfit : ∀ g ∈ compacted order y.2.base krs, Fits lz4 g := by
    rw [← (h.keeps y (by simp)).base]
    have hsealed := sealed_held h
    exact hf y.1 (by rw [hsealed]; simp) krs (by rw [hsealed]; exact hk)
  refine (stageSurvivors_rep lz4 cfg env order h hu hn hk hv hfit hm).imp ?_ id
  rintro ⟨a,fin,kept,hb,hfi,hle,hen,hrep⟩
  exact .inr (.inr ⟨y,ys,krs,a,fin,kept,rfl,hk,hb,hfi,hle,hen,hrep⟩)

end GoCommon.ForgeLogRewrites
