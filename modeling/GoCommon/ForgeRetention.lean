import GoCommon.Sweep
import GoCommon.ForgeMerge

/-!
# Retention

A retention pass sweeps the segments before the active one: it drops the ones
created before a cutoff, and drops from the low end until the log is small
enough. A merged segment counts as created when it was merged, so it can be
younger than the segments behind it. The order of the segments is enough to
say what a pass drops, in any run of appends, merges and retention passes.
-/

set_option autoImplicit false

namespace GoCommon.ForgeRetention
open List ByteWords StepRuns Sweep ForgeRecord ForgeSegment ForgeCommitLog ForgeLogState
open ForgeRewrite ForgeLogRuns ForgeMerge

/-! ## The segment list -/

structure Listed (cl : CommitLog) (others : List Segment) (last : Segment) : Prop where
  segments : cl.segments = others++[last]
  current : last.ptr = cl.activeSegment
  differ : ∀ s ∈ others, s.ptr ≠ cl.activeSegment
  allocated : ∀ s ∈ cl.segments, s.ptr < cl.nextPtr
  below : ∀ s ∈ others, s.baseOffset ≤ last.baseOffset
  reached : last.baseOffset ≤ cl.nextOffset

variable {last s : Segment} {others : List Segment} {cl' : CommitLog} {r : Except Stop Unit}

section Lists
variable {cl : CommitLog} {others : List Segment} {last : Segment} (h : Listed cl others last)
include h

theorem Listed.active : cl.active = some last := by
  have hn : others.find? (fun s => decide (s.ptr = cl.activeSegment)) = none := by
    rw [List.find?_eq_none]
    intro s hs
    simpa using h.differ s hs
  rw [CommitLog.active, h.segments, List.find?_append, hn]
  simp [h.current]

theorem Listed.refile (fs : Files) {n : ℕ} (hn : cl.nextPtr ≤ n) :
    Listed { cl with fs := fs, nextPtr := n } others last :=
  ⟨h.segments,h.current,h.differ,fun s hs => lt_of_lt_of_le (h.allocated s hs) hn,h.below,h.reached⟩

theorem Listed.update (fs : Files) {n : ℕ} (hp : s.ptr = last.ptr)
    (hb : s.baseOffset = last.baseOffset) (hn : cl.nextOffset ≤ n) :
    Listed { cl.update s with fs := fs, nextOffset := n } others s := by
  have ho : others.map (fun t => if t.ptr = s.ptr then s else t) = others := by
    refine (map_congr_left (fun t ht => if_neg ?_)).trans (map_id' others)
    rw [hp, h.current]
    exact h.differ t ht
  have hs : (cl.update s).segments = others++[s] := by
    rw [CommitLog.update, h.segments, map_append, ho]
    simp [hp]
  refine ⟨hs,hp.trans h.current,h.differ,?_,fun t ht => hb ▸ h.below t ht,
    hb ▸ le_trans h.reached hn⟩
  intro t ht
  rw [hs] at ht
  rcases mem_append.mp ht with ht | ht
  · exact h.allocated t (by rw [h.segments]; simp [ht])
  · rw [mem_singleton.mp ht, hp]
    exact h.allocated last (by rw [h.segments]; simp)

theorem Listed.start (fs : Files) (hp : s.ptr = cl.nextPtr)
    (hb : s.baseOffset = cl.nextOffset) :
    Listed { cl with
      fs := fs
      segments := cl.segments++[s]
      activeSegment := s.ptr
      nextPtr := cl.nextPtr+1 } cl.segments s := by
  refine ⟨rfl,rfl,?_,?_,?_,le_of_eq hb⟩
  · intro t ht
    have := h.allocated t ht
    change t.ptr ≠ s.ptr
    omega
  · intro t ht
    change t.ptr < cl.nextPtr+1
    rcases mem_append.mp ht with ht | ht
    · have := h.allocated t ht
      omega
    · rw [mem_singleton.mp ht]
      omega
  intro t ht
  rw [hb]
  rw [h.segments] at ht
  rcases mem_append.mp ht with ht | ht
  · exact le_trans (h.below t ht) h.reached
  · rw [mem_singleton.mp ht]
    exact h.reached

theorem Listed.remove (env : Env) (gone : List Segment)
    (hg : ∀ s ∈ gone, s.ptr ≠ cl.activeSegment) : ∃ left, left.Sublist others ∧
      Listed (removeSegments env gone cl) left last := by
  have hlast : ∀ s ∈ gone, s.ptr ≠ last.ptr := fun s hs => h.current ▸ hg s hs
  have hsub : (others.filter (fun s => decide (s.ptr ∉ gone.map Segment.ptr))).Sublist others :=
    filter_sublist
  refine ⟨_,hsub,?_,h.current,fun s hs => h.differ s (hsub.subset hs),?_,
    fun s hs => h.below s (hsub.subset hs),h.reached⟩
  · rw [removeSegments, h.segments]
    simpa using hlast
  · intro s hs
    exact h.allocated s (filter_sublist.subset hs)

end Lists

theorem mem_insertSegmentSorted (s t : Segment) (xs : List Segment) :
    t ∈ insertSegmentSorted s xs ↔ t = s ∨ t ∈ xs := by
  induction xs with
  | nil => simp [insertSegmentSorted]
  | cons x xs ih =>
    rw [insertSegmentSorted]
    split
    · rw [mem_cons, mem_cons]
      tauto
    · simp

theorem insertSegmentSorted_before (xs : List Segment) (h : s.baseOffset ≤ last.baseOffset) :
    insertSegmentSorted s (xs++[last]) = insertSegmentSorted s xs++[last] := by
  induction xs with
  | nil => simp [insertSegmentSorted, h]
  | cons x xs ih =>
    simp only [cons_append, insertSegmentSorted, ih]
    split <;> rfl

variable {cl : CommitLog} (lz4 : Lz4) (cfg : Config) (env : Env)

theorem Listed.insert
    (h : Listed cl others last) (s : Segment) (fs : Files) (hp : s.ptr = cl.nextPtr)
    (hb : s.baseOffset ≤ last.baseOffset) :
    Listed { cl with
      fs := fs
      segments := insertSegmentSorted s cl.segments
      nextPtr := cl.nextPtr+1 } (insertSegmentSorted s others) last := by
  have hlt := h.allocated last (by rw [h.segments]; simp)
  refine ⟨?_,h.current,?_,?_,?_,h.reached⟩
  · rw [h.segments, insertSegmentSorted_before others hb]
  · intro t ht
    rcases (mem_insertSegmentSorted s t others).mp ht with rfl | ht
    · rw [← h.current]
      omega
    · exact h.differ t ht
  · intro t ht
    change t.ptr < cl.nextPtr+1
    rcases (mem_insertSegmentSorted s t _).mp ht with rfl | ht
    · omega
    · have := h.allocated t ht
      omega
  intro t ht
  rcases (mem_insertSegmentSorted s t others).mp ht with rfl | ht
  · exact hb
  · exact h.below t ht

/-! ## Steps -/

theorem openSegment_named {dir : Dir} {base ptr : ℕ} {fs fs' : Files}
    (h : openSegment lz4 env dir base ptr fs = (fs',.ok s)) :
    s.ptr = ptr ∧ s.baseOffset = base := by
  simp only [ForgeSegment.openSegment, Segment.recover] at h
  split at h
  · cases h
    exact ⟨rfl,rfl⟩
  split at h
  · cases h
    exact ⟨rfl,rfl⟩
  · split at h
    · cases h
    · split at h <;> cases h <;> exact ⟨rfl,rfl⟩

theorem append_named {e : Bytes} {base count : ℕ} {fs fs' : Files}
    {s' : Segment} (h : s.append cfg env e base count fs = .ok (fs',s')) :
    s'.ptr = s.ptr ∧ s'.baseOffset = s.baseOffset := by
  unfold Segment.append at h
  split at h
  · cases h
  · simp only [Except.ok.injEq, Segment.syncDue] at h
    split at h <;> cases h <;> exact ⟨rfl,rfl⟩

theorem sealSegment_base (s : Segment) : (s.sealSegment env).baseOffset = s.baseOffset := by
  unfold Segment.sealSegment
  split_ifs <;> rfl

theorem rollIfFull_listed {last : Segment} (h : Listed cl others last)
    (hr : cl.rollIfFull lz4 cfg env = (cl',r)) :
    cl'.nextOffset = cl.nextOffset ∧ ∃ others' last', Listed cl' others' last' := by
  simp only [CommitLog.rollIfFull, h.active] at hr
  split at hr
  · have hu := h.update cl.fs (sealSegment_ptr env last)
      (sealSegment_base env last) (le_refl _)
    unfold CommitLog.newSegment at hr
    split at hr
    · rename_i fs e ho
      cases hr
      exact ⟨rfl,_,_,hu.refile fs (le_refl _)⟩
    rename_i fs s ho
    obtain ⟨hp,hb⟩ := openSegment_named _ _ ho
    cases hr
    exact ⟨rfl,_,_,hu.start fs hp hb⟩
  · cases hr
    exact ⟨rfl,_,_,h⟩

theorem append_listed {batch : RecordBatch} {r : Except Stop ℕ}
    (h : Listed cl others last) (hn : cl.nextOffset+batch.records.length < 2^64)
    (ha : cl.append lz4 cfg env batch = (cl',r)) : ∃ others' last', Listed cl' others' last' := by
  unfold CommitLog.append at ha
  split at ha
  · cases ha
    exact ⟨_,_,h⟩
  split at ha
  · cases ha
    exact ⟨_,_,h⟩
  split at ha
  · cases ha
    exact ⟨_,_,h⟩
  rcases hroll : cl.rollIfFull lz4 cfg env with ⟨cl1,e1 | u⟩
  · rw [hroll] at ha
    cases ha
    exact (rollIfFull_listed lz4 cfg env h hroll).2
  obtain ⟨hnext,others1,last1,h1⟩ := rollIfFull_listed lz4 cfg env h hroll
  rw [hroll] at ha
  simp only [CommitLog.appendEncoded, h1.active] at ha
  split at ha
  · cases ha
    exact ⟨_,_,h1⟩
  rename_i fs s hs
  obtain ⟨hp,hb⟩ := append_named _ _ hs
  cases ha
  refine ⟨_,_,h1.update fs hp hb ?_⟩
  change cl1.nextOffset ≤ (cl1.nextOffset+batch.records.length)%2^64
  omega

theorem stageAndSwap_listed {gone : List Segment} {base : ℕ} {writes : List (Except Stop Write)}
    {r : Except Stop Unit} (h : Listed cl others last)
    (hg : ∀ s ∈ gone, s.ptr ≠ cl.activeSegment) (hb : base ≤ last.baseOffset)
    (hs : stageAndSwapSegment lz4 cfg env gone base writes cl = (cl',r)) :
    ∃ others', Listed cl' others' last := by
  unfold stageAndSwapSegment at hs
  split at hs
  · cases hs
    exact ⟨_,h.refile _ (le_refl _)⟩
  split at hs
  · cases hs
    exact ⟨_,h.refile _ (le_refl _)⟩
  rename_i fs1 s1 _ _ fs2 s2 _
  have h1 := h.refile (s2.close env fs2) (Nat.le_succ _)
  obtain ⟨left,_,h2⟩ := h1.remove env gone hg
  unfold swapSegment at hs
  dsimp only at hs
  split at hs
  · cases hs
    exact ⟨_,h2.refile _ (le_refl _)⟩
  rename_i fs s ho
  obtain ⟨hp,hbase⟩ := openSegment_named _ _ ho
  cases hs
  refine ⟨_,h2.insert (s.sealSegment env) fs ?_ ?_⟩
  · rw [sealSegment_ptr, hp]
  · rw [sealSegment_base, hbase]
    exact hb

theorem merge_listed {last : Segment} (h : Listed cl others last)
    (hm : mergeSegments lz4 cfg env cl = (cl',r)) : ∃ others', Listed cl' others' last := by
  have hcand : ∀ s ∈ mergeCandidates cfg env cl, s ∈ cl.segments ∧ s.ptr ≠ cl.activeSegment := by
    intro s hs
    rw [mergeCandidates, mem_filter] at hs
    simp only [decide_eq_true_eq] at hs
    exact ⟨hs.1,hs.2.1⟩
  unfold mergeSegments at hm
  split at hm
  · cases hm
    exact ⟨_,h⟩
  dsimp only at hm
  split at hm
  · cases hm
    exact ⟨_,h⟩
  split at hm
  · cases hm
    obtain ⟨left,_,hl⟩ := h.remove env _ (fun s hs => (hcand s hs).2)
    exact ⟨left,hl⟩
  split at hm
  · cases hm
    exact ⟨_,h⟩
  rename_i first rest hc
  obtain ⟨hfirst,hne⟩ := hcand first (by rw [hc]; simp)
  rw [h.segments] at hfirst
  refine stageAndSwap_listed lz4 cfg env h
    (fun s hs => (hcand s hs).2) ?_ hm
  rcases mem_append.mp hfirst with hf | hf
  · exact h.below first hf
  · rw [mem_singleton.mp hf]

/-! ## A pass -/

def expired (cfg : Config) (env : Env) (s : Segment) : Bool :=
  s.created < env.now-cfg.retentionTime

def bytes (s : Segment) : ℤ := s.size

theorem retain_sweep (others : List Segment) (hd : ∀ s ∈ others, s.ptr ≠ cl.activeSegment)
    (hl : last.ptr = cl.activeSegment) (total : ℤ) (fs : Files) :
    (retain env (cl.outdated cfg env) total (others++[last]) fs).2 =
      sweep (expired cfg env) bytes cfg.retentionBytes total others++[last] := by
  induction others generalizing total fs with
  | nil => simp [retain, CommitLog.outdated, hl, sweep]
  | cons s others ih =>
    have hs := hd s (by simp)
    have hrest : ∀ t ∈ others, t.ptr ≠ cl.activeSegment := fun t ht => hd t (by simp [ht])
    have hgone : cl.outdated cfg env total s = true ↔
        expired cfg env s = true ∨ cfg.retentionBytes < total := by
      simp [CommitLog.outdated, expired, hs]
    rw [cons_append, retain, sweep]
    by_cases hg : expired cfg env s = true ∨ cfg.retentionBytes < total
    · rw [if_pos (hgone.mpr hg), if_pos hg]
      exact ih hrest _ _
    · rw [if_neg (fun hx => hg (hgone.mp hx)), if_neg hg, cons_append, ← ih hrest total fs]

section Passes
variable {cl : CommitLog} {others : List Segment} {last : Segment} (h : Listed cl others last)
include h

theorem totalSize_listed : cl.totalSize = bytes last+weigh bytes others := by
  rw [CommitLog.totalSize, h.segments, map_append, sum_append]
  rw [add_comm]
  rfl

theorem enforceRetention_segments (cfg : Config) (env : Env) :
    (cl.enforceRetention cfg env).segments = sweep (expired cfg env) bytes cfg.retentionBytes
      (bytes last+weigh bytes others) others++[last] := by
  have hr := retain_sweep cfg env others h.differ h.current cl.totalSize cl.fs
  rw [← h.segments, totalSize_listed h] at hr
  rw [← hr, CommitLog.enforceRetention, totalSize_listed h]

theorem enforceRetention_listed (cfg : Config) (env : Env) : Listed (cl.enforceRetention cfg env)
    (sweep (expired cfg env) bytes cfg.retentionBytes (bytes last+weigh bytes others) others)
    last := by
  have hsub := sweep_sublist (expired cfg env) bytes cfg.retentionBytes
    (bytes last+weigh bytes others) others
  have hseg := enforceRetention_segments h cfg env
  refine ⟨hseg,h.current,fun s hs => h.differ s (hsub.subset hs),?_,
    fun s hs => h.below s (hsub.subset hs),h.reached⟩
  intro s hs
  rw [hseg] at hs
  refine h.allocated s ?_
  rw [h.segments]
  exact (hsub.append_right [last]).subset hs

end Passes

/-! ## Runs -/

def Paced : LogOp → CommitLog → Prop
  | .append _ batch, cl => cl.nextOffset+batch.records.length < 2^64
  | .mergeSegments _, _ => True
  | .enforceRetention _, _ => True
  | _, _ => False

instance : ∀ op cl, Decidable (Paced op cl)
  | .append _ batch, cl => inferInstanceAs (Decidable (cl.nextOffset+batch.records.length < 2^64))
  | .mergeSegments _, _ => isTrue trivial
  | .enforceRetention _, _ => isTrue trivial
  | .deleteBefore _ _, _ => isFalse id
  | .compact _ _, _ => isFalse id

theorem paced_listed {cl0 cl : CommitLog} (h0 : Fresh lz4 cl0)
    (h : Reaches (Step lz4 cfg) Paced cl0 cl) : ∃ others last, Listed cl others last := by
  refine h.invariant (fun cl => ∃ others last, Listed cl others last) ?_ ?_
  · obtain ⟨last,hw,he⟩ := fresh_whole h0
    have hrep := hw.exact.rep
    refine ⟨[],last.1,by rw [hrep.listed]; rfl,hrep.current.symm,by simp,?_,by simp,?_⟩
    · intro s hs
      rw [hrep.listed] at hs
      obtain ⟨y,hy,rfl⟩ := mem_map.mp hs
      exact hrep.allocated y hy
    · rw [hrep.live.base, he]
      exact Nat.zero_le _
  rintro op t u ⟨others,last,hl⟩ hg hs
  cases op with
  | append env batch =>
    obtain ⟨r,hr,_,_⟩ := returned_some hs
    exact append_listed lz4 cfg env hl hg hr
  | mergeSegments env =>
    obtain ⟨r,hr,_,_⟩ := returned_some hs
    obtain ⟨others',hl'⟩ := merge_listed lz4 cfg env hl hr
    exact ⟨others',last,hl'⟩
  | enforceRetention env =>
    cases hs
    exact ⟨_,_,enforceRetention_listed hl cfg env⟩
  | deleteBefore => exact hg.elim
  | compact => exact hg.elim

def Contiguous (cl : CommitLog) : Prop :=
  cl.segments.IsChain (fun s t => s.nextOffset = t.baseOffset) ∧
    ∀ s ∈ cl.segments.getLast?, s.nextOffset = cl.newestOffset

instance (cl : CommitLog) : Decidable (Contiguous cl) := inferInstanceAs (Decidable (_ ∧ _))

/-- No expired segment stands behind one that has not expired and from which on
the log is small enough. The active segment does not count. -/
def OldestFirst (cfg : Config) (env : Env) (cl : CommitLog) : Prop :=
  ∀ pre s post, cl.segments = pre++s::post → s.ptr ≠ cl.activeSegment →
    expired cfg env s = false → weigh bytes (s::post) ≤ cfg.retentionBytes →
    ∀ t ∈ post, t.ptr ≠ cl.activeSegment → expired cfg env t = false

theorem oldestFirst_iff
    (h : Listed cl others last) (cfg : Config) (env : Env) : OldestFirst cfg env cl ↔
      Aligned (expired cfg env) bytes cfg.retentionBytes (bytes last) others := by
  have hweigh : ∀ xs, weigh bytes (xs++[last]) = bytes last+weigh bytes xs := by
    simp [weigh, add_comm]
  constructor
  · intro ho pre s post hp hs hle t ht
    have hsm : s ∈ others := by simp [hp]
    have htm : t ∈ others := by simp [hp, ht]
    refine ho pre s (post++[last]) (by rw [h.segments, hp]; simp) (h.differ s hsm) hs ?_ t
      (by simp [ht]) (h.differ t htm)
    rw [← cons_append, hweigh]
    exact hle
  intro ha pre s post hp hne hs hle t ht htne
  rw [h.segments] at hp
  rcases eq_nil_or_concat post with rfl | ⟨post',z,rfl⟩
  · cases ht
  rw [concat_eq_append] at hp hle ht
  have hp' : others++[last] = (pre++s::post')++[z] := by rw [hp]; simp
  obtain ⟨ho,hz⟩ := append_inj' hp' rfl
  obtain ⟨rfl,_⟩ := List.cons.inj hz
  rw [← cons_append, hweigh] at hle
  rcases mem_append.mp ht with ht | ht
  · exact ha pre s post' ho hs hle t ht
  · rw [mem_singleton.mp ht] at htne
    exact absurd h.current htne

theorem contiguous_suffix {left : List Segment}
    (h : Listed cl others last) (h' : Listed cl' left last)
    (hn : cl'.newestOffset = cl.newestOffset) (hs : cl'.segments <:+ cl.segments)
    (hc : Contiguous cl) : Contiguous cl' := by
  refine ⟨hc.1.suffix hs,?_⟩
  have hlast := hc.2
  rw [h.segments] at hlast
  rw [h'.segments, hn]
  simpa using hlast

/-- In every run of appends, merges and retention passes, a pass spares the
active segment and leaves the log small enough or the active segment alone. It
removes an initial part of the segments exactly if no expired segment stands
behind one that is kept. -/
theorem retention_suffix_iff (lz4 : Lz4) (cfg : Config) (cl0 cl : CommitLog) (env : Env)
    (h0 : Fresh lz4 cl0) (h : Reaches (Step lz4 cfg) Paced cl0 cl) :
    (∃ s, cl.active = some s ∧ (cl.enforceRetention cfg env).active = some s ∧
      ((cl.enforceRetention cfg env).totalSize ≤ cfg.retentionBytes ∨
        (cl.enforceRetention cfg env).segments = [s])) ∧
    ((cl.enforceRetention cfg env).segments <:+ cl.segments ∧
      (Contiguous cl → Contiguous (cl.enforceRetention cfg env)) ↔ OldestFirst cfg env cl) := by
  obtain ⟨others,last,hl⟩ := paced_listed lz4 cfg h0 h
  have hl' := enforceRetention_listed hl cfg env
  have hw : ∀ s, 0 ≤ bytes s := fun s => Int.natCast_nonneg _
  have hsuffix : (cl.enforceRetention cfg env).segments <:+ cl.segments ↔
      OldestFirst cfg env cl := by
    rw [oldestFirst_iff hl, ← sweep_suffix_iff (expired cfg env) bytes cfg.retentionBytes hw,
      hl'.segments, hl.segments, suffix_append_inj_of_length_eq rfl]
    exact and_iff_left rfl
  refine ⟨⟨last,hl.active,hl'.active,?_⟩,?_⟩
  · rcases sweep_weight (expired cfg env) bytes cfg.retentionBytes hw (bytes last) others with
      hle | hn
    · left
      rw [totalSize_listed hl']
      exact hle
    · right
      rw [hl'.segments, hn]
      rfl
  · rw [← hsuffix]
    exact ⟨fun hx => hx.1,fun hx => ⟨hx,contiguous_suffix hl hl' rfl hx⟩⟩

def week : ℤ := 7*24*3600

/-- The merged segment and the two behind it have expired. -/
theorem merged_prefix_removed : ∃ cl, runAll (exec noLz4 eager) pairwise (smallLog 0) = some cl ∧
    cl.segments.map Segment.baseOffset = [0,2,3,4,5] ∧
    (cl.enforceRetention eager (seconds (week+650))).segments.map Segment.baseOffset = [4,5] ∧
    Contiguous (cl.enforceRetention eager (seconds (week+650))) ∧
    OldestFirst eager (seconds (week+650)) cl := by
  obtain ⟨cl,hcl,h1,h2,h3,h4⟩ : ∃ c ∈ runAll (exec noLz4 eager) pairwise (smallLog 0),
      c.segments.map Segment.baseOffset = [0,2,3,4,5] ∧
      (c.enforceRetention eager (seconds (week+650))).segments.map Segment.baseOffset = [4,5] ∧
      (c.enforceRetention eager (seconds (week+650))).segments <:+ c.segments ∧
      Contiguous (c.enforceRetention eager (seconds (week+650))) := by decide +kernel
  have hiff := (retention_suffix_iff noLz4 eager (smallLog 0) cl (seconds (week+650))
    (smallLog_fresh 0) (reaches_of_runAll _ _ (by decide +kernel) hcl)).2
  exact ⟨cl,hcl,h1,h2,h4,hiff.mp ⟨h3,fun _ => h4⟩⟩

/-- The merged segment has not expired and the two behind it have. -/
theorem merged_segment_leaves_hole : ∃ cl, Fresh noLz4 (smallLog 0) ∧
    runAll (exec noLz4 eager) pairwise (smallLog 0) = some cl ∧
    cl.segments.map Segment.baseOffset = [0,2,3,4,5] ∧ Contiguous cl ∧
    (cl.enforceRetention eager (seconds (week+500))).segments.map Segment.baseOffset = [0,4,5] ∧
    ¬(cl.enforceRetention eager (seconds (week+500))).segments <:+ cl.segments ∧
    ¬Contiguous (cl.enforceRetention eager (seconds (week+500))) := by
  obtain ⟨cl,hcl,hall⟩ : ∃ c ∈ runAll (exec noLz4 eager) pairwise (smallLog 0),
      c.segments.map Segment.baseOffset = [0,2,3,4,5] ∧ Contiguous c ∧
      (c.enforceRetention eager (seconds (week+500))).segments.map Segment.baseOffset = [0,4,5] ∧
      ¬(c.enforceRetention eager (seconds (week+500))).segments <:+ c.segments ∧
      ¬Contiguous (c.enforceRetention eager (seconds (week+500))) := by decide +kernel
  exact ⟨cl,smallLog_fresh 0,hcl,hall⟩

end GoCommon.ForgeRetention
