import GoCommon.ForgeDrain

/-!
# Merging preserves a log

Appends and merges of adjacent candidates keep the segments of a log a tiling
of its offsets, and a merge leaves the stored frames and their order as they
are. Candidates are picked by creation time, so earlier merges can leave a
segment between two candidates; its records are then skipped.
-/

set_option autoImplicit false

namespace GoCommon.ForgeMerge
open List FileDisk Tiling StepRuns ForgeRecord ForgeRecordCodec ForgeSegment ForgeFrames
open ForgeExtents ForgeCommitLog ForgeLogState ForgeRewrite ForgeLogSwap ForgeLogRewrites ForgeLogRuns
open ForgeLogView ForgeDrain

/-! ## Tilings -/

variable {cfg : Config} {env : Env} {cl : CommitLog} {held : List Held} {last : Held} {next : ℕ}
  {lz4 : Lz4}

theorem tiled_rolled {d : Disk Path}
    {held' : List Held} {last' : Held} (h : Tiled (held++[last]) cl.nextOffset)
    (hr : Rolled cfg env cl held last d held' last') : Tiled (held'++[last']) cl.nextOffset := by
  cases hr with
  | stay => exact h
  | roll s _ hs =>
    obtain ⟨h1,h2⟩ := (tiles_last).mp h
    refine (tiles_last).mpr ⟨(tiles_last).mpr ⟨h1,h2⟩,?_⟩
    exact Extent.finish_nil _ rfl

theorem tiled_push (h : Tiled (held++[last]) next)
    (s : Segment) {f : Frame} (hle : last.2.finish ≤ f.base) :
    Tiled (held++[(s,last.2.push f hle)]) f.stop :=
  (tiles_last).mpr ⟨((tiles_last).mp h).1,last.2.push_finish hle⟩

theorem joined_finish (lo hi : ℕ) (ys : List Held)
    (h : Tiles (fun y : Held => y.2.base) (fun y => y.2.finish) lo ys hi) :
    ((framesOf ys).getLast?.map Frame.stop).getD lo = hi := by
  induction ys using List.reverseRecOn generalizing hi with
  | nil => exact h
  | append_singleton ys y ih =>
    obtain ⟨h1,rfl⟩ := (tiles_last).mp h
    have hc : framesOf (ys++[y]) = framesOf ys++y.2.frames := by simp [framesOf]
    rcases eq_nil_or_concat y.2.frames with hn | ⟨fs,f,hf⟩
    · rw [hc, hn, append_nil, y.2.finish_nil hn]
      exact ih _ h1
    · rw [concat_eq_append] at hf
      rw [hc, hf, y.2.finish_last fs f hf]
      simp

theorem tiled_dropped {pre gone post : List Held} (h : Tiled (pre++gone++post) next)
    (hg : ∀ y ∈ gone, y.2.frames = []) : Tiled (pre++post) next := by
  rw [Tiled, append_assoc, tiles_append] at h
  obtain ⟨mid,h1,h2⟩ := h
  obtain ⟨mid',h3,h4⟩ := (tiles_append).mp h2
  have he := tiles_trivial _ _ _ h3 (fun y hy => y.2.finish_nil (hg y hy))
  exact (tiles_append).mpr ⟨mid,h1,he ▸ h4⟩

theorem tiled_joined {pre ys post : List Held} {y : Held} (fin : Segment) {a : Extent}
    (h : Tiled (pre++(y::ys)++post) next) (hb : a.base = y.2.base)
    (hf : a.frames = framesOf (y::ys)) : Tiled (pre++(fin,a)::post) next := by
  rw [Tiled, append_assoc, tiles_append] at h
  obtain ⟨mid,h1,h2⟩ := h
  obtain ⟨mid',h3,h4⟩ := (tiles_append).mp h2
  have hmid : a.base = mid := hb.trans h3.1
  have hfin : a.finish = mid' := by
    rw [Extent.finish, hf, hmid]
    exact joined_finish mid mid' (y::ys) h3
  rw [← hfin] at h4
  exact (tiles_append).mpr ⟨mid,h1,hmid,h4⟩

/-! ## Steps -/

structure Whole (lz4 : Lz4) (cl : CommitLog) (held : List Held) (last : Held) : Prop where
  exact : Exact lz4 cl held last
  tiled : Tiled (held++[last]) cl.nextOffset

theorem append_whole {cl' : CommitLog} {batch : RecordBatch} {r : Except Stop ℕ}
    (h : Whole lz4 cl held last) (hf : Fair lz4 cfg env cl batch)
    (ha : cl.append lz4 cfg env batch = (cl',r)) : ∃ held' last', Whole lz4 cl' held' last' ∧
      ((framesOf (held'++[last']) = framesOf (held++[last]) ∧ cl'.nextOffset = cl.nextOffset ∧
          ∃ e, r = .error e) ∨
        ∃ f, framesOf (held'++[last']) = framesOf (held++[last])++[f] ∧ f.base = cl.nextOffset ∧
          cl'.nextOffset = f.stop ∧ r = .ok f.base ∧
          (f.batch lz4).records = (assignOffsets cl.nextOffset batch).records.map asRead) := by
  rcases append_exact lz4 h.exact hf ha with
    ⟨rfl,e,he⟩ | ⟨d,held1,last1,hr,_,hout⟩
  · exact ⟨held,last,h,.inl ⟨rfl,rfl,e,he⟩⟩
  have ht := tiled_rolled h.tiled hr
  have hfr : framesOf (held1++[last1]) = framesOf (held++[last]) := by
    cases hr with
    | stay => rfl
    | roll => simp [framesOf, Extent.empty]
  rcases hout with ⟨e,he,hex⟩ | ⟨f,hres,henc,hrecs,s,hle,_,hex⟩
  · have hn : cl'.nextOffset = cl.nextOffset := by
      rw [hex.rep.next]
      exact ((tiles_last).mp ht).2
    exact ⟨held1,last1,⟨hex,by rw [hn]; exact ht⟩,.inl ⟨hfr,hn,_,he⟩⟩
  have hn : cl'.nextOffset = f.stop := by rw [hex.rep.next, Extent.push_finish]
  refine ⟨held1,_,⟨hex,by rw [hn]; exact tiled_push ht s hle⟩,
    .inr ⟨f,?_,henc.base,hn,hres,hrecs⟩⟩
  rw [← hfr]
  simp [framesOf]

theorem merge_whole {cl' : CommitLog} {r : Except Stop Unit} (h : Whole lz4 cl held last)
    (ha : Mergeable cfg env cl) (hm : mergeSegments lz4 cfg env cl = (cl',r))
    (hr : Returns r) : ∃ held', Whole lz4 cl' held' last ∧
      framesOf (held'++[last]) = framesOf (held++[last]) ∧ cl'.nextOffset = cl.nextOffset := by
  rcases (merge_exact lz4 h.exact ha hm).cases hr with
    (rfl | ⟨pre,gone,post,hc,he,hex,hn⟩ | ⟨pre,y,ys,post,a,fin,hc,hb,hf,hex,hn⟩) | ⟨hex,hn⟩
  · exact ⟨held,h,rfl,rfl⟩
  · have ht : Tiled (pre++gone++(post++[last])) cl.nextOffset := by
      have := h.tiled
      rw [hc.parts] at this
      simpa using this
    refine ⟨pre++post,⟨hex,?_⟩,?_,hn⟩
    · rw [hn]
      simpa using tiled_dropped ht he
    have hg : framesOf gone = [] := flatMap_eq_nil_iff.mpr he
    rw [hc.parts]
    simp only [framesOf, flatMap_append] at hg ⊢
    simp [hg]
  · have ht : Tiled (pre++(y::ys)++(post++[last])) cl.nextOffset := by
      have := h.tiled
      rw [hc.parts] at this
      simpa using this
    refine ⟨pre++(fin,a)::post,⟨hex,?_⟩,?_,hn⟩
    · rw [hn]
      simpa using tiled_joined fin ht hb hf
    · rw [hc.parts]
      simp only [framesOf, flatMap_append, flatMap_cons] at hf ⊢
      simp [hf]
  · exact ⟨held,⟨hex,by rw [hn]; exact h.tiled⟩,rfl,hn⟩

theorem fresh_whole (h : Fresh lz4 cl) :
    ∃ last, Whole lz4 cl [] last ∧ last.2 = Extent.empty 0 := by
  obtain ⟨s,hs,hrep,hu⟩ := fresh_rep lz4 cl h
  refine ⟨_,⟨⟨hrep,hu,?_⟩,?_⟩,rfl⟩
  · intro y hy
    rw [mem_singleton.mp hy]
    exact ⟨by simp [Extent.empty],by rw [hs.entries]; simp,hs.next,
      by exact Nat.lt_add_of_pos_right (by norm_num)⟩
  · rw [hrep.next]
    exact ⟨rfl,rfl⟩

/-! ## Runs -/

def Merging (lz4 : Lz4) (cfg : Config) : LogOp → CommitLog → Prop
  | .append env batch, cl => Fair lz4 cfg env cl batch
  | .mergeSegments env, cl => Mergeable cfg env cl
  | _, _ => False

instance (lz4 : Lz4) (cfg : Config) : ∀ op cl, Decidable (Merging lz4 cfg op cl)
  | .append env batch, cl => inferInstanceAs (Decidable (Fair lz4 cfg env cl batch))
  | .mergeSegments env, cl => inferInstanceAs (Decidable (Mergeable cfg env cl))
  | .deleteBefore _ _, _ => isFalse id
  | .enforceRetention _, _ => isFalse id
  | .compact _ _, _ => isFalse id

theorem merging_whole {cl0 : CommitLog} (h0 : Fresh lz4 cl0)
    (h : Reaches (Step lz4 cfg) (Merging lz4 cfg) cl0 cl) :
    ∃ held last, Whole lz4 cl held last := by
  refine h.invariant (fun cl => ∃ held last, Whole lz4 cl held last) ?_ ?_
  · obtain ⟨last,hw,_⟩ := fresh_whole h0
    exact ⟨[],last,hw⟩
  rintro op t u ⟨held,last,hw⟩ hg hs
  cases op with
  | append env batch =>
    obtain ⟨r,hr,_,_⟩ := returned_some hs
    obtain ⟨held',last',hw',_⟩ := append_whole hw hg hr
    exact ⟨held',last',hw'⟩
  | mergeSegments env =>
    obtain ⟨r,hm,hr⟩ := returned_some hs
    obtain ⟨held',hw',_⟩ := merge_whole hw hg hm hr
    exact ⟨held',last,hw'⟩
  | deleteBefore => exact hg.elim
  | enforceRetention => exact hg.elim
  | compact => exact hg.elim

theorem totalSize_raw (h : Rep cl held last) :
    cl.totalSize = (raw (framesOf (held++[last]))).length := by
  have hall : ∀ ys : List Held, (∀ y ∈ ys, Keeps cl.fs.disk y.1 y.2) →
      ((ys.map Prod.fst).map (fun s => (s.size:ℤ))).sum = (raw (framesOf ys)).length := by
    intro ys hk
    induction ys with
    | nil => rfl
    | cons y ys ih =>
      rw [framesOf_cons, raw_append, length_append, map_cons, map_cons, sum_cons,
        ih (fun z hz => hk z (by simp [hz])), (hk y (by simp)).size]
      rfl
  rw [CommitLog.totalSize, h.listed]
  exact hall _ h.keeps_all

theorem unbounded_of_total (cl : CommitLog) (m : ℤ) (h1 : cl.totalSize ≤ m)
    (h2 : cl.totalSize+m < 2^63) : ∀ s ∈ cl.segments, Unbounded m s := by
  intro s hs
  have hle : (s.size:ℤ) ≤ cl.totalSize := by
    refine single_le_sum ?_ _ (mem_map_of_mem hs)
    intro x hx
    obtain ⟨t,_,rfl⟩ := mem_map.mp hx
    exact Int.natCast_nonneg _
  exact ⟨by omega,by omega⟩

/-- After any run of appends and merges of adjacent candidates, one more such
merge changes no drain and not the newest offset. -/
theorem merge_preserves_drain (lz4 : Lz4) (cfg : Config) (cl0 cl cl' : CommitLog) (env : Env)
    (m : ℤ) (o : ℕ) (h0 : Fresh lz4 cl0) (h : Reaches (Step lz4 cfg) (Merging lz4 cfg) cl0 cl)
    (ha : Mergeable cfg env cl) (hm : mergeSegments lz4 cfg env cl = (cl',.ok ()))
    (h1 : cl.totalSize ≤ m) (h2 : cl.totalSize+m < 2^63) :
    cl'.newestOffset = cl.newestOffset ∧
      ∃ n out, drain lz4 cl m n o = some out ∧ drain lz4 cl' m n o = some out := by
  obtain ⟨held,last,hw⟩ := merging_whole h0 h
  obtain ⟨held',hw',hfr,hn⟩ := merge_whole hw ha hm ⟨by simp,by simp⟩
  have ht : cl'.totalSize = cl.totalSize := by
    rw [totalSize_raw hw.exact.rep, totalSize_raw hw'.exact.rep, hfr]
  obtain ⟨n,hd⟩ := drain_tiled hw.exact hw.tiled m (unbounded_of_total cl m h1 h2) o
  obtain ⟨k,hd'⟩ := drain_tiled hw'.exact hw'.tiled m
    (unbounded_of_total cl' m (by rw [ht]; exact h1) (by rw [ht]; exact h2)) o
  rw [hfr] at hd'
  exact ⟨hn,max n k,_,drain_le lz4 cl m n _ o _ (le_max_left _ _) hd,
    drain_le lz4 cl' m k _ o _ (le_max_right _ _) hd'⟩

def eager : Config := { defaultConfig with maxSegmentBytes := 1, minMergeSegments := 2 }

def seconds (t : ℤ) : Env := still (t*ByteWords.second)

def pairwise : List LogOp :=
  [.append (seconds 0) (smallBatch 0 0),.append (seconds 0) (smallBatch 0 1),
    .append (seconds 300) (smallBatch 0 2),.append (seconds 300) (smallBatch 0 3),
    .mergeSegments (seconds 600),.append (seconds 700) (smallBatch 0 4),
    .append (seconds 700) (smallBatch 0 5)]

/-- A merge of the second pair of old segments, after one of the first. -/
theorem second_pair_preserved : ∃ cl cl', runAll (exec noLz4 eager) pairwise (smallLog 0) = some cl ∧
    mergeSegments noLz4 eager (seconds 900) cl = (cl',.ok ()) ∧
    (mergeCandidates eager (seconds 900) cl).map Segment.baseOffset = [2,3] ∧
    cl'.newestOffset = cl.newestOffset ∧
    ∃ n out, drain noLz4 cl 1000 n 1 = some out ∧ drain noLz4 cl' 1000 n 1 = some out := by
  obtain ⟨cl,hcl,h1,h2,h3,h4,h5⟩ : ∃ c ∈ runAll (exec noLz4 eager) pairwise (smallLog 0),
      (mergeSegments noLz4 eager (seconds 900) c).2 = .ok () ∧
      (mergeCandidates eager (seconds 900) c).map Segment.baseOffset = [2,3] ∧
      Mergeable eager (seconds 900) c ∧ c.totalSize ≤ 1000 ∧ c.totalSize+1000 < 2^63 := by
    decide +kernel
  have hm : mergeSegments noLz4 eager (seconds 900) cl =
      ((mergeSegments noLz4 eager (seconds 900) cl).1,.ok ()) := Prod.ext rfl h1
  exact ⟨cl,_,hcl,hm,h2,merge_preserves_drain noLz4 eager (smallLog 0) cl _ (seconds 900) 1000 1
    (smallLog_fresh 0) (reaches_of_runAll _ _ (by decide +kernel) hcl) h3 hm h4 h5⟩

/-- The second pair is merged later than the segments after it are created.
The next merge then picks the first pair and a segment behind the second, and
the records of the second pair are no longer drained. -/
theorem scattered_merge_hides : ∃ cl cl',
    runAll (exec noLz4 eager) (pairwise++[.mergeSegments (seconds 900)]) (smallLog 0) = some cl ∧
    Fresh noLz4 (smallLog 0) ∧ mergeSegments noLz4 eager (seconds 1300) cl = (cl',.ok ()) ∧
    (drain noLz4 cl 1000 9 0).map (List.map KeyRecord.offset) = some [0,1,2,3,4,5] ∧
    (drain noLz4 cl' 1000 9 0).map (List.map KeyRecord.offset) = some [0,1,4,5] ∧
    ¬ ∃ n k out, drain noLz4 cl 1000 n 0 = some out ∧ drain noLz4 cl' 1000 k 0 = some out := by
  obtain ⟨cl,hcl,h1,h2,h3⟩ : ∃ c ∈ runAll (exec noLz4 eager) (pairwise++[.mergeSegments (seconds 900)])
        (smallLog 0),
      (mergeSegments noLz4 eager (seconds 1300) c).2 = .ok () ∧
      (drain noLz4 c 1000 9 0).map (List.map KeyRecord.offset) = some [0,1,2,3,4,5] ∧
      (drain noLz4 (mergeSegments noLz4 eager (seconds 1300) c).1 1000 9 0).map
        (List.map KeyRecord.offset) = some [0,1,4,5] := by decide +kernel
  refine ⟨cl,_,hcl,smallLog_fresh 0,Prod.ext rfl h1,h2,h3,?_⟩
  rintro ⟨n,k,out,hb,ha⟩
  obtain ⟨out1,ho1,hm1⟩ := Option.map_eq_some_iff.mp h2
  obtain ⟨out2,ho2,hm2⟩ := Option.map_eq_some_iff.mp h3
  rw [drain_unique ho1 hb] at hm1
  rw [drain_unique ho2 ha, hm1] at hm2
  simp at hm2

end GoCommon.ForgeMerge
