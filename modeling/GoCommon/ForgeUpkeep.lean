import GoCommon.ForgeCompaction
import GoCommon.ForgeMerge

/-!
# Runs with maintenance

Appends, retention, merges and compaction all keep a log exact as long as the
batches can be read back, so what is stored can be described by the frames of
its segments after any such run.
-/

set_option autoImplicit false

namespace GoCommon.ForgeUpkeep
open List ByteStream FileDisk StepRuns ForgeRecord ForgeSegment ForgeFrames ForgeExtents
open ForgeCommitLog ForgeLogState ForgeRewrite ForgeLogSwap ForgeLogRewrites ForgeLogRuns ForgeLogView
open ForgeCompaction ForgeMerge

/-! ## What is stored -/

def segmentBatches (lz4 : Lz4) (fs : Files) (s : Segment) : List RecordBatch :=
  match scanAll (nextBatch lz4) ((fs.disk.data s.logFile.ino).take s.size) with
  | .ok (bs,_) => bs
  | .error _ => []

def storedBatches (lz4 : Lz4) (cl : CommitLog) : List RecordBatch :=
  cl.segments.flatMap (segmentBatches lz4 cl.fs)

variable (lz4 : Lz4) (cfg : Config) (env : Env)

theorem segmentBatches_clean {fs : Files} {y : Held} (hk : Keeps fs.disk y.1 y.2)
    (hc : ∀ f ∈ y.2.frames, Clean lz4 f) :
    segmentBatches lz4 fs y.1 = y.2.frames.map (Frame.batch lz4) := by
  rw [segmentBatches, hk.take, scan_whole lz4 (fun f hf => (hc f hf).readable)]

variable {cl cl' : CommitLog} {held : List Held} {last : Held}

theorem storedBatches_clean
    (h : Rep cl held last) (hc : ∀ y ∈ held++[last], ∀ f ∈ y.2.frames, Clean lz4 f) :
    storedBatches lz4 cl = (framesOf (held++[last])).map (Frame.batch lz4) := by
  rw [storedBatches, h.listed, flatMap_map, framesOf, map_flatMap]
  refine flatMap_congr (fun y hy => ?_)
  exact segmentBatches_clean lz4 (h.keeps_all y hy) (hc y hy)

theorem storedBatches_exact {lz4 : Lz4} (h : Exact lz4 cl held last) :
    storedBatches lz4 cl = (framesOf (held++[last])).map (Frame.batch lz4) :=
  storedBatches_clean lz4 h.rep (fun y hy => (h.sound y hy).clean)

/-! ## Steps -/

def Kept (lz4 : Lz4) (cl : CommitLog) : Prop :=
  (∃ held last, Exact lz4 cl held last) ∧ cl.nextOffset < 2^64

def Careful (lz4 : Lz4) (cfg : Config) : LogOp → CommitLog → Prop
  | .append env batch, cl => Fair lz4 cfg env cl batch
  | .deleteBefore _ _, _ => True
  | .enforceRetention _, _ => True
  | .mergeSegments env, cl => Mergeable cfg env cl
  | .compact _ order, cl => CompactFair lz4 order cl

instance (lz4 : Lz4) (cfg : Config) : ∀ op cl, Decidable (Careful lz4 cfg op cl)
  | .append env batch, cl => inferInstanceAs (Decidable (Fair lz4 cfg env cl batch))
  | .deleteBefore _ _, _ => inferInstanceAs (Decidable True)
  | .enforceRetention _, _ => inferInstanceAs (Decidable True)
  | .mergeSegments env, cl => inferInstanceAs (Decidable (Mergeable cfg env cl))
  | .compact _ order, cl => inferInstanceAs (Decidable (CompactFair lz4 order cl))

theorem rolled_finish {cfg : Config} {env : Env} {d : Disk Path}
    {held' : List Held} {last' : Held} (h : Rep cl held last)
    (hr : Rolled cfg env cl held last d held' last') : last'.2.finish = cl.nextOffset := by
  cases hr with
  | stay => exact h.next.symm
  | roll => exact Extent.finish_nil _ rfl

theorem append_kept
    {batch : RecordBatch} {r : Except Stop ℕ} (h : Kept lz4 cl) (hf : Fair lz4 cfg env cl batch)
    (ha : cl.append lz4 cfg env batch = (cl',r)) : Kept lz4 cl' := by
  obtain ⟨⟨held,last,hex⟩,hn⟩ := h
  rcases append_exact lz4 hex hf ha with
    ⟨rfl,_⟩ | ⟨d,held1,last1,hr,_,⟨e,_,hex'⟩ | ⟨f,_,_,_,s,hle,_,hex'⟩⟩
  · exact ⟨⟨held,last,hex⟩,hn⟩
  · refine ⟨⟨held1,last1,hex'⟩,?_⟩
    rw [hex'.rep.next, rolled_finish hex.rep hr]
    exact hn
  · refine ⟨⟨held1,_,hex'⟩,?_⟩
    rw [hex'.rep.next, Extent.push_finish]
    exact f.bounded

theorem merge_kept {r : Except Stop Unit} (h : Kept lz4 cl) (ha : Mergeable cfg env cl)
    (hm : mergeSegments lz4 cfg env cl = (cl',r)) (hr : Returns r) : Kept lz4 cl' := by
  obtain ⟨⟨held,last,hex⟩,hn⟩ := h
  rcases (merge_exact lz4 hex ha hm).cases hr with
    (rfl | ⟨pre,gone,post,_,_,hex',hn'⟩ | ⟨pre,y,ys,post,a,fin,_,_,_,hex',hn'⟩) | ⟨hex',hn'⟩
  · exact ⟨⟨held,last,hex⟩,hn⟩
  · exact ⟨⟨_,last,hex'⟩,hn' ▸ hn⟩
  · exact ⟨⟨_,last,hex'⟩,hn' ▸ hn⟩
  · exact ⟨⟨_,last,hex'⟩,hn' ▸ hn⟩

theorem compact_kept {order : Order}
    {r : Except Stop Unit} (h : Kept lz4 cl) (hf : CompactFair lz4 order cl)
    (hm : compact lz4 cfg env order cl = (cl',r)) (hr : Returns r) : Kept lz4 cl' := by
  obtain ⟨⟨held,last,hex⟩,hn⟩ := h
  rcases (compact_exact hex hn hf hm).cases hr with
    (⟨_,rfl⟩ | ⟨_,hex',hn'⟩ | ⟨y,ys,a,fin,_,_,hex',hn'⟩) | ⟨hex',hn'⟩
  · exact ⟨⟨held,last,hex⟩,hn⟩
  · exact ⟨⟨_,last,hex'⟩,hn' ▸ hn⟩
  · exact ⟨⟨_,last,hex'⟩,hn' ▸ hn⟩
  · exact ⟨⟨_,last,hex'⟩,hn' ▸ hn⟩

theorem step_kept {op : LogOp}
    (h : Kept lz4 cl) (hg : Careful lz4 cfg op cl) (hs : Step lz4 cfg op cl cl') :
    Kept lz4 cl' := by
  cases op with
  | append env batch =>
    obtain ⟨r,ha,_⟩ := returned_some hs
    exact append_kept lz4 cfg env h hg ha
  | deleteBefore env offset =>
    cases hs
    obtain ⟨⟨held,last,hex⟩,hn⟩ := h
    obtain ⟨left,_,hex',hn'⟩ := thinned_exact env hex
      (deleteBefore_thinned env offset hex.rep)
    exact ⟨⟨left,last,hex'⟩,hn' ▸ hn⟩
  | enforceRetention env =>
    cases hs
    obtain ⟨⟨held,last,hex⟩,hn⟩ := h
    obtain ⟨left,_,hex',hn'⟩ := thinned_exact env hex
      (enforceRetention_thinned cfg env cl hex.rep)
    exact ⟨⟨left,last,hex'⟩,hn' ▸ hn⟩
  | mergeSegments env =>
    obtain ⟨r,hm,hr⟩ := returned_some hs
    exact merge_kept lz4 cfg env h hg hm hr
  | compact env order =>
    obtain ⟨r,hm,hr⟩ := returned_some hs
    exact compact_kept lz4 cfg env h hg hm hr

theorem fresh_kept (h : Fresh lz4 cl) : Kept lz4 cl := by
  obtain ⟨last,hw,he⟩ := fresh_whole h
  refine ⟨⟨[],last,hw.exact⟩,?_⟩
  rw [hw.exact.rep.next, he]
  exact Nat.two_pow_pos 64

theorem careful_kept {cl0 : CommitLog} (h0 : Fresh lz4 cl0)
    (h : Reaches (Step lz4 cfg) (Careful lz4 cfg) cl0 cl) : Kept lz4 cl :=
  h.invariant (Kept lz4) (fresh_kept lz4 h0)
    (fun _ _ _ hk hg hs => step_kept lz4 cfg hk hg hs)

end GoCommon.ForgeUpkeep
