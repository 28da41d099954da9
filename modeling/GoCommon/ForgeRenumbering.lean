import GoCommon.ForgeProgress
import GoCommon.ForgeGaps

/-!
# Positions and compaction

Compaction moves the surviving records to the lowest offsets of the sealed
part, in groups. A position that a consumer has kept refers to the offsets
before, so a survivor it has not read yet may now lie below it.
-/

set_option autoImplicit false

namespace GoCommon.ForgeRenumbering
open List StepRuns LastWins ForgeRecord ForgeSegment ForgeFrames ForgeExtents ForgeCommitLog
open ForgeLogState ForgeRewrite ForgeLogRewrites ForgeLogRuns ForgeLogView ForgeDrain
open ForgeMerge ForgeCompaction ForgeUpkeep ForgeProgress ForgeGaps
open ForgeDelivery hiding exec

def sealedRecords (lz4 : Lz4) (cl : CommitLog) : List KeyRecord :=
  (sealedSegments cl).flatMap (fun s => (segmentBatches lz4 cl.fs s).flatMap keyRecords)

def surviving (lz4 : Lz4) (cl : CommitLog) : List KeyRecord :=
  keepLast (fun kr => recordKey kr.record) (sealedRecords lz4 cl)

theorem sealedRecords_clean (lz4 : Lz4) {cl : CommitLog} {held : List Held} {last : Held}
    (h : Rep cl held last) (hc : ∀ y ∈ held, ∀ f ∈ y.2.frames, Clean lz4 f) :
    sealedRecords lz4 cl = recordsOf lz4 (framesOf held) := by
  rw [sealedRecords, sealed_held h, flatMap_map, recordsOf, framesOf, flatMap_assoc]
  refine flatMap_congr (fun y hy => ?_)
  rw [segmentBatches_clean lz4 (h.keeps y hy) (hc y hy), flatMap_map]

theorem surviving_kept {lz4 : Lz4} {cl : CommitLog} {held : List Held} {last : Held}
    (h : Exact lz4 cl held last) : surviving lz4 cl = kept lz4 held := by
  rw [surviving, sealedRecords_clean lz4 h.rep (fun y hy => (h.sound y (by simp [hy])).clean), kept]

/-! ## The drain after a compaction -/

section Drained
variable {lz4 : Lz4} {cl : CommitLog} {held : List Held} {fin : Segment} {a : Extent} {last : Held}
  (h : Exact lz4 cl [(fin,a)] last) {b : ℕ} (hc : Compacted lz4 held b a)
include h hc

omit h in
theorem block_of_rank {f : Frame} (hf : f ∈ a.frames) (i : ℕ) (h1 : f.base ≤ b+i)
    (h2 : b+i < f.stop) : f.stop = b+min (batchLimit*(i/batchLimit+1)) (kept lz4 held).length := by
  obtain ⟨j,hj1,hj2⟩ := hc.blocks f hf
  have hlim : batchLimit = 1000 := rfl
  have hij : i/batchLimit = j := by
    rw [hlim] at hj1 hj2 ⊢
    omega
  rw [hij, hj2]

omit h in
theorem copy_of_rank {i : ℕ} {kr : KeyRecord} (hk : (kept lz4 held)[i]? = some kr) :
    ∃ c ∈ recordsOf lz4 a.frames, c.offset = b+i ∧ content c.record = content kr.record := by
  obtain ⟨hi,hget⟩ := List.getElem?_eq_some_iff.mp hk
  have hlen : (recordsOf lz4 a.frames).length = (kept lz4 held).length := by
    have := congrArg List.length hc.offsets
    simpa using this
  have hi' : i < (recordsOf lz4 a.frames).length := by omega
  refine ⟨(recordsOf lz4 a.frames)[i],getElem_mem hi',?_,?_⟩
  · have ho := congrArg (fun l => l[i]?) hc.offsets
    simpa [hi, hi'] using ho
  · have hr := congrArg (fun l => l[i]?) hc.records
    simpa [hi, hi', hget] using hr

theorem drain_survivor_iff (m : ℤ) (hm : ∀ s ∈ cl.segments, Unbounded m s) (p : ℕ) {i : ℕ}
    {kr : KeyRecord} (hk : (kept lz4 held)[i]? = some kr) :
    (∃ n out c, drain lz4 cl m n p = some out ∧ c ∈ out ∧ c.offset = b+i ∧
      content c.record = content kr.record) ↔
    p < b+min (batchLimit*(i/batchLimit+1)) (kept lz4 held).length := by
  have hfin : a.finish ≤ last.2.base := h.rep.finish_le (fin,a) (by simp)
  have hi : i < (kept lz4 held).length := (List.getElem?_eq_some_iff.mp hk).1
  constructor
  · rintro ⟨n,out,c,hd,hcm,hco,_⟩
    obtain ⟨n',out',hd',hin⟩ := drain_ends h m hm p
    rw [drain_unique hd hd'] at hcm
    obtain ⟨f,hf,hcf⟩ := mem_flatMap.mp (hin c hcm)
    obtain ⟨hf1,hf2⟩ := mem_filter.mp hf
    simp only [decide_eq_true_eq] at hf2
    obtain ⟨y,hy,hfy⟩ := mem_flatMap.mp hf1
    have hw := keyRecords_within ((h.sound y hy).clean f hfy) hcf
    rcases mem_append.mp hy with hya | hyl
    · rw [mem_singleton.mp hya] at hfy
      rw [← block_of_rank hc hfy i (by omega) (by omega)]
      exact hf2
    rw [mem_singleton.mp hyl] at hfy
    have habove := last.2.above f hfy
    have := hc.finish
    omega
  intro hlt
  obtain ⟨c,hcm,hco,hcr⟩ := copy_of_rank hc hk
  obtain ⟨f,hf,hcf⟩ := mem_flatMap.mp hcm
  have hw := keyRecords_within (hc.clean f hf) hcf
  have hstop := block_of_rank hc hf i (by omega) (by omega)
  have hpf : f ∈ pending p a.frames := by
    refine mem_filter.mpr ⟨hf,?_⟩
    simp only [decide_eq_true_eq]
    omega
  obtain ⟨pre,y,post,hp,hr⟩ := read_pending h m hm p
  have hpl : p < last.2.base := by
    have := a.stop_le_finish f hf
    omega
  have hy : y = (fin,a) := by
    have hparts := hp.parts
    rcases pre with _ | ⟨z,pre⟩
    · simp only [nil_append, cons_append, List.cons.injEq] at hparts
      exact hparts.1.symm
    simp only [cons_append, nil_append, List.cons.injEq] at hparts
    have hyl : y ∈ [last] := by rw [hparts.2]; simp
    rcases hp.upTo with hle | hnil
    · rw [mem_singleton.mp hyl] at hle
      omega
    · cases hnil
  subst hy
  have hne : pending p a.frames ≠ [] := ne_nil_of_mem hpf
  obtain ⟨n,out,hn,_⟩ := drain_ends h m hm a.finish
  refine ⟨n+1,recordsOf lz4 (pending p a.frames)++out,c,?_,?_,hco,hcr⟩
  · rw [drain_next h n (by simp) hne hr]
    rw [hn]
    rfl
  · exact mem_append_left _ (mem_flatMap.mpr ⟨f,hpf,hcf⟩)

end Drained

/-- A survivor that a position has not passed is drained after the compaction
exactly when the position lies before the end of its new group. -/
theorem survivor_drained_iff (lz4 : Lz4) (cfg : Config) (cl0 cl cl' : CommitLog) (env : Env)
    (order : Order) (m : ℤ) (p i : ℕ) (kr : KeyRecord) (h0 : Fresh lz4 cl0)
    (h : Reaches (fun x s t => appendStep lz4 cfg x s = some t) (FairStep lz4 cfg) cl0 cl)
    (hf : CompactFair lz4 order cl) (hm : compact lz4 cfg env order cl = (cl',.ok ()))
    (hu : ∀ s ∈ cl'.segments, Unbounded m s) (hk : (surviving lz4 cl)[i]? = some kr) :
    (∃ n out c, drain lz4 cl' m n p = some out ∧ c ∈ out ∧ c.offset = i ∧
      content c.record = content kr.record) ↔
    p < min (batchLimit*(i/batchLimit+1)) (surviving lz4 cl).length := by
  obtain ⟨held,last,tape,hrec⟩ := appends_recorded h0 h
  have hex := hrec.whole.exact
  rw [surviving_kept hex] at hk ⊢
  have hne : kept lz4 held ≠ [] := by
    intro hnil
    simp [hnil] at hk
  rcases (compact_exact hex (recorded_bounded hrec) hf hm).ok rfl with
    ⟨rfl,_⟩ | ⟨hnil,_⟩ | ⟨y,ys,a,fin,rfl,hc,hex',_⟩
  · exact absurd rfl hne
  · exact absurd hnil hne
  · have hzero : y.2.base = 0 := hrec.whole.tiled.1
    have hiff := drain_survivor_iff hex' hc m hu p hk
    simpa only [hzero, Nat.zero_add] using hiff

def twoKeys : List (Env × RecordBatch) :=
  [(still 0,keyedBatch 1 1),(still 0,keyedBatch 1 2),(still 0,keyedBatch 2 3),
    (still 0,keyedBatch 3 4)]

/-- The survivor with offset two is found at offset one. -/
theorem early_position_drained : ∃ cl cl' kr,
    runAll (appendStep noLz4 eager) twoKeys (smallLog 0) = some cl ∧
    compact noLz4 eager (still 0) keepOrder cl = (cl',.ok ()) ∧
    (surviving noLz4 cl)[1]? = some kr ∧ kr.offset = 2 ∧
    ∃ n out c, drain noLz4 cl' 1000 n 1 = some out ∧ c ∈ out ∧ c.offset = 1 ∧
      content c.record = content kr.record := by
  obtain ⟨cl,hcl,h1,h2,h3,h4⟩ : ∃ c ∈ runAll (appendStep noLz4 eager) twoKeys (smallLog 0),
      CompactFair noLz4 keepOrder c ∧ (compact noLz4 eager (still 0) keepOrder c).2 = .ok () ∧
      (∀ s ∈ (compact noLz4 eager (still 0) keepOrder c).1.segments,
        (s.size : ℤ) ≤ 1000 ∧ s.size+(1000:ℤ) < 2^63) ∧
      (surviving noLz4 c).map KeyRecord.offset = [1,2] := by decide +kernel
  have hm : compact noLz4 eager (still 0) keepOrder cl =
      ((compact noLz4 eager (still 0) keepOrder cl).1,.ok ()) := Prod.ext rfl h2
  rcases hs : surviving noLz4 cl with _ | ⟨k1,_ | ⟨k2,_ | ⟨k3,ks⟩⟩⟩
  · simp [hs] at h4
  · simp [hs] at h4
  · simp only [hs, map_cons, map_nil, List.cons.injEq, and_true] at h4
    refine ⟨cl,_,k2,hcl,hm,by rw [hs]; rfl,h4.2,?_⟩
    refine (survivor_drained_iff noLz4 eager (smallLog 0) cl _ (still 0) keepOrder 1000 1 1 k2
      (smallLog_fresh 0) (reaches_of_runAll _ _ (by decide +kernel) hcl) h1 hm h3
      (by rw [hs]; rfl)).mpr ?_
    rw [hs]
    exact (by decide : 1 < min (batchLimit*(1/batchLimit+1)) 2)
  · simp [hs] at h4

/-- The record of the second key had offset 2 and a consumer at position 2 had
not read it. Its copy has offset 1, and the drain from 2 returns nothing. -/
theorem survivor_below_position : ∃ cl cl',
    runAll (appendStep noLz4 eager) twoKeys (smallLog 0) = some cl ∧ Fresh noLz4 (smallLog 0) ∧
    compact noLz4 eager (still 0) keepOrder cl = (cl',.ok ()) ∧ 2 ≤ cl.newestOffset ∧
    (∃ kr ∈ surviving noLz4 cl, 2 ≤ kr.offset ∧ kr.record.key = some [2]) ∧
    (∀ s ∈ cl'.segments, Unbounded 1000 s) ∧ drain noLz4 cl' 1000 1 2 = some [] := by
  obtain ⟨cl,hcl,h1,h2,h3,h4,h5⟩ : ∃ c ∈ runAll (appendStep noLz4 eager) twoKeys (smallLog 0),
      (compact noLz4 eager (still 0) keepOrder c).2 = .ok () ∧ 2 ≤ c.newestOffset ∧
      (∃ kr ∈ surviving noLz4 c, 2 ≤ kr.offset ∧ kr.record.key = some [2]) ∧
      (∀ s ∈ (compact noLz4 eager (still 0) keepOrder c).1.segments,
        (s.size : ℤ) ≤ 1000 ∧ s.size+(1000:ℤ) < 2^63) ∧
      drain noLz4 (compact noLz4 eager (still 0) keepOrder c).1 1000 1 2 = some [] := by
    decide +kernel
  exact ⟨cl,_,hcl,smallLog_fresh 0,Prod.ext rfl h1,h2,h3,h4,h5⟩

end GoCommon.ForgeRenumbering
