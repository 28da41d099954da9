import GoCommon.ForgeDelivery
import GoCommon.ForgeUpkeep

/-!
# Reads over gaps

A read looks into one segment only: the last one that starts at or before the
offset. Compaction and retention leave gaps between segments, and an offset
in a gap belongs to a segment that has nothing left to return for it.
-/

set_option autoImplicit false

namespace GoCommon.ForgeGaps
open List StepRuns ForgeRecord ForgeSegment ForgeFrames ForgeExtents ForgeCommitLog ForgeLogState
open ForgeLogRewrites ForgeLogRuns ForgeLogView ForgeDrain ForgeMerge ForgeUpkeep
open ForgeDelivery hiding exec

structure FirstAfter (bs : List RecordBatch) (o : ℕ) (b : RecordBatch) : Prop where
  mem : b ∈ bs
  after : o < endOffset b
  least : ∀ c ∈ bs, o < endOffset c → endOffset b ≤ endOffset c

/-- The segment picked for an offset is not empty and ends after it, and the
end of the window can be computed in 64 bits. -/
def InReach (cl : CommitLog) (m : ℤ) (o : ℕ) : Prop :=
  ∃ s ∈ findSegment cl.segments o, 0 < s.size ∧ o < s.nextOffset ∧
    (s.mmapData = none ∨ (s.index.lookup o).1+m < 2^63)

theorem pending_finish (o : ℕ) (a : Extent) :
    pending o a.frames ≠ [] ↔ a.frames ≠ [] ∧ o < a.finish := by
  constructor
  · intro hne
    obtain ⟨fs,f,hf,_,hfin⟩ := pending_last hne
    obtain ⟨g,hg⟩ := exists_mem_of_ne_nil _ hne
    obtain ⟨hg1,hg2⟩ := mem_filter.mp hg
    simp only [decide_eq_true_eq] at hg2
    exact ⟨by simp [hf],lt_of_lt_of_le hg2 (a.stop_le_finish g hg1)⟩
  rintro ⟨hne,hlt⟩ hnil
  rcases eq_nil_or_concat a.frames with hn | ⟨fs,f,hf⟩
  · exact hne hn
  rw [concat_eq_append] at hf
  rw [a.finish_last fs f hf] at hlt
  rw [hf, pending_append, pending_all o [f] (by simpa using hlt)] at hnil
  simp at hnil

section Reading
variable {lz4 : Lz4} {cl : CommitLog} {held : List Held} {last : Held}
  (h : Exact lz4 cl held last)
include h

theorem read_limit (o : ℕ) (m : ℤ) (hm : ∀ s ∈ cl.segments, (s.size : ℤ) ≤ m) (h1 : m < 2^63) :
    ∃ pre y post, Picked o (held++[last]) pre y post ∧ findSegment cl.segments o = some y.1 ∧
      cl.read lz4 o m = .ok ((if y.1.mmapData = none ∨ (y.1.index.lookup o).1+m < 2^63 then
        pending o y.2.frames else []).map (Frame.batch lz4)) := by
  have hmem : ∀ y ∈ held++[last], (y.1.size : ℤ) ≤ m := by
    intro y hy
    refine hm y.1 ?_
    rw [h.rep.listed]
    exact mem_map_of_mem hy
  have hm0 : 0 ≤ m := le_trans (Int.natCast_nonneg _) (hmem last (by simp))
  obtain ⟨pre,y,post,skip,rest,hs⟩ := read_seen h o hm0 h1
  have hy : y ∈ held++[last] := by rw [hs.picked.parts]; simp
  refine ⟨pre,y,post,hs.picked,hs.found,?_⟩
  rw [hs.read, hs.position, windowSize]
  by_cases hover : y.1.mmapData = none ∨ ((raw skip).length : ℤ)+m < 2^63
  · have hsize := hmem y hy
    have hlen : y.1.size = (raw skip).length+(raw rest).length := by
      rw [(h.rep.keeps_all y hy).size, hs.frames, raw_append, length_append]
    rw [if_pos hover, if_neg, fits_all _ _ (by omega), hs.frames, pending_append,
      pending_nil o skip hs.before, nil_append]
    rintro ⟨hmap,hbig⟩
    rcases hover with hover | hover
    · exact hmap hover
    · omega
  rw [if_neg hover, if_pos, fits_zero]
  · rfl
  · push Not at hover
    exact hover

theorem inReach_iff (m : ℤ) (o : ℕ) (y : Held) (hy : y ∈ held++[last])
    (hf : findSegment cl.segments o = some y.1) : InReach cl m o ↔
      pending o y.2.frames ≠ [] ∧ (y.1.mmapData = none ∨ (y.1.index.lookup o).1+m < 2^63) := by
  have hsize : 0 < y.1.size ↔ y.2.frames ≠ [] := by
    rw [(h.rep.keeps_all y hy).size, length_pos_iff, Ne, raw_eq_nil]
  rw [InReach, hf, pending_finish, ← (h.sound y hy).next]
  simp only [Option.mem_def, Option.some.injEq, exists_eq_left']
  tauto

theorem picked_first {o : ℕ} {pre : List Held} {y : Held} {post : List Held}
    (hp : Picked o (held++[last]) pre y post) (g : Frame) (gs : List Frame)
    (hg : pending o y.2.frames = g::gs) : FirstAfter (storedBatches lz4 cl) o (g.batch lz4) := by
  have hall := pending_picked h hp
  rw [hg, cons_append] at hall
  have hmem : g ∈ pending o (framesOf (held++[last])) := by rw [hall]; simp
  obtain ⟨hg1,hg2⟩ := mem_filter.mp hmem
  have hend : ∀ f ∈ framesOf (held++[last]), endOffset (f.batch lz4) = f.stop := by
    intro f hf
    obtain ⟨z,hz,hfz⟩ := mem_flatMap.mp hf
    exact Frame.batch_end ((h.sound z hz).clean f hfz).readable
  have hsort : (pending o (framesOf (held++[last]))).Pairwise (fun f k => f.stop ≤ k.base) :=
    (framesOf_sorted _ h.rep.ordered).sublist filter_sublist
  rw [hall, pairwise_cons] at hsort
  rw [storedBatches_exact h]
  refine ⟨mem_map_of_mem hg1,by rw [hend g hg1]; simpa using hg2,?_⟩
  intro c hc hoc
  obtain ⟨f,hf,rfl⟩ := mem_map.mp hc
  rw [hend f hf] at hoc ⊢
  rw [hend g hg1]
  have hf' : f ∈ pending o (framesOf (held++[last])) := mem_filter.mpr ⟨hf,by simpa using hoc⟩
  rw [hall] at hf'
  rcases mem_cons.mp hf' with rfl | hf'
  · exact le_refl _
  · exact le_trans (hsort.1 f hf') (le_of_lt f.base_lt_stop)

theorem read_first_iff (o : ℕ) (m : ℤ) (hm : ∀ s ∈ cl.segments, (s.size : ℤ) ≤ m)
    (h1 : m < 2^63) : (∃ b rest, cl.read lz4 o m = .ok (b::rest) ∧
      FirstAfter (storedBatches lz4 cl) o b) ↔ InReach cl m o := by
  obtain ⟨pre,y,post,hp,hf,hr⟩ := read_limit h o m hm h1
  have hy : y ∈ held++[last] := by rw [hp.parts]; simp
  rw [inReach_iff h m o y hy hf, hr]
  constructor
  · rintro ⟨b,rest,heq,_⟩
    split at heq
    · rename_i hw
      refine ⟨?_,hw⟩
      intro hnil
      simp [hnil] at heq
    · simp at heq
  rintro ⟨hne,hw⟩
  obtain ⟨g,gs,hg⟩ := exists_cons_of_ne_nil hne
  exact ⟨g.batch lz4,gs.map (Frame.batch lz4),by rw [if_pos hw, hg]; rfl,
    picked_first h hp g gs hg⟩

end Reading

/-- After every careful run, a read returns the first stored batch that ends
after the offset exactly when the picked segment reaches past the offset. -/
theorem read_covered_iff (lz4 : Lz4) (cfg : Config) (cl0 cl : CommitLog) (h0 : Fresh lz4 cl0)
    (h : Reaches (Step lz4 cfg) (Careful lz4 cfg) cl0 cl) (o : ℕ) (m : ℤ)
    (hm : ∀ s ∈ cl.segments, (s.size : ℤ) ≤ m) (h1 : m < 2^63) :
    (∃ b rest, cl.read lz4 o m = .ok (b::rest) ∧ FirstAfter (storedBatches lz4 cl) o b) ↔
      InReach cl m o := by
  obtain ⟨⟨held,last,hex⟩,_⟩ := careful_kept lz4 cfg h0 h
  exact read_first_iff hex o m hm h1

def keyedBatch (k v : UInt8) : RecordBatch :=
  ⟨0,1,compressionNone,0,0,[⟨0,0,some [k],some [v],none⟩]⟩

def keyedRun : List LogOp :=
  [.append (still 0) (keyedBatch 1 1),.append (still 0) (keyedBatch 1 2),
    .append (still 0) (keyedBatch 1 3),.compact (still 0) keepOrder]

/-- A read at the start of a compacted log. -/
theorem compacted_log_covered : ∃ cl,
    runAll (exec noLz4 eager) keyedRun (smallLog 0) = some cl ∧ InReach cl 1000 0 ∧
    ∃ b rest, cl.read noLz4 0 1000 = .ok (b::rest) ∧ FirstAfter (storedBatches noLz4 cl) 0 b := by
  obtain ⟨cl,hcl,h1,h2⟩ : ∃ c ∈ runAll (exec noLz4 eager) keyedRun (smallLog 0),
      (∀ s ∈ c.segments, (s.size : ℤ) ≤ 1000) ∧ ∃ s ∈ findSegment c.segments 0, 0 < s.size ∧
        0 < s.nextOffset ∧ (s.mmapData = none ∨ (s.index.lookup 0).1+(1000:ℤ) < 2^63) := by
    decide +kernel
  exact ⟨cl,hcl,h2,(read_covered_iff noLz4 eager (smallLog 0) cl (smallLog_fresh 0)
    (reaches_of_runAll _ _ (by decide +kernel) hcl) 0 1000 h1 (by norm_num)).mpr h2⟩

/-- Offset 1 lies between the compacted segment and the active one, whose
batch ends after it. -/
theorem compacted_gap_blind : ∃ cl,
    runAll (exec noLz4 eager) keyedRun (smallLog 0) = some cl ∧ Fresh noLz4 (smallLog 0) ∧
    (∀ s ∈ cl.segments, (s.size : ℤ) ≤ 1000) ∧
    (∃ b ∈ storedBatches noLz4 cl, 1 < endOffset b) ∧ cl.read noLz4 1 1000 = .ok [] := by
  obtain ⟨cl,hcl,h1,h2,h3⟩ : ∃ c ∈ runAll (exec noLz4 eager) keyedRun (smallLog 0),
      (∀ s ∈ c.segments, (s.size : ℤ) ≤ 1000) ∧ (∃ b ∈ storedBatches noLz4 c, 1 < endOffset b) ∧
        c.read noLz4 1 1000 = .ok [] := by decide +kernel
  exact ⟨cl,hcl,smallLog_fresh 0,h1,h2,h3⟩

end GoCommon.ForgeGaps
