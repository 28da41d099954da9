import GoCommon.Tiling
import GoCommon.ForgeLogView

/-!
# Draining a log

A drain reads from an offset, moves past the last batch it got and reads
again, until a read returns nothing. From a log whose segments tile the
offsets it returns every batch that ends after the offset.
-/

set_option autoImplicit false

namespace GoCommon.ForgeDrain
open List Tiling ForgeRecord ForgeFrames ForgeExtents ForgeCommitLog ForgeLogState ForgeRewrite
open ForgeLogRewrites ForgeLogView

def drain (lz4 : Lz4) (cl : CommitLog) (m : ℤ) : ℕ → ℕ → Option (List KeyRecord)
  | 0, _ => none
  | n+1, o => match cl.read lz4 o m with
    | .error _ => none
    | .ok bs => match bs.getLast? with
      | none => some []
      | some b => (drain lz4 cl m n (endOffset b)).map (bs.flatMap keyRecords++·)

theorem drain_succ (lz4 : Lz4) (cl : CommitLog) (m : ℤ) (n o : ℕ) (out : List KeyRecord)
    (h : drain lz4 cl m n o = some out) : drain lz4 cl m (n+1) o = some out := by
  induction n generalizing o out with
  | zero => cases h
  | succ n ih =>
    rw [drain] at h ⊢
    rcases hr : cl.read lz4 o m with e | bs
    · simp [hr] at h
    rcases hl : bs.getLast? with _ | b
    · simpa [hr, hl] using h
    · simp only [hr, hl, Option.map_eq_some_iff] at h ⊢
      obtain ⟨rest,hr,rfl⟩ := h
      exact ⟨rest,ih _ _ hr,rfl⟩

theorem drain_le (lz4 : Lz4) (cl : CommitLog) (m : ℤ) (n k o : ℕ) (out : List KeyRecord)
    (hk : n ≤ k) (h : drain lz4 cl m n o = some out) : drain lz4 cl m k o = some out := by
  induction hk with
  | refl => exact h
  | step _ ih => exact drain_succ lz4 cl m _ o out ih

theorem drain_unique {lz4 : Lz4} {cl : CommitLog} {m : ℤ} {n k o : ℕ} {out out' : List KeyRecord}
    (h : drain lz4 cl m n o = some out) (h' : drain lz4 cl m k o = some out') : out = out' := by
  have h1 := drain_le lz4 cl m n (max n k) o out (le_max_left _ _) h
  have h2 := drain_le lz4 cl m k (max n k) o out' (le_max_right _ _) h'
  rw [h1] at h2
  exact Option.some.inj h2

def recordsOf (lz4 : Lz4) (fs : List Frame) : List KeyRecord :=
  fs.flatMap (fun f => keyRecords (f.batch lz4))

@[simp] theorem recordsOf_nil (lz4 : Lz4) : recordsOf lz4 [] = [] := rfl

@[simp] theorem recordsOf_append {lz4 : Lz4} {fs gs : List Frame} :
    recordsOf lz4 (fs++gs) = recordsOf lz4 fs++recordsOf lz4 gs := flatMap_append

theorem recordsOf_batches (lz4 : Lz4) (fs : List Frame) :
    (fs.map (Frame.batch lz4)).flatMap keyRecords = recordsOf lz4 fs := by
  simp [recordsOf, flatMap_map]

theorem pending_last {o : ℕ} {a : Extent} (h : pending o a.frames ≠ []) :
    ∃ fs f, a.frames = fs++[f] ∧ pending o a.frames = pending o fs++[f] ∧ f.stop = a.finish := by
  rcases eq_nil_or_concat a.frames with hn | ⟨fs,f,hf⟩
  · rw [hn] at h
    exact absurd rfl h
  rw [concat_eq_append] at hf
  have hfin := a.finish_last fs f hf
  obtain ⟨g,hg⟩ := exists_mem_of_ne_nil _ h
  obtain ⟨hg1,hg2⟩ := mem_filter.mp hg
  have hstop : o < f.stop := by
    have := a.stop_le_finish g hg1
    simp only [decide_eq_true_eq] at hg2
    omega
  refine ⟨fs,f,hf,?_,hfin.symm⟩
  rw [hf, pending_append, pending_all o [f] (by simpa using hstop)]

section Step
variable {lz4 : Lz4} {cl : CommitLog} {held : List Held} {last : Held}
  (h : Exact lz4 cl held last) {o : ℕ} {pre : List Held} {y : Held} {post : List Held}
include h

theorem read_pending (m : ℤ) (hm : ∀ s ∈ cl.segments, Unbounded m s) (o : ℕ) :
    ∃ pre y post, Picked o (held++[last]) pre y post ∧
      cl.read lz4 o m = .ok ((pending o y.2.frames).map (Frame.batch lz4)) := by
  obtain ⟨pre,y,post,hp,_,hr⟩ := read_picked lz4 h.rep o
  have hy : y ∈ held++[last] := by rw [hp.parts]; simp
  refine ⟨pre,y,post,hp,?_⟩
  rw [hr, readFrom_unbounded lz4 cl.fs y o m (h.rep.keeps_all y hy) (h.sound y hy)]
  refine hm y.1 ?_
  rw [h.rep.listed]
  exact mem_map_of_mem hy

omit h in
theorem drain_stop {m : ℤ} (n : ℕ) (hy : pending o y.2.frames = [])
    (hr : cl.read lz4 o m = .ok ((pending o y.2.frames).map (Frame.batch lz4))) :
    drain lz4 cl m (n+1) o = some [] := by
  rw [drain, hr, hy]
  rfl

theorem drain_next {m : ℤ} (n : ℕ) (hmem : y ∈ held++[last]) (hy : pending o y.2.frames ≠ [])
    (hr : cl.read lz4 o m = .ok ((pending o y.2.frames).map (Frame.batch lz4))) :
    drain lz4 cl m (n+1) o = (drain lz4 cl m n y.2.finish).map
      (recordsOf lz4 (pending o y.2.frames)++·) := by
  obtain ⟨fs,f,hf,hp,hfin⟩ := pending_last hy
  have hread := ((h.sound y hmem).clean f (by simp [hf])).readable
  have hl : ((pending o y.2.frames).map (Frame.batch lz4)).getLast? = some (f.batch lz4) := by
    rw [hp]
    simp
  rw [drain, hr]
  simp only [hl]
  rw [Frame.batch_end hread, hfin, recordsOf_batches]

theorem pending_picked (hp : Picked o (held++[last]) pre y post) :
    pending o (framesOf (held++[last])) = pending o y.2.frames++framesOf post := by
  have hord := h.rep.ordered
  rw [hp.parts, pairwise_append] at hord
  have hsplit : framesOf (held++[last]) = framesOf pre++(y.2.frames++framesOf post) := by
    rw [hp.parts]
    simp [framesOf]
  rw [hsplit, pending_append, pending_append, pending_nil o (framesOf pre),
    pending_all o (framesOf post), nil_append]
  · intro f hf
    obtain ⟨z,hz,hfz⟩ := mem_flatMap.mp hf
    exact lt_trans (lt_of_lt_of_le (hp.after z hz) (z.2.above f hfz)) f.base_lt_stop
  intro f hf
  obtain ⟨z,hz,hfz⟩ := mem_flatMap.mp hf
  rcases hp.upTo with hle | rfl
  · exact le_trans (z.2.stop_le_finish f hfz) (le_trans (hord.2.2 z hz y (by simp)) hle)
  · cases hz

theorem pending_beyond (hp : Picked o (held++[last]) pre y post) :
    pending y.2.finish (framesOf (held++[last])) = framesOf post := by
  have hord := h.rep.ordered
  rw [hp.parts, pairwise_append, pairwise_cons] at hord
  have hsplit : framesOf (held++[last]) = framesOf pre++(y.2.frames++framesOf post) := by
    rw [hp.parts]
    simp [framesOf]
  rw [hsplit, pending_append, pending_append, pending_nil _ (framesOf pre),
    pending_nil _ y.2.frames y.2.stop_le_finish, pending_all _ (framesOf post),
    nil_append, nil_append]
  · intro f hf
    obtain ⟨z,hz,hfz⟩ := mem_flatMap.mp hf
    exact lt_of_le_of_lt (le_trans (hord.2.1.1 z hz) (z.2.above f hfz)) f.base_lt_stop
  intro f hf
  obtain ⟨z,hz,hfz⟩ := mem_flatMap.mp hf
  exact le_trans (z.2.stop_le_finish f hfz) (le_trans (hord.2.2 z hz y (by simp))
    y.2.base_le_finish)

/-- A drain ends, and all it returns are records of batches that end after the
offset. -/
theorem drain_ends (m : ℤ) (hm : ∀ s ∈ cl.segments, Unbounded m s) (o : ℕ) :
    ∃ n out, drain lz4 cl m n o = some out ∧
      ∀ kr ∈ out, kr ∈ recordsOf lz4 (pending o (framesOf (held++[last]))) := by
  induction hk : (pending o (framesOf (held++[last]))).length using Nat.strong_induction_on
    generalizing o with
  | _ k ih =>
    obtain ⟨pre,y,post,hp,hr⟩ := read_pending h m hm o
    have hsplit := pending_picked h hp
    by_cases hy : pending o y.2.frames = []
    · exact ⟨1,[],drain_stop 0 hy hr,by simp⟩
    have hmem : y ∈ held++[last] := by rw [hp.parts]; simp
    have hpos := length_pos_iff.mpr hy
    have hbeyond := pending_beyond h hp
    obtain ⟨n,out,hn,hin⟩ := ih _ (by rw [hbeyond, ← hk, hsplit, length_append]; omega)
      y.2.finish rfl
    refine ⟨n+1,recordsOf lz4 (pending o y.2.frames)++out,?_,?_⟩
    · rw [drain_next h n hmem hy hr, hn]
      rfl
    intro kr hkr
    rw [hsplit, recordsOf_append, mem_append]
    rw [hbeyond] at hin
    exact (mem_append.mp hkr).imp id (hin kr)

def Tiled (ys : List Held) (next : ℕ) : Prop :=
  Tiles (fun y : Held => y.2.base) (fun y => y.2.finish) 0 ys next

omit h in
theorem tiled_last {ys : List Held} {next : ℕ} (ht : Tiled ys next)
    (hp : Picked o ys pre y post) (hy : pending o y.2.frames = []) : framesOf post = [] := by
  rcases post with _ | ⟨z,post⟩
  · rfl
  exfalso
  rw [Tiled, hp.parts, tiles_append] at ht
  obtain ⟨mid,h1,h2,h3,_⟩ := ht
  dsimp only at h2 h3
  have hz := hp.after z (by simp)
  have hbase : y.2.base ≤ o := by
    rcases hp.upTo with hle | rfl
    · exact hle
    · have : 0 = mid := h1
      omega
  rcases eq_nil_or_concat y.2.frames with hn | ⟨fs,f,hf⟩
  · rw [y.2.finish_nil hn] at h3
    omega
  rw [concat_eq_append] at hf
  have hfin := y.2.finish_last fs f hf
  have hm : f ∈ pending o y.2.frames := by
    refine mem_filter.mpr ⟨by simp [hf],?_⟩
    simp only [decide_eq_true_eq]
    omega
  rw [hy] at hm
  cases hm

theorem drain_tiled {next : ℕ} (ht : Tiled (held++[last]) next) (m : ℤ)
    (hm : ∀ s ∈ cl.segments, Unbounded m s) (o : ℕ) :
    ∃ n, drain lz4 cl m n o = some (recordsOf lz4 (pending o (framesOf (held++[last])))) := by
  -- every read that returns something leaves fewer pending frames
  induction hk : (pending o (framesOf (held++[last]))).length using Nat.strong_induction_on
    generalizing o with
  | _ k ih =>
    obtain ⟨pre,y,post,hp,hr⟩ := read_pending h m hm o
    have hsplit := pending_picked h hp
    by_cases hy : pending o y.2.frames = []
    · refine ⟨1,?_⟩
      rw [drain_stop 0 hy hr, hsplit, hy, tiled_last ht hp hy]
      rfl
    have hmem : y ∈ held++[last] := by rw [hp.parts]; simp
    have hpos := length_pos_iff.mpr hy
    have hbeyond := pending_beyond h hp
    have hlen : (pending y.2.finish (framesOf (held++[last]))).length < k := by
      rw [hbeyond, ← hk, hsplit, length_append]
      omega
    obtain ⟨n,hn⟩ := ih _ hlen y.2.finish rfl
    refine ⟨n+1,?_⟩
    rw [drain_next h n hmem hy hr, hn, hbeyond, hsplit, recordsOf_append]
    rfl

end Step

end GoCommon.ForgeDrain
