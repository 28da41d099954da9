import GoCommon.ForgeDelivery

/-!
# Progress of a consumer

A poll reads a window of bytes whose size is guessed from the number of
records asked for. It returns a record exactly when the batch that holds the
offset of the consumer ends within the window, counted from the position the
index gives. Otherwise it returns nothing, now and at every later time.
-/

set_option autoImplicit false

namespace GoCommon.ForgeProgress
open List ByteWords ByteStream Tiling StepRuns ForgeRecord ForgeSegment ForgeFrames ForgeExtents
open ForgeCommitLog ForgeLogState ForgeLogRewrites ForgeLogRuns ForgeLogView ForgeDrain
open ForgeConsumer ForgeDelivery

/-- The batch that holds an offset ends within the window of a read: the
segment starts with batches that end at or before the offset and one that ends
after it, and all of them lie before the end of the window. -/
def InWindow (lz4 : Lz4) (cl : CommitLog) (m : ℤ) (o : ℕ) : Prop :=
  ∃ s ps q, findSegment cl.segments o = some s ∧
    (∀ p ∈ ps, Piece (nextBatch lz4) p ∧ endOffset p.2 ≤ o) ∧
    Piece (nextBatch lz4) q ∧ o < endOffset q.2 ∧
    flat (ps++[q]) <+: (cl.fs.disk.data s.logFile.ino).take s.size ∧
    (flat (ps++[q])).length ≤
      (s.index.lookup o).1+windowSize s (s.index.lookup o).1 m

/-! ## Windows of frames -/

theorem fits_append (w : ℕ) (fs gs : List Frame) (h : (raw fs).length ≤ w) :
    fits w (fs++gs) = fs++fits (w-(raw fs).length) gs := by
  induction fs generalizing w with
  | nil => simp
  | cons f fs ih =>
    rw [raw_cons, length_append] at h ⊢
    rw [cons_append, fits, if_pos (by omega), ih _ (by omega), Nat.sub_sub, cons_append]

theorem fits_length (w : ℕ) (fs : List Frame) : (raw (fits w fs)).length ≤ w := by
  induction fs generalizing w with
  | nil => simp [fits]
  | cons f fs ih =>
    unfold fits
    split
    · have := ih (w-f.bytes.length)
      rw [raw_cons, length_append]
      omega
    · simp

/-- The first frame that ends after the offset is read exactly when it ends
within the window. -/
theorem pending_fits_iff {o w : ℕ} (lo hi : List Frame) {g : Frame}
    (hlo : ∀ f ∈ lo, f.stop ≤ o) (hg : o < g.stop) :
    pending o (fits w (lo++g::hi)) ≠ [] ↔ (raw (lo++[g])).length ≤ w := by
  constructor
  · intro hne
    obtain ⟨f,hf⟩ := exists_mem_of_ne_nil _ hne
    obtain ⟨hf1,hf2⟩ := mem_filter.mp hf
    simp only [decide_eq_true_eq] at hf2
    have hfront := fits_front w (lo++g::hi)
    have hlen := fits_length w (lo++g::hi)
    generalize fits w (lo++g::hi) = fs at hf1 hfront hlen
    have hshort : lo++[g] <+: fs := by
      refine prefix_of_prefix_length_le (prefix_append_right_inj lo |>.mpr
        (by simp)) hfront ?_
      by_contra hcon
      have hin : fs <+: lo := by
        refine prefix_of_prefix_length_le hfront (prefix_append _ _) ?_
        simp only [length_append, length_singleton] at hcon
        omega
      have := hlo f (hin.subset hf1)
      omega
    obtain ⟨rest,rfl⟩ := hshort
    rw [raw_append, length_append] at hlen
    omega
  intro hle hnil
  have hs : lo++g::hi = (lo++[g])++hi := by simp
  rw [hs, fits_append w _ _ hle, pending_append, append_eq_nil_iff, pending_append,
    append_eq_nil_iff, pending_all o [g] (by simpa using hg)] at hnil
  cases hnil.1.2

/-- In terms of frames: the first pending frame of the picked segment ends
within the window. -/
theorem inWindow_frames (lz4 : Lz4) {cl : CommitLog} (m : ℤ) {o : ℕ} {y : Held}
    (lo hi : List Frame) {g : Frame} (hf : findSegment cl.segments o = some y.1)
    (hk : Keeps cl.fs.disk y.1 y.2) (hc : ∀ f ∈ y.2.frames, f.Readable lz4)
    (hs : y.2.frames = lo++g::hi) (hlo : ∀ f ∈ lo, f.stop ≤ o) (hg : o < g.stop) :
    InWindow lz4 cl m o ↔ (raw (lo++[g])).length ≤
      (y.1.index.lookup o).1+windowSize y.1 (y.1.index.lookup o).1 m := by
  have hend : ∀ f ∈ y.2.frames, endOffset (f.batch lz4) = f.stop :=
    fun f hfm => Frame.batch_end (hc f hfm)
  constructor
  · rintro ⟨s,ps,q,hfs,hps,hq,hoq,⟨rest,hrest⟩,hle⟩
    rw [hf] at hfs
    cases hfs
    rw [hk.take] at hrest
    have hall : ∀ p ∈ ps++[q], Piece (nextBatch lz4) p := by
      intro p hp
      rcases mem_append.mp hp with hp | hp
      · exact (hps p hp).1
      · rw [mem_singleton.mp hp]
        exact hq
    obtain ⟨pre,post,hsplit,hpieces,_,_⟩ := pieces_of_raw lz4 (ps++[q]) y.2.frames rest hall
      hrest.symm
    rw [hpieces, flat_pieces] at hle
    have hq2 : ∃ f ∈ pre, f.batch lz4 = q.2 := by
      have : q ∈ pieces lz4 pre := by rw [← hpieces]; simp
      obtain ⟨f,hfm,rfl⟩ := mem_map.mp this
      exact ⟨f,hfm,rfl⟩
    obtain ⟨f,hfm,hfq⟩ := hq2
    have hfront : lo++[g] <+: y.2.frames := ⟨hi,by rw [hs]; simp⟩
    have hpre : pre <+: y.2.frames := ⟨post,hsplit.symm⟩
    have hlong : lo++[g] <+: pre := by
      refine prefix_of_prefix_length_le hfront hpre ?_
      by_contra hcon
      have hin : pre <+: lo := by
        have hlow : lo <+: y.2.frames := ⟨g::hi,hs.symm⟩
        refine prefix_of_prefix_length_le hpre hlow ?_
        simp only [length_append, length_singleton] at hcon
        omega
      have h1 := hlo f (hin.subset hfm)
      have h2 := hend f (by rw [hsplit]; simp [hfm])
      rw [hfq] at h2
      omega
    obtain ⟨more,rfl⟩ := hlong
    rw [raw_append, length_append] at hle
    omega
  intro hle
  refine ⟨y.1,pieces lz4 lo,(g.bytes,g.batch lz4),hf,?_,?_,?_,?_,?_⟩
  · intro p hp
    obtain ⟨f,hfm,rfl⟩ := mem_map.mp hp
    have hm : f ∈ y.2.frames := by rw [hs]; simp [hfm]
    refine ⟨Frame.readable_piece (hc f hm),?_⟩
    rw [hend f hm]
    exact hlo f hfm
  · exact Frame.readable_piece (hc g (by rw [hs]; simp))
  · rw [hend g (by rw [hs]; simp)]
    exact hg
  · rw [hk.take, hs]
    simp [flat_append, flat_pieces]
  · simpa [flat_append, flat_pieces] using hle

/-! ## Polls -/

section Polls
variable {lz4 : Lz4} {cl : CommitLog} {held : List Held} {last : Held} {tape : List Record}
  (h : Recorded lz4 cl held last tape)
include h

theorem picked_pending {o : ℕ} {pre : List Held} {y : Held} {post : List Held}
    (ho : o < cl.nextOffset) (hp : Picked o (held++[last]) pre y post) :
    pending o y.2.frames ≠ [] := by
  intro hy
  have hall := pending_picked h.whole.exact hp
  rw [hy, tiled_last h.whole.tiled hp hy] at hall
  have ht := h.tiles
  rcases eq_nil_or_concat (framesOf (held++[last])) with hn | ⟨fs,f,hf⟩
  · rw [hn] at ht
    have hz : 0 = cl.nextOffset := ht
    omega
  rw [hf, concat_eq_append] at ht hall
  have hstop := ((tiles_last).mp ht).2
  rw [pending_append, pending_all o [f] (by simpa [hstop] using ho)] at hall
  simp at hall

theorem read_progress_iff {o : ℕ} {m : ℤ} (h0 : 0 ≤ m) (h1 : m < 2^63) (ho : o < cl.nextOffset) :
    cl.read lz4 o m ≠ .ok [] ↔ InWindow lz4 cl m o := by
  obtain ⟨pre,y,post,skip,rest,hs⟩ := read_seen h.whole.exact o h0 h1
  have hy : y ∈ held++[last] := by rw [hs.picked.parts]; simp
  have hne := picked_pending h ho hs.picked
  rw [hs.frames, pending_append, pending_nil o skip hs.before] at hne
  have hsort := y.2.sorted
  rw [hs.frames, pairwise_append] at hsort
  obtain ⟨lo,hi,rfl,hlo,hhi,hpend⟩ := pending_split o hsort.2.1
  rw [hpend] at hne
  obtain ⟨g,hi,rfl⟩ := exists_cons_of_ne_nil hne
  have hg := hhi g (by simp)
  have hin := inWindow_frames lz4 m (skip++lo) hi hs.found
    (h.whole.exact.rep.keeps_all y hy)
    (fun f hf => ((h.whole.exact.sound y hy).clean f hf).readable)
    (by rw [hs.frames, append_assoc]) ?_ hg
  · rw [hin, hs.read, hs.position, append_assoc, raw_append, length_append,
      Nat.add_le_add_iff_left, ← pending_fits_iff lo hi hlo hg]
    simp
  intro f hf
  rcases mem_append.mp hf with hf | hf
  · exact hs.before f hf
  · exact hlo f hf

theorem poll_step {n : ℕ} (o : ℕ) (hn : 0 < n) (hmade : n*recordSize ≤ maxAlloc)
    (ho : o < cl.nextOffset) : ∃ k, k ≤ n ∧
    o+k ≤ cl.nextOffset ∧ poll lz4 cl n o = .ok ((tape.drop o).take k,o+k) ∧
    (0 < k ↔ InWindow lz4 cl (pollBytes n) o) := by
  have hlen := recorded_length h
  obtain ⟨k,hk,hle,hp,hpos⟩ := poll_delivers h n o hn hmade (by omega)
  refine ⟨k,hk,by omega,hp,hpos.trans (read_progress_iff h ?_ ?_ ho)⟩
  · exact le_trans (by decide) (le_max_right _ _)
  · exact max_lt (int64_lt) (by decide)

end Polls

def pollTimes (lz4 : Lz4) (cl : CommitLog) (maxRecords : ℤ) : ℕ → ℕ → Option ℕ
  | 0, o => some o
  | k+1, o => match poll lz4 cl maxRecords o with
    | .ok (_,o') => pollTimes lz4 cl maxRecords k o'
    | .error _ => none

theorem polls_reach {lz4 : Lz4} {cl : CommitLog} {held : List Held} {last : Held}
    {tape : List Record} (h : Recorded lz4 cl held last tape) (n o : ℕ) (hn : 0 < n)
    (hmade : n*recordSize ≤ maxAlloc) (ho : o ≤ cl.nextOffset)
    (hw : ∀ p, o ≤ p → p < cl.nextOffset → InWindow lz4 cl (pollBytes n) p) :
    ∃ k, pollTimes lz4 cl n k o = some cl.nextOffset := by
  -- every poll below the newest offset brings the consumer closer to it
  induction hd : cl.nextOffset-o using Nat.strong_induction_on generalizing o with
  | _ d ih =>
    by_cases heq : o = cl.nextOffset
    · exact ⟨0,by rw [pollTimes, heq]⟩
    obtain ⟨k,_,hle,hp,hpos⟩ := poll_step h o hn hmade (by omega)
    have hk := hpos.mpr (hw o (le_refl o) (by omega))
    obtain ⟨j,hj⟩ := ih (cl.nextOffset-(o+k)) (by omega) (o+k) hle
      (fun p h1 h2 => hw p (by omega) h2) rfl
    refine ⟨j+1,?_⟩
    rw [pollTimes, hp]
    exact hj

/-! ## Logs built by appends -/

def appendStep (lz4 : Lz4) (cfg : Config) (x : Env × RecordBatch) (cl : CommitLog) :
    Option CommitLog :=
  ForgeLogRuns.exec lz4 cfg (.append x.1 x.2) cl

def FairStep (lz4 : Lz4) (cfg : Config) (x : Env × RecordBatch) (cl : CommitLog) : Prop :=
  Fair lz4 cfg x.1 cl x.2

instance (lz4 : Lz4) (cfg : Config) (x : Env × RecordBatch) (cl : CommitLog) :
    Decidable (FairStep lz4 cfg x cl) :=
  inferInstanceAs (Decidable (Fair lz4 cfg x.1 cl x.2))

theorem appends_recorded {lz4 : Lz4} {cfg : Config} {cl0 cl : CommitLog} (h0 : Fresh lz4 cl0)
    (h : Reaches (fun x s t => appendStep lz4 cfg x s = some t) (FairStep lz4 cfg) cl0 cl) :
    ∃ held last tape, Recorded lz4 cl held last tape := by
  refine h.invariant (fun cl => ∃ held last tape, Recorded lz4 cl held last tape) ?_ ?_
  · obtain ⟨last,hrec⟩ := fresh_recorded h0
    exact ⟨[],last,[],hrec⟩
  rintro ⟨env,batch⟩ s t ⟨held,last,tape,hrec⟩ hf hs
  obtain ⟨r,ha,_⟩ := returned_some hs
  obtain ⟨held',last',hcase⟩ := append_recorded hrec hf ha
  rcases hcase with ⟨_,hrec'⟩ | ⟨_,hrec'⟩
  · exact ⟨held',last',_,hrec'⟩
  · exact ⟨held',last',_,hrec'⟩

/-- A poll below the newest offset returns at least one record exactly when the
batch that holds the offset ends within the window and a slice can be made for
the records. When all batches do, a consumer that keeps polling reaches the newest
offset. -/
theorem poll_progress_iff (lz4 : Lz4) (cfg : Config) (cl0 cl : CommitLog) (h0 : Fresh lz4 cl0)
    (h : Reaches (fun x s t => appendStep lz4 cfg x s = some t) (FairStep lz4 cfg) cl0 cl)
    (maxRecords : ℤ) (hn : 1 ≤ maxRecords) :
    (∀ o < cl.newestOffset, (∃ rs o', poll lz4 cl maxRecords o = .ok (rs,o') ∧ 1 ≤ rs.length ∧
        (rs.length : ℤ) ≤ maxRecords) ↔
          InWindow lz4 cl (pollBytes maxRecords) o ∧ maxRecords*recordSize ≤ maxAlloc) ∧
      ∀ o ≤ cl.newestOffset, maxRecords*recordSize ≤ maxAlloc → (∀ p, o ≤ p → p < cl.newestOffset →
        InWindow lz4 cl (pollBytes maxRecords) p) →
        ∃ k, pollTimes lz4 cl maxRecords k o = some cl.newestOffset := by
  obtain ⟨held,last,tape,hrec⟩ := appends_recorded h0 h
  obtain ⟨n,rfl⟩ := Int.eq_ofNat_of_zero_le (show 0 ≤ maxRecords by omega)
  have hpos : 0 < n := by omega
  refine ⟨?_,fun o ho hmade hw => polls_reach hrec n o hpos hmade ho hw⟩
  intro o ho
  by_cases hmade : n*recordSize ≤ maxAlloc
  swap
  · constructor
    · rintro ⟨rs,o',hp,_⟩
      exact absurd (poll_allocates hp) hmade
    · intro hw
      exact absurd hw.2 hmade
  have hlen := recorded_length hrec
  obtain ⟨k,hk,hle,hp,hiff⟩ := poll_step hrec o hpos hmade ho
  have htake : ((tape.drop o).take k).length = k := by
    rw [length_take, length_drop]
    omega
  rw [← hiff]
  constructor
  · rintro ⟨rs,o',hp',hone,_⟩
    rw [hp] at hp'
    cases hp'
    omega
  · intro hk0
    exact ⟨_,_,hp,by omega,by omega⟩

/-- Two records of one byte can be polled one after the other. -/
theorem small_records_progress : ∃ cl,
    runAll (appendStep noLz4 defaultConfig) [(still 0,smallBatch 0 1),(still 0,smallBatch 0 2)]
      (smallLog 0) = some cl ∧ cl.newestOffset = 2 ∧ InWindow noLz4 cl (pollBytes 1) 1 ∧
    ∃ k, pollTimes noLz4 cl 1 k 1 = some cl.newestOffset := by
  obtain ⟨cl,hcl,hnew,hpoll⟩ : ∃ cl ∈ runAll (appendStep noLz4 defaultConfig)
      [(still 0,smallBatch 0 1),(still 0,smallBatch 0 2)] (smallLog 0),
      cl.newestOffset = 2 ∧ poll noLz4 cl 1 1 = .ok ([⟨0,0,none,some [2],none⟩],2) := by
    decide +kernel
  obtain ⟨hiff,hreach⟩ := poll_progress_iff noLz4 defaultConfig (smallLog 0) cl (smallLog_fresh 0)
    (reaches_of_runAll _ _ (by decide +kernel) hcl) 1 (le_refl 1)
  have hin : InWindow noLz4 cl (pollBytes 1) 1 :=
    ((hiff 1 (by omega)).mp ⟨_,_,hpoll,by simp,by simp⟩).1
  refine ⟨cl,hcl,hnew,hin,hreach 1 (by omega) (by decide) ?_⟩
  intro p h1 h2
  have hp : p = 1 := by omega
  rw [hp]
  exact hin

def bigBatch : RecordBatch :=
  ⟨0,1,compressionNone,0,0,[⟨0,0,none,some (List.replicate 4096 7),none⟩]⟩

theorem stuck_forever {lz4 : Lz4} {cl : CommitLog} {n : ℤ} {o : ℕ}
    (h : poll lz4 cl n o = .ok ([],o)) (k : ℕ) : pollTimes lz4 cl n k o = some o := by
  induction k with
  | zero => rfl
  | succ k ih =>
    rw [pollTimes, h]
    exact ih

set_option maxRecDepth 100000 in
/-- A record longer than the window of a poll stops the consumer for ever. -/
theorem big_record_stuck : ∃ cl, appendStep noLz4 defaultConfig (still 0,bigBatch) (smallLog 0) =
    some cl ∧ cl.oldestOffset = 0 ∧ cl.newestOffset = 1 ∧ poll noLz4 cl 1 0 = .ok ([],0) ∧
      ∀ k, pollTimes noLz4 cl 1 k 0 = some 0 := by
  obtain ⟨cl,hcl,h1,h2,h3⟩ : ∃ cl ∈ appendStep noLz4 defaultConfig (still 0,bigBatch) (smallLog 0),
      cl.oldestOffset = 0 ∧ cl.newestOffset = 1 ∧ poll noLz4 cl 1 0 = .ok ([],0) := by
    decide +kernel
  exact ⟨cl,hcl,h1,h2,h3,stuck_forever h3⟩

end GoCommon.ForgeProgress
