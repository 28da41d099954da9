import GoCommon.ForgeFrames
import GoCommon.ForgeRecovery

/-!
# Segments as extents of offsets

An extent is a base offset and the frames stored from it on, in offset order.
A live segment holds its extent exactly and can be written; any other segment
keeps its extent at the front of its log file. Appending, sealing, reading and
reopening are described on extents.
-/

set_option autoImplicit false

namespace GoCommon.ForgeExtents
open List ByteWords ByteStream FileDisk ForgeRecord ForgeRecordCodec ForgeIndex ForgeSegment
open ForgeFrames ForgeSegmentFiles ForgeRecovery

structure Extent where
  base : ℕ
  frames : List Frame
  sorted : frames.Pairwise (fun f g => f.stop ≤ g.base)
  above : ∀ f ∈ frames, base ≤ f.base

variable {a : Extent} {f : Frame} {d : Disk Path} {s : Segment} {fs : Files}

namespace Extent

def finish (a : Extent) : ℕ := (a.frames.getLast?.map Frame.stop).getD a.base

def empty (base : ℕ) : Extent := ⟨base,[],by simp,by simp⟩

theorem finish_nil (a : Extent) (h : a.frames = []) : a.finish = a.base := by simp [finish, h]

theorem finish_last (a : Extent) (fs : List Frame) (f : Frame) (h : a.frames = fs++[f]) :
    a.finish = f.stop := by simp [finish, h]

theorem stop_le_finish (a : Extent) (f : Frame) (h : f ∈ a.frames) : f.stop ≤ a.finish := by
  rcases eq_nil_or_concat a.frames with hn | ⟨fs,g,hg⟩
  · simp [hn] at h
  rw [concat_eq_append] at hg
  rw [a.finish_last fs g hg]
  rw [hg] at h
  rcases mem_append.mp h with h | h
  · have hs := a.sorted
    rw [hg, pairwise_append] at hs
    exact le_trans (hs.2.2 f h g (by simp)) (le_of_lt g.base_lt_stop)
  · rw [mem_singleton.mp h]

theorem base_le_finish (a : Extent) : a.base ≤ a.finish := by
  cases h : a.frames with
  | nil => rw [a.finish_nil h]
  | cons f fs =>
    have hf : f ∈ a.frames := by simp [h]
    exact le_trans (a.above f hf) (le_trans (le_of_lt f.base_lt_stop) (a.stop_le_finish f hf))

theorem base_lt_finish (a : Extent) (h : a.frames ≠ []) : a.base < a.finish := by
  obtain ⟨f,hf⟩ := exists_mem_of_ne_nil _ h
  exact lt_of_le_of_lt (a.above f hf) (lt_of_lt_of_le f.base_lt_stop (a.stop_le_finish f hf))

def push (a : Extent) (f : Frame) (h : a.finish ≤ f.base) : Extent where
  base := a.base
  frames := a.frames++[f]
  sorted := by
    rw [pairwise_append]
    refine ⟨a.sorted,by simp,?_⟩
    intro g hg k hk
    rw [mem_singleton.mp hk]
    exact le_trans (a.stop_le_finish g hg) h
  above := by
    intro g hg
    rcases mem_append.mp hg with hg | hg
    · exact a.above g hg
    · rw [mem_singleton.mp hg]
      exact le_trans a.base_le_finish h

@[simp] theorem push_base (h : a.finish ≤ f.base) :
    (a.push f h).base = a.base := rfl

@[simp] theorem push_frames (h : a.finish ≤ f.base) :
    (a.push f h).frames = a.frames++[f] := rfl

@[simp] theorem push_finish (a : Extent) (h : a.finish ≤ f.base) :
    (a.push f h).finish = f.stop := finish_last _ a.frames f rfl

def front (a : Extent) (pre post : List Frame) (h : a.frames = pre++post) : Extent where
  base := a.base
  frames := pre
  sorted := by
    have hs := a.sorted
    rw [h, pairwise_append] at hs
    exact hs.1
  above := fun f hf => a.above f (by simp [h, hf])

theorem front_finish (a : Extent) {pre post : List Frame} (h : a.frames = pre++post) :
    (a.front pre post h).finish ≤ a.finish := by
  rcases eq_nil_or_concat pre with hn | ⟨fs,g,hg⟩
  · rw [finish_nil _ hn]
    exact a.base_le_finish
  · rw [concat_eq_append] at hg
    rw [finish_last _ fs g hg]
    exact a.stop_le_finish g (by simp [h, hg])

end Extent

structure Live (dir : Dir) (d : Disk Path) (s : Segment) (a : Extent) : Prop where
  written : Written dir d s (raw a.frames)
  base : s.baseOffset = a.base
  indexed : s.index.entries.Sublist (marks a.base 0 a.frames)
  next : s.nextOffset = a.finish

structure Saved (d : Disk Path) (idx : Index Path) : Prop where
  data : d.data idx.file.ino = putEntries (idx.entries.take idx.dirtyFrom)
  dirty : idx.dirtyFrom ≤ idx.entries.length
  position : idx.file.pos = 12*idx.dirtyFrom ∨ idx.dirtyFrom = idx.entries.length

structure Keeps (d : Disk Path) (s : Segment) (a : Extent) : Prop where
  logName : s.logFile.name = ⟨.main,a.base,.log⟩
  idxName : s.index.file.name = ⟨.main,a.base,.idx⟩
  base : s.baseOffset = a.base
  idxBase : s.index.baseOffset = a.base
  size : s.size = (raw a.frames).length
  small : s.size ≤ maxFileSize
  stored : raw a.frames <+: d.data s.logFile.ino
  mapped : ∀ n, s.mmapData = some n → n = s.size
  indexed : ∃ lost, s.index.entries.Sublist (marks a.base 0 (a.frames++lost))
  reach : s.nextOffset ≤ a.finish
  unmarked : a.frames = [] → s.index.entries.drop s.index.dirtyFrom = []
  saved : a.frames ≠ [] → Saved d s.index

theorem Live.keeps (h : Live .main d s a) :
    Keeps d s a where
  logName := by rw [h.written.logName, h.base]
  idxName := by rw [h.written.idxName, h.base]
  base := h.base
  idxBase := by rw [h.written.idxBase, h.base]
  size := h.written.size
  small := by rw [h.written.size]; exact h.written.small
  stored := by rw [h.written.data]
  mapped := by simp [h.written.unmapped]
  indexed := ⟨[],by simpa using h.indexed⟩
  reach := le_of_eq h.next
  unmarked := by
    intro hn
    have hi := h.indexed
    rw [hn, marks, sublist_nil] at hi
    simp [hi]
  saved := fun _ => ⟨h.written.flushed.data,h.written.flushed.dirty,.inl h.written.flushed.position⟩

theorem Keeps.transport {d' : Disk Path} (h : Keeps d s a)
    (hd : a.frames ≠ [] → d'.data s.logFile.ino = d.data s.logFile.ino ∧
      d'.data s.index.file.ino = d.data s.index.file.ino) : Keeps d' s a where
  logName := h.logName
  idxName := h.idxName
  base := h.base
  idxBase := h.idxBase
  size := h.size
  small := h.small
  stored := by
    by_cases hf : a.frames = []
    · simp [hf]
    · rw [(hd hf).1]
      exact h.stored
  mapped := h.mapped
  indexed := h.indexed
  reach := h.reach
  unmarked := h.unmarked
  saved := fun hf => ⟨by rw [(hd hf).2]; exact (h.saved hf).data,(h.saved hf).dirty,
    (h.saved hf).position⟩

theorem Keeps.remapped (h : Keeps d s a) : Keeps d { s with mmapData := some s.size } a :=
  ⟨h.logName,h.idxName,h.base,h.idxBase,h.size,h.small,h.stored,
    fun _ hn => (Option.some.inj hn).symm,h.indexed,h.reach,h.unmarked,h.saved⟩

theorem Keeps.sealed (h : Keeps d s a) (env : Env) : Keeps d (s.sealSegment env) a := by
  unfold Segment.sealSegment
  split
  · exact h
  split
  · exact h.remapped
  · exact h

/-! ## Writing -/

theorem started_live {dir : Dir} {base ptr : ℕ} {d' : Disk Path}
    (h : Started dir base ptr d d' s) : Live dir d' s (Extent.empty base) :=
  ⟨h.written,h.base,by rw [h.entries]; simp,h.next⟩

theorem append_live {cfg : Config} {env : Env} {dir : Dir} {fs' : Files} {s' : Segment}
    {f : Frame} (hf : a.finish ≤ f.base) (h : Live dir fs.disk s a)
    (ha : s.append cfg env f.bytes f.base f.count fs = .ok (fs',s')) :
    Live dir fs'.disk s' (a.push f hf) := by
  obtain ⟨hw,_,hs⟩ := append_written h.written ha
  have hsz := h.written.size
  refine ⟨by simpa using hw,hs.base.trans h.base,?_,?_⟩
  · rw [hs.entries, Extent.push_frames, marks_append]
    unfold indexedAfter
    split
    · rw [h.base, hsz]
      exact List.Sublist.append h.indexed (by simp [marks])
    · exact h.indexed.trans (sublist_append_left _ _)
  · rw [hs.next, Extent.push_finish, Nat.mod_eq_of_lt f.bounded]
    rfl

/-! ## Reading -/

theorem Keeps.take (h : Keeps d s a) : (d.data s.logFile.ino).take s.size = raw a.frames := by
  obtain ⟨rest,hr⟩ := h.stored
  rw [← hr, h.size, take_left]

theorem readRawBytes_keeps (h : Keeps fs.disk s a) : s.readRawBytes fs = raw a.frames := by
  unfold Segment.readRawBytes
  split
  · have hs := h.size
    exact (length_eq_zero_iff.mp (by omega)).symm
  rcases hm : s.mmapData with _ | n
  · exact h.take
  · rw [h.mapped n hm]
    exact h.take

theorem window_front (h : Keeps fs.disk s a) {pos : ℕ}
    {m : ℤ} {buf : Bytes} (hw : s.window fs pos m = .ok (some buf)) :
    pos < s.size ∧ buf <+: (raw a.frames).drop pos := by
  rw [← h.take]
  unfold Segment.window at hw
  rcases hm : s.mmapData with _ | n
  · simp only [hm] at hw
    split at hw
    · cases hw
    refine ⟨by omega,?_⟩
    generalize hk : (if m < (s.size:ℤ)-pos then m else (s.size:ℤ)-pos) = k at hw
    split at hw
    · cases hw
    split at hw
    · cases hw
    · cases hw
      rw [drop_take]
      exact (take_prefix_take_left (by omega))
  simp only [hm] at hw
  have hn := h.mapped n hm
  split at hw
  · cases hw
  cases hw
  refine ⟨by omega,?_⟩
  rw [drop_take, drop_take]
  exact take_prefix_take_left (by omega)

theorem readFrom_front (lz4 : Lz4) (fs : Files) (s : Segment) (a : Extent)
    (h : Keeps fs.disk s a) (o : ℕ) (m : ℤ) (bs : List RecordBatch)
    (hr : s.readFrom lz4 fs o m = .ok bs) :
    ∃ mid : List Frame, mid.Sublist a.frames ∧ (∀ f ∈ mid, f.Readable lz4) ∧
      bs.Sublist (mid.map (Frame.batch lz4)) := by
  unfold Segment.readFrom at hr
  rcases hw : s.window fs (s.index.lookup o).1 m with e | _ | buf
  · simp [hw] at hr
  · simp only [hw, Except.ok.injEq] at hr
    exact ⟨[],by simp,by simp,by simp [← hr]⟩
  obtain ⟨hp,hb⟩ := window_front h hw
  obtain ⟨lost,hi⟩ := h.indexed
  rw [← h.idxBase] at hi
  obtain ⟨pre,post,hsplit,hpos⟩ := lookup_boundary s.index _ hi o
  have hcut : ∃ rest, a.frames = pre++rest := by
    rcases append_eq_append_iff.mp hsplit with ⟨c,hc,_⟩ | ⟨c,hc,_⟩
    · have hs := h.size
      rw [hpos, hc, raw_append, length_append] at hp
      omega
    · exact ⟨c,hc⟩
  obtain ⟨rest,hrest⟩ := hcut
  rw [hrest, raw_append, hpos, drop_left] at hb
  simp only [hw] at hr
  rcases hs : scanAll (nextBatch lz4) buf with e | ⟨cs,c⟩
  · simp [hs] at hr
  simp only [hs, Except.ok.injEq] at hr
  obtain ⟨mid,tail,hm,hcs,_,hread⟩ := scan_front hb hs
  refine ⟨mid,?_,hread,?_⟩
  · rw [hrest, hm]
    exact (sublist_append_left _ _).trans (sublist_append_right _ _)
  · rw [← hr, hcs]
    exact filter_sublist

/-! ## Reopening -/

theorem marked_split (idx : Index Path) (base : ℕ) (fs : List Frame) (hne : fs ≠ [])
    (h : idx.entries.Sublist (marks base 0 fs)) : ∃ pre post, fs = pre++post ∧ post ≠ [] ∧
      markedPosition idx = (raw pre).length := by
  unfold markedPosition Index.lastEntry
  rcases hl : idx.entries.getLast? with _ | e
  · exact ⟨[],fs,rfl,hne,rfl⟩
  · obtain ⟨pre,f,post,hf,he⟩ := mark_position (h.subset (mem_of_getLast? hl))
    exact ⟨pre,f::post,hf,by simp,by simp [he, entry]⟩

theorem advance_le (n m : ℕ) (bs : List RecordBatch) (hn : n ≤ m)
    (h : ∀ b ∈ bs, endOffset b ≤ m) : advance n bs ≤ m := by
  induction bs generalizing n with
  | nil => exact hn
  | cons b bs ih => exact ih _ (max_le hn (h b (by simp))) (fun c hc => h c (by simp [hc]))

theorem le_advance (n : ℕ) (bs : List RecordBatch) : n ≤ advance n bs := by
  induction bs generalizing n with
  | nil => exact le_refl _
  | cons b bs ih => exact le_trans (le_max_left _ _) (ih _)

theorem end_le_advance {n : ℕ} {bs : List RecordBatch} {b : RecordBatch} (h : b ∈ bs) :
    endOffset b ≤ advance n bs := by
  obtain ⟨as,cs,rfl⟩ := append_of_mem h
  rw [advance_append]
  exact le_trans (le_max_right _ _) (le_advance _ cs)

/-- Where the recovery of a log of frames ends: after some of its frames, all
of them when they all decode. -/
theorem windowed_frames {lz4 : Lz4} {pre post : List Frame} {v n : ℕ} (ha : a.frames = pre++post)
    (h : windowed lz4 (raw a.frames) (raw pre).length a.base = .ok (v,n)) :
    ∃ mid tail, post = mid++tail ∧ v = (raw (pre++mid)).length ∧
      (∀ m, a.base ≤ m → (∀ f ∈ mid, f.stop ≤ m) → n ≤ m) ∧ (∀ f ∈ mid, f.stop ≤ n) ∧
      ((∀ f ∈ post, f.Readable lz4) → tail = []) := by
  have hle := windowed_le lz4 _ (by simp [ha]) h
  obtain ⟨qs,hq,_,hd,hstop,_,hn⟩ := windowed_split lz4 h
  have hdrop : (raw a.frames).drop (raw pre).length = raw post := by
    rw [ha, raw_append, drop_left]
  rw [hdrop] at hd
  obtain ⟨mid,tail,hpost,rfl,hread,hrest⟩ := pieces_of_raw lz4 qs post _ hq hd
  refine ⟨mid,tail,hpost,?_,?_,?_,?_⟩
  · have hl := congrArg List.length hrest
    rw [length_drop] at hl
    have hall : (raw a.frames).length = (raw (pre++mid)).length+(raw tail).length := by
      simp [ha, hpost]
      omega
    omega
  · intro m hm hs
    rw [hn, pieces_snd]
    refine advance_le _ _ _ hm ?_
    intro b hb
    obtain ⟨f,hf,rfl⟩ := mem_map.mp hb
    rw [Frame.batch_end (hread f hf)]
    exact hs f hf
  · intro f hf
    rw [hn, pieces_snd, ← Frame.batch_end (hread f hf)]
    exact end_le_advance (mem_map_of_mem hf)
  intro hall
  rw [hrest] at hstop
  cases tail with
  | nil => rfl
  | cons f fs =>
    have hf := Frame.readable_piece (hall f (by simp [hpost]))
    have := piece_extend (nextBatch_framing lz4) (raw fs) hf
    rw [raw_cons, this] at hstop
    cases hstop

structure Reopened (lz4 : Lz4) (fs fs' : Files) (s : Segment) (a kept : Extent) : Prop where
  keeps : Keeps fs'.disk s kept
  base : kept.base = a.base
  front : kept.frames <+: a.frames
  finish : kept.finish ≤ a.finish
  touches : Disk.Touches s.logFile.ino s.index.file.ino fs.disk fs'.disk
  whole : (∀ f ∈ a.frames, f.Readable lz4) → kept = a ∧ s.nextOffset = a.finish

theorem openSegment_reopened (lz4 : Lz4) (env : Env) (ptr i j : ℕ) (fs fs' : Files) (s : Segment)
    (a : Extent) (entries : List IndexEntry) (hij : i ≠ j)
    (hi : fs.disk.lookup ⟨.main,a.base,.log⟩ = some i)
    (hj : fs.disk.lookup ⟨.main,a.base,.idx⟩ = some j)
    (hdi : fs.disk.data i = raw a.frames) (hdj : fs.disk.data j = putEntries entries)
    (hsub : entries.Sublist (marks a.base 0 a.frames)) (hsmall : (raw a.frames).length ≤ maxFileSize)
    (ho : openSegment lz4 env .main a.base ptr fs = (fs',.ok s)) :
    ∃ kept, Reopened lz4 fs fs' s a kept ∧ s.ptr = ptr ∧ s.logFile.ino = i ∧
      s.index.file.ino = j ∧ s.index.entries = entries ∧ s.mmapData = none := by
  have hload : loadEntries (fs.disk.data j) = entries := by
    rw [hdj, loadEntries_put entries (fun e he => mark_inRange (hsub.subset he) hsmall)]
  rw [openSegment_existing lz4 env ptr hi hj, hload] at ho
  by_cases hne : a.frames = []
  · have hz : (fs.disk.data i).length = 0 := by simp [hdi, hne]
    rw [recover_skips lz4 env fs (by dsimp only; omega)] at ho
    obtain ⟨rfl,rfl⟩ := ho
    refine ⟨a,⟨⟨rfl,rfl,rfl,rfl,by simp [hdi],by simpa [hdi] using hsmall,by simp [hdi],
      by simp,⟨[],by simpa using hsub⟩,?_,by simp,fun hf => absurd hne hf⟩,rfl,prefix_refl _,
      le_refl _,Disk.Touches.refl,fun _ => ⟨rfl,(a.finish_nil hne).symm⟩⟩,rfl,rfl,rfl,rfl,rfl⟩
    exact le_of_eq (a.finish_nil hne).symm
  obtain ⟨pre,post,hsplit,hpost,hmark⟩ := marked_split
    ⟨⟨⟨.main,a.base,.idx⟩,j,0⟩,entries,a.base,entries.length⟩ a.base a.frames hne hsub
  have hlt : (raw pre).length < (raw a.frames).length := by
    have := raw_length_pos hpost
    rw [hsplit, raw_append, length_append]
    omega
  rw [recover_scans lz4 env fs _ rfl (by rw [hmark, hdi]; exact hlt)] at ho
  dsimp only at ho
  rw [hmark, hdi] at ho
  rcases hw : windowed lz4 (raw a.frames) (raw pre).length a.base with e | ⟨v,n⟩
  · simp [hw] at ho
  simp only [hw, Prod.mk.injEq, Except.ok.injEq] at ho
  obtain ⟨hfs,rfl⟩ := ho
  obtain ⟨mid,tail,hmid,hv,hup,hlow,hall⟩ := windowed_frames hsplit hw
  have hkeep : a.frames = (pre++mid)++tail := by rw [hsplit, hmid, append_assoc]
  have hfin := a.front_finish hkeep
  have htake : (raw a.frames).take v = raw (pre++mid) := by
    rw [hkeep, raw_append, hv, take_left]
  have htouch : Disk.Touches i j fs.disk fs'.disk := by
    rw [← hfs]
    split
    · exact Disk.touches_put_left
    · exact Disk.Touches.refl
  have hj' : fs'.disk.data j = putEntries entries := by
    rw [← hfs]
    split
    · rw [Fs.disk_truncate, Disk.data_put_other _ _ (Ne.symm hij), hdj]
    · exact hdj
  have hi' : raw (pre++mid) <+: fs'.disk.data i := by
    rw [← hfs]
    split
    · simp [hdi, htake]
    · rw [hdi, ← htake]
      exact take_prefix _ _
  refine ⟨a.front (pre++mid) tail hkeep,⟨⟨rfl,rfl,rfl,rfl,hv,?_,hi',by simp,
    ⟨tail,by rw [Extent.front, ← hkeep]; exact hsub⟩,?_,by simp,fun _ => ⟨?_,le_refl _,.inr rfl⟩⟩,
    rfl,⟨tail,hkeep.symm⟩,hfin,htouch,?_⟩,rfl,rfl,rfl,rfl,rfl⟩
  · have hr := congrArg (fun l => (raw l).length) hkeep
    simp only [raw_append, length_append] at hr hv ⊢
    omega
  · exact hup _ (Extent.base_le_finish (a.front (pre++mid) tail hkeep))
      (fun f hf => Extent.stop_le_finish _ f (by simp [Extent.front, hf]))
  · simp [hj']
  intro hread
  have htail := hall (fun f hf => hread f (by simp [hsplit, hf]))
  rw [htail, append_nil] at hmid
  subst htail
  have hk : a.front (pre++mid) [] hkeep = a := by
    rw [append_nil] at hkeep
    obtain ⟨base,frames,_,_⟩ := a
    subst hkeep
    rfl
  refine ⟨hk,le_antisymm (hup _ a.base_le_finish ?_) ?_⟩
  · exact fun f hf => a.stop_le_finish f (by simp [hsplit, hmid, hf])
  rcases eq_nil_or_concat mid with hn | ⟨gs,g,hg⟩
  · exact absurd (hmid.trans hn) hpost
  · rw [concat_eq_append] at hg
    rw [a.finish_last (pre++gs) g (by rw [hsplit, hmid, hg, append_assoc])]
    exact hlow g (by simp [hg])

end GoCommon.ForgeExtents
