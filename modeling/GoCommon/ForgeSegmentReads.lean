import GoCommon.ForgeLogView
import GoCommon.StepRuns

/-!
# Reads of one segment

A segment is built by appends at contiguous offsets. The index marks some of its
batches, and a read looks at a window that begins at the last marked batch which
starts at or before the offset. What it returns is compared with a filter over
all stored batches. The mapped file of a sealed segment is cut with a sum that
can leave 64 bits, and the read then returns nothing.
-/

set_option autoImplicit false

namespace GoCommon.ForgeSegmentReads
open List FileDisk BinarySearch StepRuns ForgeRecord ForgeIndex ForgeSegment ForgeFrames
open ForgeSegmentFiles ForgeExtents ForgeLogState ForgeLogView

/-! ## The mark of an offset -/

def windowStart (s : Segment) (o : ℕ) : ℕ :=
  ((s.index.entries.filter (fun e => s.index.baseOffset+e.relativeOffset ≤ o)).getLast?.map
    IndexEntry.position).getD 0

variable {fs : List Frame}

theorem marks_increasing (base pos : ℕ)
    (hs : fs.Pairwise (fun f g => f.stop ≤ g.base)) (ha : ∀ f ∈ fs, base ≤ f.base)
    (hn : ∀ f ∈ fs, f.stop < base+2^32) :
    (marks base pos fs).Pairwise (fun e g => e.relativeOffset ≤ g.relativeOffset) := by
  induction fs generalizing pos with
  | nil => exact List.Pairwise.nil
  | cons f fs ih =>
    rw [pairwise_cons] at hs
    have hrel : ∀ g ∈ f::fs, ∀ p, (entry base g.base p).relativeOffset = g.base-base :=
      fun g hg p => entry_relative (ha g hg) (lt_trans g.base_lt_stop (hn g hg))
    refine pairwise_cons.mpr ⟨fun e he => ?_,ih _ hs.2 (fun g hg => ha g (by simp [hg]))
      (fun g hg => hn g (by simp [hg]))⟩
    obtain ⟨pre,g,post,hg,rfl⟩ := mark_position he
    have hgm : g ∈ fs := by simp [hg]
    rw [hrel f (by simp), hrel g (by simp [hgm])]
    have := hs.1 g hgm
    have := f.base_lt_stop
    omega

theorem lookup_windowStart {s : Segment} (o : ℕ)
    (hs : s.index.entries.Pairwise (fun e g => e.relativeOffset ≤ g.relativeOffset))
    (ho : o < s.index.baseOffset+2^32) : (s.index.lookup o).1 = windowStart s o := by
  unfold Index.lookup windowStart
  split
  · rename_i hn
    rw [length_eq_zero_iff.mp hn]
    rfl
  split
  · have hnone : s.index.entries.filter
        (fun e => s.index.baseOffset+e.relativeOffset ≤ o) = [] := by
      rw [filter_eq_nil_iff]
      simp only [decide_eq_true_eq]
      omega
    rw [hnone]
    rfl
  rw [Nat.mod_eq_of_lt (by omega)]
  obtain ⟨lo,hi,hsplit,h1,h2⟩ := sorted_split IndexEntry.relativeOffset (o-s.index.baseOffset) hs
  have hfilter : s.index.entries.filter (fun e => s.index.baseOffset+e.relativeOffset ≤ o) = lo := by
    rw [hsplit, filter_append, filter_eq_self.mpr, filter_eq_nil_iff.mpr,
      append_nil]
    · intro e he
      have := h2 e he
      simp only [decide_eq_true_eq]
      omega
    intro e he
    have := h1 e he
    simp only [decide_eq_true_eq]
    omega
  dsimp only
  rw [hfilter, hsplit, search_above _ _ _ lo hi h1 h2]
  rcases eq_nil_or_concat lo with rfl | ⟨lo',e,rfl⟩
  · rfl
  · simp

/-! ## Batches in a window -/

def placed : ℕ → List Frame → List (ℕ × Frame)
  | _, [] => []
  | pos, f::fs => (pos,f)::placed (pos+f.bytes.length) fs

theorem placed_append {pos : ℕ} {fs gs : List Frame} :
    placed pos (fs++gs) = placed pos fs++placed (pos+(raw fs).length) gs := by
  induction fs generalizing pos with
  | nil => simp [placed]
  | cons f fs ih =>
    rw [cons_append, placed, ih, placed, raw_cons, length_append, cons_append,
      Nat.add_assoc]

theorem placed_bounds (pos : ℕ) (fs : List Frame) (x : ℕ × Frame) (hx : x ∈ placed pos fs) :
    x.2 ∈ fs ∧ pos ≤ x.1 ∧ x.1+x.2.bytes.length ≤ pos+(raw fs).length := by
  induction fs generalizing pos with
  | nil => cases hx
  | cons f fs ih =>
    rw [raw_cons, length_append]
    rcases mem_cons.mp hx with rfl | hx
    · exact ⟨by simp,le_refl _,by dsimp only; omega⟩
    · obtain ⟨h1,h2,h3⟩ := ih _ hx
      exact ⟨by simp [h1],by omega,by omega⟩

theorem placed_frames {pos : ℕ} : (placed pos fs).map Prod.snd = fs := by
  induction fs generalizing pos with
  | nil => rfl
  | cons f fs ih => rw [placed, map_cons, ih]

theorem placed_fits (pos w : ℕ) (fs : List Frame) :
    (placed pos fs).filter (fun x => x.1+x.2.bytes.length ≤ pos+w) = placed pos (fits w fs) := by
  induction fs generalizing pos w with
  | nil => rfl
  | cons f fs ih =>
    by_cases hf : f.bytes.length ≤ w
    · have hrest := ih (pos+f.bytes.length) (w-f.bytes.length)
      rw [show pos+f.bytes.length+(w-f.bytes.length) = pos+w by omega] at hrest
      rw [placed, filter_cons_of_pos (by simpa using hf), hrest, fits, if_pos hf, placed]
    rw [fits, if_neg hf, placed, filter_eq_nil_iff]
    intro x hx
    have hge : pos+f.bytes.length ≤ x.1+x.2.bytes.length := by
      rcases mem_cons.mp hx with rfl | hx
      · exact le_refl _
      · have := (placed_bounds _ _ x hx).2.1
        omega
    simp only [decide_eq_true_eq]
    omega

def inWindow (lz4 : Lz4) (start : ℕ) (m : ℤ) (o : ℕ) (fs : List Frame) : List RecordBatch :=
  ((placed 0 fs).filter (fun x => start ≤ x.1 ∧ (x.1+x.2.bytes.length:ℕ) ≤ start+m ∧
    o < x.2.stop)).map (fun x => x.2.batch lz4)

theorem inWindow_split (lz4 : Lz4) {m : ℤ} (o : ℕ) (skip rest : List Frame) (h0 : 0 ≤ m) :
    inWindow lz4 (raw skip).length m o (skip++rest) =
      (pending o (fits m.toNat rest)).map (Frame.batch lz4) := by
  have hskip : (placed 0 skip).filter (fun x => (raw skip).length ≤ x.1 ∧
      (x.1+x.2.bytes.length:ℕ) ≤ (raw skip).length+m ∧ o < x.2.stop) = [] := by
    rw [filter_eq_nil_iff]
    intro x hx
    have := (placed_bounds _ _ x hx).2.2
    have := x.2.size_pos
    simp only [decide_eq_true_eq]
    omega
  have hrest : (placed (raw skip).length rest).filter (fun x => (raw skip).length ≤ x.1 ∧
      (x.1+x.2.bytes.length:ℕ) ≤ (raw skip).length+m ∧ o < x.2.stop) =
      (placed (raw skip).length (fits m.toNat rest)).filter (fun x => o < x.2.stop) := by
    rw [← placed_fits, filter_filter]
    refine filter_congr (fun x hx => ?_)
    have := (placed_bounds _ _ x hx).2.1
    rw [← Bool.decide_and]
    refine decide_eq_decide.mpr ?_
    omega
  rw [inWindow, placed_append, filter_append, Nat.zero_add, hskip, hrest, nil_append]
  have hmap : ∀ l : List (ℕ × Frame), (l.filter (fun x => decide (o < x.2.stop))).map
      (fun x => x.2.batch lz4) = (pending o (l.map Prod.snd)).map (Frame.batch lz4) := by
    intro l
    rw [pending, filter_map, map_map]
    rfl
  rw [hmap, placed_frames]

theorem inWindow_late (lz4 : Lz4) {start : ℕ} (m : ℤ) (o : ℕ)
    (h : ∀ f ∈ fs, f.stop ≤ o) : inWindow lz4 start m o fs = [] := by
  rw [inWindow, map_eq_nil_iff, filter_eq_nil_iff]
  intro x hx
  have := h x.2 (placed_bounds _ _ x hx).1
  simp only [decide_eq_true_eq]
  omega

/-! ## Segments built by appends -/

structure Session where
  fs : Files
  segment : Segment
  stored : List Frame

def Session.append (cfg : Config) (env : Env) (f : Frame) (x : Session) : Session :=
  match x.segment.append cfg env f.bytes f.base f.count x.fs with
  | .error _ => x
  | .ok (fs,s) => ⟨fs,s,x.stored++[f]⟩

def appendFrame (cfg : Config) (c : Env × Frame) (x : Session) : Option Session :=
  some (x.append cfg c.1 c.2)

def Contiguous (lz4 : Lz4) (c : Env × Frame) (x : Session) : Prop :=
  c.2.base = x.segment.nextOffset ∧ c.2.Readable lz4

structure Built (lz4 : Lz4) (base : ℕ) (x : Session) (a : Extent) : Prop where
  live : Live .main x.fs.disk x.segment a
  base : a.base = base
  stored : a.frames = x.stored
  readable : ∀ f ∈ a.frames, f.Readable lz4

theorem append_built {lz4 : Lz4} (cfg : Config) {base : ℕ} {env : Env} {f : Frame} {x : Session}
    {a : Extent} (h : Built lz4 base x a) (hg : Contiguous lz4 (env,f) x) :
    ∃ a', Built lz4 base (x.append cfg env f) a' := by
  unfold Session.append
  rcases hx : x.segment.append cfg env f.bytes f.base f.count x.fs with e | ⟨fs,s⟩
  · exact ⟨a,h⟩
  have hle : a.finish ≤ f.base := by
    rw [hg.1, h.live.next]
  refine ⟨a.push f hle,append_live hle h.live hx,h.base,?_,?_⟩
  · change a.frames++[f] = x.stored++[f]
    rw [h.stored]
  intro g hgm
  rcases mem_append.mp hgm with hgm | hgm
  · exact h.readable g hgm
  · rw [mem_singleton.mp hgm]
    exact hg.2

theorem built_of_reaches {lz4 : Lz4} (cfg : Config) {env : Env} {base ptr : ℕ} {fs fs1 : Files}
    {s1 : Segment} {x : Session} (hn : Fs.Named fs.disk)
    (hnew : ∀ ext, fs.disk.lookup ⟨.main,base,ext⟩ = none)
    (ho : openSegment lz4 env .main base ptr fs = (fs1,.ok s1))
    (hr : Reaches (fun c x y => appendFrame cfg c x = some y) (Contiguous lz4) ⟨fs1,s1,[]⟩ x) :
    ∃ a, Built lz4 base x a := by
  refine hr.invariant (fun x => ∃ a, Built lz4 base x a) ?_ ?_
  · obtain ⟨fs2,s2,ho2,hst⟩ := openSegment_started lz4 env .main base ptr fs hn
      (fun ext i hi => by rw [hnew] at hi; cases hi) (fun i hi => by rw [hnew] at hi; cases hi)
    rw [ho, Prod.mk.injEq, Except.ok.injEq] at ho2
    obtain ⟨rfl,rfl⟩ := ho2
    exact ⟨Extent.empty base,started_live hst,rfl,rfl,by simp [Extent.empty]⟩
  · rintro ⟨env,f⟩ x y ⟨a,h⟩ hg hs
    cases hs
    exact append_built cfg h hg

section Reads
variable {lz4 : Lz4} {base : ℕ} {x : Session} {a : Extent} (h : Built lz4 base x a)
  (hspan : x.segment.nextOffset < base+2^32)
include h hspan

theorem built_finish : a.finish < a.base+2^32 := by
  rw [h.base, ← h.live.next]
  exact hspan

theorem built_stops (f : Frame) (hf : f ∈ a.frames) : f.stop < base+2^32 := by
  have := a.stop_le_finish f hf
  have := built_finish h hspan
  rw [h.base] at this
  omega

theorem built_marks {e : IndexEntry} (he : e ∈ x.segment.index.entries) : ∃ pre f post,
    x.stored = pre++f::post ∧ e.position = (raw pre).length ∧ base+e.relativeOffset = f.base := by
  obtain ⟨pre,f,post,hf,rfl⟩ := mark_position (h.live.indexed.subset he)
  have hfm : f ∈ a.frames := by simp [hf]
  have hlo := a.above f hfm
  have hhi := built_stops h hspan f hfm
  have := f.base_lt_stop
  refine ⟨pre,f,post,by rw [← h.stored, hf],by simp [entry],?_⟩
  rw [entry_relative hlo (by rw [h.base]; omega), ← h.base]
  omega

theorem built_window {s : Segment} (hk : Keeps x.fs.disk s a)
    (hi : s.index = x.segment.index) (o : ℕ) (m : ℤ) (h0 : 0 ≤ m) (h1 : m < 2^63) :
    ∃ skip rest, x.stored = skip++rest ∧ (∀ f ∈ skip, f.stop ≤ o) ∧
      (inWindow lz4 (windowStart x.segment o) m o x.stored =
        (pending o (fits m.toNat rest)).map (Frame.batch lz4)) ∧
      (o < base+2^32 → windowStart x.segment o = (raw skip).length) ∧
      s.readFrom lz4 x.fs o m = .ok ((pending o
        (fits (windowSize s (raw skip).length m) rest)).map (Frame.batch lz4)) := by
  have hidx := h.live.indexed
  obtain ⟨skip,rest,hsplit,hskip,hpos,hread⟩ := readFrom_window lz4 x.fs o hk h.readable
    (by rw [hi]; exact hidx) (built_finish h hspan) h0 h1
  have hsplit' : x.stored = skip++rest := by rw [← h.stored, hsplit]
  have hinc := (marks_increasing a.base 0 a.sorted a.above (fun f hf => by
    rw [h.base]
    exact built_stops h hspan f hf)).sublist hidx
  have hib : x.segment.index.baseOffset = base := by
    rw [h.live.written.idxBase, h.live.base, h.base]
  have hstart : o < base+2^32 → windowStart x.segment o = (raw skip).length := by
    intro ho
    rw [← lookup_windowStart o hinc (by rw [hib]; exact ho), ← hi, hpos]
  refine ⟨skip,rest,hsplit',hskip,?_,hstart,hread⟩
  by_cases ho : o < base+2^32
  · rw [hstart ho, hsplit', inWindow_split lz4 o skip rest h0]
  have hlate : ∀ f ∈ x.stored, f.stop ≤ o := by
    intro f hf
    have := built_stops h hspan f (by rw [h.stored]; exact hf)
    omega
  rw [inWindow_late lz4 m o hlate, pending_nil, map_nil]
  intro f hf
  exact hlate f (by rw [hsplit']; simp [(fits_front _ _).subset hf])

theorem built_active (o : ℕ) {m : ℤ} (h0 : 0 ≤ m) (h1 : m < 2^63) :
    x.segment.readFrom lz4 x.fs o m =
      .ok (inWindow lz4 (windowStart x.segment o) m o x.stored) := by
  obtain ⟨skip,rest,_,_,hin,_,hread⟩ := built_window h hspan h.live.keeps rfl o m h0 h1
  have hw : windowSize x.segment (raw skip).length m = m.toNat := by
    rw [windowSize]
    rw [h.live.written.unmapped]
    simp
  rw [hread, hw, hin]

theorem built_all (o : ℕ) {m : ℤ} (h1 : m < 2^63) (hm : x.segment.size ≤ m) :
    inWindow lz4 (windowStart x.segment o) m o x.stored =
      (pending o x.stored).map (Frame.batch lz4) := by
  obtain ⟨skip,rest,hsplit,hskip,hin,_,_⟩ := built_window h hspan h.live.keeps rfl o m
    (by omega) h1
  have hsize : x.segment.size = (raw skip).length+(raw rest).length := by
    rw [h.live.written.size, h.stored, hsplit, raw_append, length_append]
  rw [hin, fits_all _ _ (by omega), hsplit, pending_append, pending_nil o skip hskip,
    nil_append]

/-- The mapped file is read like the open one unless the end of the window leaves 64 bits. -/
theorem built_sealed_iff (env' : Env) (o : ℕ) {m : ℤ} (h0 : 0 ≤ m) (h1 : m < 2^63) :
    (x.segment.sealSegment env').readFrom lz4 x.fs o m =
      .ok (inWindow lz4 (windowStart x.segment o) m o x.stored) ↔
    env'.mmap = false ∨ windowStart x.segment o+m < 2^63 ∨ x.segment.nextOffset ≤ o := by
  obtain ⟨skip,rest,hsplit,hskip,hin,hstart,hread⟩ := built_window h hspan
    (h.live.keeps.sealed env') (sealSegment_index env' x.segment) o m
    h0 h1
  have hnext : x.segment.nextOffset = a.finish := h.live.next
  rw [hread, hin, Except.ok.injEq]
  by_cases hlate : x.segment.nextOffset ≤ o
  · have hnone : ∀ w, pending o (fits w rest) = [] := by
      refine fun w => pending_nil o _ (fun f hf => ?_)
      have hfm : f ∈ a.frames := by rw [h.stored, hsplit]; simp [(fits_front _ _).subset hf]
      have := a.stop_le_finish f hfm
      omega
    exact iff_of_true (by rw [hnone, hnone]) (.inr (.inr hlate))
  rw [hstart (by omega)]
  by_cases hover : (x.segment.sealSegment env').mmapData ≠ none ∧ 2^63 ≤ (raw skip).length+m
  · have hne : a.frames ≠ [] := by
      intro hn
      have hsize := h.live.written.size
      rw [hn] at hsize
      rw [Segment.sealSegment, if_pos (.inl hsize), h.live.written.unmapped] at hover
      exact hover.1 rfl
    obtain ⟨fs,f,hf⟩ := (eq_nil_or_concat a.frames).resolve_left hne
    rw [concat_eq_append] at hf
    have hstop : o < f.stop := by
      rw [← a.finish_last fs f hf]
      omega
    have hfm : f ∈ rest := by
      have : f ∈ skip++rest := by rw [← hsplit, ← h.stored, hf]; simp
      rcases mem_append.mp this with hs | hr
      · have := hskip f hs
        omega
      · exact hr
    have hsize : (raw skip).length+(raw rest).length ≤ 2^63-1 := by
      have hsmall := h.live.written.small
      rw [h.stored, hsplit, raw_append, length_append] at hsmall
      exact hsmall
    have hin' : f ∈ pending o (fits m.toNat rest) := by
      rw [fits_all _ _ (by omega), pending, mem_filter]
      exact ⟨hfm,by simpa using hstop⟩
    refine iff_of_false (fun heq => ?_) ?_
    · rw [windowSize, if_pos hover, fits_zero] at heq
      have hnil := congrArg List.length heq
      simp only [pending, filter_nil, map_nil, length_nil, length_map] at hnil
      exact ne_nil_of_mem hin' (length_eq_zero_iff.mp hnil.symm)
    rintro (hm | hm | hm)
    · apply hover.1
      rw [Segment.sealSegment, hm]
      split
      · exact h.live.written.unmapped
      · exact h.live.written.unmapped
    · omega
    · omega
  refine iff_of_true (by rw [windowSize, if_neg hover]) ?_
  rw [not_and_or, not_not, not_le] at hover
  rcases hover with hm | hm
  · by_cases hmap : env'.mmap = false
    · exact .inl hmap
    -- a segment that is not mapped although mapping works is empty
    have hzero : x.segment.size = 0 := by
      by_contra hz
      rw [Segment.sealSegment, if_neg (by simp [hz, h.live.written.unmapped]),
        if_pos (by simpa using hmap)] at hm
      cases hm
    have hsize : x.segment.size = (raw skip).length+(raw rest).length := by
      rw [h.live.written.size, h.stored, hsplit, raw_append, length_append]
    omega
  · exact .inr (.inl hm)

end Reads

/-- After any run of contiguous appends to a new segment every index entry marks a stored batch.
A read, before and after sealing, returns the stored batches of its window that end after the
offset, and all that end after it when the limit covers the segment, exactly when the segment is
not mapped, the end of the window fits 64 bits, or nothing ends after the offset. -/
theorem indexed_read_iff (lz4 : Lz4) (cfg : Config) (env env' : Env) (base ptr : ℕ)
    (fs fs1 : Files) (s1 : Segment) (x : Session) (o : ℕ) (m : ℤ) (hn : Fs.Named fs.disk)
    (hnew : ∀ ext, fs.disk.lookup ⟨.main,base,ext⟩ = none)
    (ho : openSegment lz4 env .main base ptr fs = (fs1,.ok s1))
    (hr : Reaches (fun c x y => appendFrame cfg c x = some y) (Contiguous lz4) ⟨fs1,s1,[]⟩ x)
    (hspan : x.segment.nextOffset < base+2^32) (h0 : 0 ≤ m) (h1 : m < 2^63) :
    (∀ e ∈ x.segment.index.entries, ∃ pre f post, x.stored = pre++f::post ∧
      e.position = (raw pre).length ∧ base+e.relativeOffset = f.base) ∧
    ((x.segment.readFrom lz4 x.fs o m =
        .ok (inWindow lz4 (windowStart x.segment o) m o x.stored) ∧
      (x.segment.sealSegment env').readFrom lz4 x.fs o m =
        .ok (inWindow lz4 (windowStart x.segment o) m o x.stored) ∧
      (x.segment.size ≤ m → inWindow lz4 (windowStart x.segment o) m o x.stored =
        (x.stored.filter (fun f => o < f.stop)).map (Frame.batch lz4))) ↔
    env'.mmap = false ∨ windowStart x.segment o+m < 2^63 ∨ x.segment.nextOffset ≤ o) := by
  obtain ⟨a,h⟩ := built_of_reaches cfg hn hnew ho hr
  refine ⟨fun e he => built_marks h hspan he,?_⟩
  rw [← built_sealed_iff h hspan env' o h0 h1]
  exact ⟨fun hp => hp.2.1,fun hs => ⟨built_active h hspan o h0 h1,hs,
    fun hm => built_all h hspan o h1 hm⟩⟩

/-! ## Two batches -/

def firstFrame : Frame :=
  ⟨smallFrame 0 7,0,1,by decide +kernel,by decide +kernel,by decide,by decide⟩

def secondFrame : Frame :=
  ⟨smallFrame 1 8,1,1,by decide +kernel,by decide +kernel,by decide,by decide⟩

def dense : Config := { defaultConfig with indexInterval := 0 }

def started : Session := match openSegment noLz4 (still 0) .main 0 0 (Fs.boot Disk.empty) with
  | (fs,.ok s) => ⟨fs,s,[]⟩
  | (fs,.error _) => ⟨fs,⟨0,⟨⟨.main,0,.log⟩,0,0⟩,⟨⟨⟨.main,0,.idx⟩,0,0⟩,[],0,0⟩,0,0,0,0,0,0,none⟩,[]⟩

theorem started_opened : openSegment noLz4 (still 0) .main 0 0 (Fs.boot Disk.empty) =
    (started.fs,.ok started.segment) ∧ started.stored = [] := by
  obtain ⟨fs,s,ho,_⟩ := openSegment_started noLz4 (still 0) .main 0 0 (Fs.boot Disk.empty)
    (fun p i hp => by cases hp) (fun e i hp => by cases hp) (fun i hp => by cases hp)
  simp only [started, ho, and_self]

instance (lz4 : Lz4) (c : Env × Frame) (x : Session) : Decidable (Contiguous lz4 c x) :=
  inferInstanceAs (Decidable (_ ∧ _ = _))

def twoCalls : List (Env × Frame) := [(still 0,firstFrame),(still 0,secondFrame)]

/-- A read that starts at the second batch, before and after sealing. -/
theorem two_batches_read : ∃ x, runAll (appendFrame dense) twoCalls started = some x ∧
    x.stored.length = 2 ∧ windowStart x.segment 1 = 42 ∧
    x.segment.readFrom noLz4 x.fs 1 1000 =
      .ok (inWindow noLz4 (windowStart x.segment 1) 1000 1 x.stored) ∧
    (x.segment.sealSegment (still 0)).readFrom noLz4 x.fs 1 1000 =
      .ok (inWindow noLz4 (windowStart x.segment 1) 1000 1 x.stored) := by
  obtain ⟨x,hx,h1,h2,h3⟩ : ∃ x ∈ runAll (appendFrame dense) twoCalls started, x.stored.length = 2 ∧
      windowStart x.segment 1 = 42 ∧ x.segment.nextOffset < 0+2^32 := by decide +kernel
  have hrun := reaches_of_runAll (appendFrame dense) (Contiguous noLz4)
    (by decide +kernel) hx
  have hs : started = ⟨started.fs,started.segment,[]⟩ := by rw [← started_opened.2]
  rw [hs] at hrun
  have hread := (indexed_read_iff noLz4 dense (still 0) (still 0) 0 0 (Fs.boot Disk.empty) started.fs
    started.segment x 1 1000 (fun p i hp => by cases hp) (fun _ => rfl) started_opened.1 hrun h3
    (by norm_num) (by norm_num)).2.mpr (.inr (.inl (by rw [h2]; norm_num)))
  exact ⟨x,hx,h1,h2,hread.1,hread.2.1⟩

/-- With the largest limit the mapped file is cut at a negative end: the second batch is read
from the open segment and not from the sealed one. -/
theorem sealed_read_overflows : ∃ x, runAll (appendFrame dense) twoCalls started = some x ∧
    Along (appendFrame dense) (Contiguous noLz4) twoCalls started ∧
    openSegment noLz4 (still 0) .main 0 0 (Fs.boot Disk.empty) =
      (started.fs,.ok started.segment) ∧
    (x.segment.readFrom noLz4 x.fs 1 (2^63-1)).toOption.map (List.map RecordBatch.baseOffset) =
      some [1] ∧
    ((x.segment.sealSegment (still 0)).readFrom noLz4 x.fs 1 (2^63-1)).toOption.map
      (List.map RecordBatch.baseOffset) = some [] ∧
    (inWindow noLz4 (windowStart x.segment 1) (2^63-1) 1 x.stored).map RecordBatch.baseOffset =
      [1] := by
  obtain ⟨x,hx,hall⟩ : ∃ x ∈ runAll (appendFrame dense) twoCalls started,
      (x.segment.readFrom noLz4 x.fs 1 (2^63-1)).toOption.map (List.map RecordBatch.baseOffset) =
        some [1] ∧
      ((x.segment.sealSegment (still 0)).readFrom noLz4 x.fs 1 (2^63-1)).toOption.map
        (List.map RecordBatch.baseOffset) = some [] ∧
      (inWindow noLz4 (windowStart x.segment 1) (2^63-1) 1 x.stored).map RecordBatch.baseOffset =
        [1] := by decide +kernel
  exact ⟨x,hx,by decide +kernel,started_opened.1,hall⟩

end GoCommon.ForgeSegmentReads
