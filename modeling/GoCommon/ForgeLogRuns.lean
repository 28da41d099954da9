import GoCommon.ForgeLogRewrites
import GoCommon.StepRuns

/-!
# Operations on a log

The calls a log can receive after it has been opened over an empty directory.
A call that panics or does not come back has no next state. The outcomes of
each call are stated on the extents of the log before it.
-/

set_option autoImplicit false

namespace GoCommon.ForgeLogRuns
open ByteWords FileDisk ForgeRecord ForgeSegment ForgeFrames ForgeSegmentFiles ForgeExtents
open ForgeCommitLog ForgeLogState ForgeLogRemoval ForgeRewrite ForgeLogSwap ForgeLogRewrites

inductive LogOp where
  | append (env : Env) (batch : RecordBatch)
  | deleteBefore (env : Env) (offset : ℕ)
  | enforceRetention (env : Env)
  | mergeSegments (env : Env)
  | compact (env : Env) (order : Order)

def returned {α : Type} : CommitLog × Except Stop α → Option CommitLog
  | (cl,.ok _) => some cl
  | (cl,.error (.err _)) => some cl
  | (_,.error _) => none

def exec (lz4 : Lz4) (cfg : Config) : LogOp → CommitLog → Option CommitLog
  | .append env batch, cl => returned (cl.append lz4 cfg env batch)
  | .deleteBefore env offset, cl => some (cl.deleteBefore env offset)
  | .enforceRetention env, cl => some (cl.enforceRetention cfg env)
  | .mergeSegments env, cl => returned (mergeSegments lz4 cfg env cl)
  | .compact env order, cl => returned (compact lz4 cfg env order cl)

def Step (lz4 : Lz4) (cfg : Config) (op : LogOp) (cl cl' : CommitLog) : Prop :=
  exec lz4 cfg op cl = some cl'

def Fresh (lz4 : Lz4) (cl : CommitLog) : Prop :=
  ∃ env fs, newCommitLog lz4 env (Fs.boot Disk.empty) = (fs,.ok cl)

theorem returned_some {α : Type} {x : CommitLog × Except Stop α} {cl : CommitLog}
    (h : returned x = some cl) : ∃ r, x = (cl,r) ∧ Returns r := by
  rcases x with ⟨c,⟨e | _ | _⟩ | v⟩
  · cases h
    exact ⟨_,rfl,by simp,by simp⟩
  · cases h
  · cases h
  · cases h
    exact ⟨_,rfl,by simp,by simp⟩

/-! ## Opening -/

variable (lz4 : Lz4) (cfg : Config) (env : Env) (cl : CommitLog)

theorem fresh_started (h : Fresh lz4 cl) :
    ∃ s, Started .main 0 0 Disk.empty cl.fs.disk s ∧ cl.segments = [s] ∧
      cl.activeSegment = s.ptr ∧ cl.nextOffset = s.nextOffset ∧ cl.closed = false ∧
      cl.nextPtr = 1 := by
  obtain ⟨env,fs,h⟩ := h
  obtain ⟨fs0,s,ho,hs⟩ := openSegment_started lz4 env .main 0 0 (Fs.boot Disk.empty)
    (fun p i hp => by cases hp) (fun e i hp => by cases hp) (fun i hp => by cases hp)
  have hr : recoverStaging (Fs.boot Disk.empty) = Fs.boot Disk.empty := rfl
  have hb : baseOffsets (Fs.boot Disk.empty) = [] := rfl
  simp only [newCommitLog, hr, hb, loadSegments, List.getLast?_nil, ho, Prod.mk.injEq,
    Except.ok.injEq] at h
  obtain ⟨rfl,rfl⟩ := h
  exact ⟨s,hs,rfl,rfl,rfl,rfl,rfl⟩

theorem tidy_nothing (next : ℕ) : Tidy Disk.empty [] next := by
  refine ⟨?_,?_,?_,by simp,by simp,by simp,by simp⟩
  · intro p i hp
    cases hp
  · intro p q i hp
    cases hp
  · intro p i _ hp
    cases hp

theorem started_unstaged {base ptr : ℕ} {d d' : Disk Path} {s : Segment}
    (h : Started .main base ptr d d' s) (hu : Unstaged d) : Unstaged d' := by
  intro p hp
  rw [h.others p (by rw [hp]; simp)]
  exact hu p hp

theorem fresh_rep (h : Fresh lz4 cl) :
    ∃ s, Started .main 0 0 Disk.empty cl.fs.disk s ∧ Rep cl [] (s,Extent.empty 0) ∧
      Unstaged cl.fs.disk := by
  obtain ⟨s,hs,hl,ha,hn,hc,hp⟩ := fresh_started lz4 cl h
  refine ⟨s,hs,?_,started_unstaged hs (fun p _ => rfl)⟩
  have hz : cl.nextOffset = 0 := hn.trans hs.next
  refine ⟨hl,ha,hz,hc,started_live hs,by simp,by simp,by simp,by simp,?_,?_⟩
  · intro y hy
    rw [List.mem_singleton.mp hy, hp, hs.ptr]
    exact Nat.one_pos
  · rw [hz]
    exact (tidy_nothing 0).start hs

/-! ## Appending -/

def Appends (lz4 : Lz4) (cl : CommitLog) (batch : RecordBatch) : Prop :=
  ∀ e, encodeBatch lz4 (assignOffsets cl.nextOffset batch) = .ok e →
    batchSize e = .ok e.length ∧ cl.nextOffset+batch.records.length < 2^64

instance (lz4 : Lz4) (cl : CommitLog) (batch : RecordBatch) : Decidable (Appends lz4 cl batch) :=
  match h : encodeBatch lz4 (assignOffsets cl.nextOffset batch) with
  | .error _ => isTrue (by simp [Appends, h])
  | .ok e => decidable_of_iff (batchSize e = .ok e.length ∧
      cl.nextOffset+batch.records.length < 2^64) (by simp [Appends, h])

inductive Rolled (cfg : Config) (env : Env) (cl : CommitLog) (held : List Held) (last : Held)
    (d : Disk Path) : List Held → Held → Prop where
  | stay : last.1.isFull cfg env = false → d = cl.fs.disk → Rolled cfg env cl held last d held last
  | roll (s : Segment) : last.1.isFull cfg env = true →
      Started .main cl.nextOffset cl.nextPtr cl.fs.disk d s →
      Rolled cfg env cl held last d (held++[(last.1.sealSegment env,last.2)])
        (s,Extent.empty cl.nextOffset)

variable {held : List Held} {last : Held}

theorem rolled_frames {cfg : Config} {env : Env} {cl : CommitLog} {held' : List Held}
    {last' : Held} {d : Disk Path} (hr : Rolled cfg env cl held last d held' last') :
    framesOf (held'++[last']) = framesOf (held++[last]) := by
  cases hr with
  | stay => rfl
  | roll => simp [framesOf, Extent.empty]

structure Pushed (lz4 : Lz4) (cl cl' : CommitLog) (batch : RecordBatch) (held : List Held)
    (last : Held) (f : Frame) (s : Segment) (h : last.2.finish ≤ f.base) : Prop where
  encodes : Encodes lz4 (assignOffsets cl.nextOffset batch) f
  files : files s = files last.1
  rep : Rep cl' held (s,last.2.push f h)

theorem encode_frame {batch : RecordBatch} {e : Bytes}
    (ha : Appends lz4 cl batch) (hn : batch.records.length ≤ maxRecordsPerBatch)
    (he : encodeBatch lz4 (assignOffsets cl.nextOffset batch) = .ok e) :
    ∃ f : Frame, f.bytes = e ∧ Encodes lz4 (assignOffsets cl.nextOffset batch) f := by
  obtain ⟨f,h1,h2,h3⟩ := encoded_frame he (ha e he).1
    (by simp only [assignOffsets, maxRecordsPerBatch] at hn ⊢; omega) (ha e he).2
  exact ⟨f,h1,by rw [he, h1],h2,h3⟩

theorem appendFrame_outcome (cl : CommitLog) {cl1 : CommitLog} (cl' : CommitLog)
    (batch : RecordBatch) (f : Frame) (r : Except Stop ℕ)
    (h : Rep cl1 held last) (hn : cl1.nextOffset = cl.nextOffset)
    (hf : Encodes lz4 (assignOffsets cl.nextOffset batch) f)
    (ha : cl1.appendEncoded cfg env f.bytes (assignOffsets cl.nextOffset batch) = (cl',r)) :
    Disk.Touches last.1.logFile.ino last.1.index.file.ino cl1.fs.disk cl'.fs.disk ∧
    ((∃ e, r = .error (.err e) ∧ Rep cl' held last) ∨
      (r = .ok f.base ∧ ∃ s hle, Pushed lz4 cl cl' batch held last f s hle)) := by
  rcases appendEncoded_rep h hf.base.symm hf.count.symm
    (hf.base.trans hn.symm) ha with ⟨e,rfl,rfl⟩ | ⟨rfl,ht,s,hle,hfs,hrep⟩
  · exact ⟨Disk.Touches.refl,.inl ⟨e,rfl,h⟩⟩
  · exact ⟨ht,.inr ⟨rfl,s,hle,hf,hfs,hrep⟩⟩

/-- Outcomes of an append: nothing happens, or the log rolls if the active
segment is full and then the batch is pushed unless the file gets too large. -/
theorem append_outcome {cl cl' : CommitLog} {batch : RecordBatch} {r : Except Stop ℕ}
    (h : Rep cl held last) (hb : Appends lz4 cl batch)
    (ha : cl.append lz4 cfg env batch = (cl',r)) :
    (cl' = cl ∧ ∃ e, r = .error e) ∨
    ∃ d held1 last1, Rolled cfg env cl held last d held1 last1 ∧
      Disk.Touches last1.1.logFile.ino last1.1.index.file.ino d cl'.fs.disk ∧
      ((∃ e, r = .error (.err e) ∧ Rep cl' held1 last1) ∨
        ∃ f, r = .ok f.base ∧ ∃ s hle, Pushed lz4 cl cl' batch held1 last1 f s hle) := by
  simp only [CommitLog.append, h.opened, Bool.false_eq_true, if_false] at ha
  split at ha
  · simp only [Prod.mk.injEq] at ha
    exact .inl ⟨ha.1.symm,_,ha.2.symm⟩
  rcases he : encodeBatch lz4 (assignOffsets cl.nextOffset batch) with e | encoded
  · simp only [he, Prod.mk.injEq] at ha
    exact .inl ⟨ha.1.symm,_,ha.2.symm⟩
  simp only [he] at ha
  obtain ⟨f,rfl,hf⟩ := encode_frame lz4 cl hb (by omega) he
  rcases hroll : cl.rollIfFull lz4 cfg env with ⟨cl1,r1⟩
  obtain ⟨rfl,hcase⟩ := roll_rep h hroll
  simp only [hroll] at ha
  refine .inr ?_
  rcases hcase with ⟨hfull,rfl⟩ | ⟨hfull,hnext,s,hs,hrep⟩
  · obtain ⟨ht,hout⟩ := appendFrame_outcome lz4 cfg env cl1 cl' batch f r h
      rfl hf ha
    exact ⟨_,held,last,.stay hfull rfl,ht,hout.imp id (fun ho => ⟨f,ho⟩)⟩
  · obtain ⟨ht,hout⟩ := appendFrame_outcome lz4 cfg env cl cl' batch f r hrep
      hnext hf ha
    exact ⟨_,_,_,.roll s hfull hs,ht,hout.imp id (fun ho => ⟨f,ho⟩)⟩

theorem append_succeeds
    (batch : RecordBatch) (held : List Held) (last : Held) (e : Bytes) (h : Rep cl held last)
    (hn : batch.records.length ≤ maxRecordsPerBatch)
    (he : encodeBatch lz4 (assignOffsets cl.nextOffset batch) = .ok e)
    (hs : last.1.size+e.length ≤ maxFileSize) :
    (cl.append lz4 cfg env batch).2 = .ok cl.nextOffset := by
  have happend : ∀ (c : CommitLog) (s : Segment), c.active = some s →
      s.size+e.length ≤ maxFileSize →
      (c.appendEncoded cfg env e (assignOffsets cl.nextOffset batch)).2 = .ok cl.nextOffset := by
    intro c s hc hsz
    simp only [CommitLog.appendEncoded, hc, Segment.append, if_neg (not_lt.mpr hsz)]
    rfl
  rw [CommitLog.append, h.opened, if_neg (by simp), if_neg (by omega), he]
  rcases hroll : cl.rollIfFull lz4 cfg env with ⟨cl1,r1⟩
  obtain ⟨rfl,⟨_,rfl⟩ | ⟨_,_,s,hst,hrep⟩⟩ := roll_rep h hroll
  · exact happend cl1 last.1 h.active hs
  · refine happend cl1 s hrep.active ?_
    have hz : s.size = 0 := hst.written.size
    omega

/-! ## Retention -/

structure Thinned (cl cl' : CommitLog) (held left : List Held) (last : Held) : Prop where
  sub : left.Sublist held
  rep : Rep cl' left last
  next : cl'.nextOffset = cl.nextOffset

/-- A pass that spares the active segment thins the log, and what every single
removal preserves holds afterwards. -/
theorem retain_thinned {gone : ℤ → Segment → Bool} (total : ℤ) {cl : CommitLog}
    {last : Held} {fs : Files} {keep : List Segment} (h : Rep cl held last)
    (hg : ∀ t s, gone t s = true → s.ptr ≠ cl.activeSegment) (I : Files → List Held → Prop)
    (hI : I cl.fs held)
    (hstep : ∀ fs pre y post, (∀ z ∈ pre++y::post, Keeps fs.disk z.1 z.2) → I fs (pre++y::post) →
      I (y.1.remove env fs) (pre++post))
    (hr : retain env gone total cl.segments cl.fs = (fs,keep)) :
    ∃ left, Thinned cl { cl with fs := fs, segments := keep } held left last ∧ I fs left := by
  rw [h.listed] at hr
  have hrule := retain_rule env
    (I := fun fs held => Rep (withFiles cl last fs held) held last ∧ I fs held)
    (G := fun _ => True) ?_ gone last ?_ held [] total cl.fs fs keep (fun _ _ => trivial) ⟨?_,hI⟩ hr
  · obtain ⟨left,hsub,rfl,hrep,hi⟩ := hrule
    exact ⟨left,⟨hsub,hrep,rfl⟩,hi⟩
  · rintro fs pre y post _ ⟨h1,h2⟩
    exact ⟨withFiles_step env cl h1,hstep fs pre y post h1.keeps h2⟩
  · intro t
    by_contra hcon
    exact hg t last.1 (by simpa using hcon) h.current.symm
  · rw [List.nil_append, withFiles_self cl last h.listed]
    exact h

theorem deleteBefore_thinned (offset : ℕ) {cl : CommitLog}
    (h : Rep cl held last) (I : Files → List Held → Prop) (hI : I cl.fs held)
    (hstep : ∀ fs pre y post, (∀ z ∈ pre++y::post, Keeps fs.disk z.1 z.2) → I fs (pre++y::post) →
      I (y.1.remove env fs) (pre++post)) :
    ∃ left, Thinned cl (cl.deleteBefore env offset) held left last ∧
      I (cl.deleteBefore env offset).fs left := by
  refine retain_thinned env 0 h ?_ I hI hstep rfl
  intro t s hs
  simp only [CommitLog.below, decide_eq_true_eq] at hs
  exact hs.2

theorem enforceRetention_thinned
    (h : Rep cl held last) (I : Files → List Held → Prop) (hI : I cl.fs held)
    (hstep : ∀ fs pre y post, (∀ z ∈ pre++y::post, Keeps fs.disk z.1 z.2) → I fs (pre++y::post) →
      I (y.1.remove env fs) (pre++post)) :
    ∃ left, Thinned cl (cl.enforceRetention cfg env) held left last ∧
      I (cl.enforceRetention cfg env).fs left := by
  refine retain_thinned env cl.totalSize h ?_ I hI hstep rfl
  intro t s hs
  simp only [CommitLog.outdated, decide_eq_true_eq] at hs
  exact hs.1

/-! ## Small inputs -/

def smallLog (t : ℤ) : CommitLog :=
  match (newCommitLog noLz4 (still t) (Fs.boot Disk.empty)).2 with
  | .ok cl => cl
  | .error _ => ⟨Fs.boot Disk.empty,[],0,0,true,0⟩

theorem smallLog_fresh (t : ℤ) : Fresh noLz4 (smallLog t) := by
  obtain ⟨fs,s,ho,_⟩ := openSegment_started noLz4 (still t) .main 0 0 (Fs.boot Disk.empty)
    (fun p i hp => by cases hp) (fun e i hp => by cases hp) (fun i hp => by cases hp)
  have hr : recoverStaging (Fs.boot Disk.empty) = Fs.boot Disk.empty := rfl
  have hb : baseOffsets (Fs.boot Disk.empty) = [] := rfl
  refine ⟨still t,fs,?_⟩
  simp only [smallLog, newCommitLog, hr, hb, loadSegments, List.getLast?_nil, ho]

def hour : ℤ := 3600*second

def keepOrder : Order := ⟨id,fun _ => List.Perm.refl _⟩

end GoCommon.ForgeLogRuns
