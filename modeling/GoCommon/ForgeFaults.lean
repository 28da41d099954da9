import GoCommon.ForgeReopen
import GoCommon.ForgeRetention

/-!
# Appends during which a system call fails

Every exit of an append leaves another part of the log updated. A write that
fails after some bytes leaves them in the file, which is opened for appending,
and no counter moves. A flush that fails comes after the batch has been
written and counted by the segment, and before the log advances. A segment
that cannot be opened leaves the active one sealed.
-/

set_option autoImplicit false

namespace GoCommon.ForgeFaults
open List ByteWords FileDisk StepRuns ForgeRecord ForgeRecordCodec ForgeIndex ForgeSegment
open ForgeFrames ForgeExtents ForgeCommitLog ForgeLogState ForgeRewrite ForgeLogSwap
open ForgeLogRewrites ForgeLogRuns ForgeLogView ForgeUpkeep ForgeMerge ForgeRetention
open ForgeReopen

/-- The call of an append that fails: opening the log file of a new segment,
opening its index after the log file exists, loading the index after both
exist, writing a batch after some bytes, flushing the log, writing the index
after some bytes, flushing the index. -/
inductive Fault where
  | none
  | openLog
  | openIndex
  | loadIndex
  | write (n : ℕ)
  | syncLog
  | writeIndex (n : ℕ)
  | syncIndex
  deriving DecidableEq, Repr

def ioError : Stop := .err .io

def syncIndexFaulty (fault : Fault) (t : ℤ) (fs : Files) (idx : Index Path) :
    Files × Index Path × Except Stop Unit :=
  if idx.entries.drop idx.dirtyFrom = [] then (fs,idx,.ok ())
  else match fault with
    | .writeIndex n =>
      let goodSize := indexEntrySize*idx.dirtyFrom
      ((fs.write idx.file.ino idx.file.pos ((putEntries (idx.entries.drop idx.dirtyFrom)).take n)
        t).truncate idx.file.ino goodSize t,
        { idx with file := { idx.file with pos := goodSize } },.error ioError)
    | .syncIndex => ((idx.sync t fs).1,(idx.sync t fs).2,.error ioError)
    | _ => ((idx.sync t fs).1,(idx.sync t fs).2,.ok ())

def syncDueFaulty (cfg : Config) (env : Env) (fault : Fault) (fs : Files) (s : Segment) :
    Files × Segment × Except Stop Unit :=
  if 0 < cfg.fsyncEvery ∧ cfg.fsyncEvery ≤ s.batchesSinceSync then
    if fault = .syncLog then (fs,s,.error ioError)
    else match syncIndexFaulty fault env.written fs s.index with
      | (fs,idx,.error e) => (fs,{ s with index := idx },.error e)
      | (fs,idx,.ok ()) => (fs,{ s with index := idx, batchesSinceSync := 0 },.ok ())
  else (fs,s,.ok ())

def appendSegmentFaulty (cfg : Config) (env : Env) (fault : Fault) (encoded : Bytes)
    (baseOffset recordCount : ℕ) (fs : Files) (s : Segment) : Files × Segment × Except Stop Unit :=
  if maxFileSize < s.size+encoded.length then (fs,s,.error (.err .fileTooLarge))
  else match fault with
    | .write n => (fs.append s.logFile.ino (encoded.take n) env.written,s,.error ioError)
    | _ => syncDueFaulty cfg env fault (fs.append s.logFile.ino encoded env.written)
        (s.wrote cfg encoded.length baseOffset recordCount)

def newSegmentFaulty (lz4 : Lz4) (env : Env) (fault : Fault) (baseOffset : ℕ) (cl : CommitLog) :
    CommitLog × Except Stop Unit :=
  let withLog := (cl.fs.openFile ⟨.main,baseOffset,.log⟩ env.opened).1
  match fault with
  | .openLog => (cl,.error ioError)
  | .openIndex => ({ cl with fs := withLog },.error ioError)
  | .loadIndex =>
    ({ cl with fs := (withLog.openFile ⟨.main,baseOffset,.idx⟩ env.opened).1 },.error ioError)
  | _ => cl.newSegment lz4 env baseOffset

def rollFaulty (lz4 : Lz4) (cfg : Config) (env : Env) (fault : Fault) (cl : CommitLog) :
    CommitLog × Except Stop Unit :=
  match cl.active with
  | none => (cl,.error .panic)
  | some s =>
    if s.isFull cfg env then
      newSegmentFaulty lz4 env fault cl.nextOffset (cl.update (s.sealSegment env))
    else (cl,.ok ())

def appendEncodedFaulty (cfg : Config) (env : Env) (fault : Fault) (encoded : Bytes)
    (b : RecordBatch) (cl : CommitLog) : CommitLog × Except Stop ℕ :=
  match cl.active with
  | none => (cl,.error .panic)
  | some s =>
    match appendSegmentFaulty cfg env fault encoded b.baseOffset b.recordCount cl.fs s with
    | (fs,s,.error e) => ({ cl.update s with fs := fs },.error e)
    | (fs,s,.ok ()) => ({ cl.update s with
        fs := fs
        nextOffset := (cl.nextOffset+b.recordCount)%2^64 },.ok b.baseOffset)

def appendFaulty (lz4 : Lz4) (cfg : Config) (env : Env) (fault : Fault) (batch : RecordBatch)
    (cl : CommitLog) : CommitLog × Except Stop ℕ :=
  if cl.closed then (cl,.error (.err .closed))
  else if maxRecordsPerBatch < batch.records.length then (cl,.error (.err .batchTooLarge))
  else match encodeBatch lz4 (assignOffsets cl.nextOffset batch) with
    | .error e => (cl,.error e)
    | .ok encoded => match rollFaulty lz4 cfg env fault cl with
      | (cl,.error e) => (cl,.error e)
      | (cl',.ok ()) =>
        appendEncodedFaulty cfg env fault encoded (assignOffsets cl.nextOffset batch) cl'

def execFaulty (lz4 : Lz4) (cfg : Config) : LogOp × Fault → CommitLog → Option CommitLog
  | (.append env batch,fault), cl => returned (appendFaulty lz4 cfg env fault batch cl)
  | (op,_), cl => exec lz4 cfg op cl

/-! ## Appends without a fault -/

def Fault.early : Fault → Prop
  | .none | .openLog | .openIndex | .loadIndex => True
  | _ => False

variable (lz4 : Lz4) (cfg : Config) (env : Env) (gone : List Segment) (fault : Fault)
  (cl : CommitLog)

theorem appendSegmentFaulty_early (hf : fault.early)
    (encoded : Bytes) (b c : ℕ) (fs : Files) (s : Segment) :
    appendSegmentFaulty cfg env fault encoded b c fs s =
      match s.append cfg env encoded b c fs with
      | .error e => (fs,s,.error e)
      | .ok (fs,s) => (fs,s,.ok ()) := by
  have hsync : ∀ (fs : Files) (idx : Index Path), syncIndexFaulty fault env.written fs idx =
      ((idx.sync env.written fs).1,(idx.sync env.written fs).2,.ok ()) := by
    intro fs idx
    by_cases hd : idx.entries.drop idx.dirtyFrom = []
    · simp [syncIndexFaulty, Index.sync, hd]
    · cases fault <;> first | exact False.elim hf | simp [syncIndexFaulty, hd]
  have hdue : ∀ (fs : Files) (s : Segment), syncDueFaulty cfg env fault fs s =
      ((s.syncDue cfg env fs).1,(s.syncDue cfg env fs).2,.ok ()) := by
    intro fs s
    have hne : fault ≠ .syncLog := by rintro rfl; exact False.elim hf
    simp only [syncDueFaulty, Segment.syncDue, if_neg hne, hsync]
    split <;> rfl
  unfold appendSegmentFaulty Segment.append
  split
  · rfl
  · cases fault <;> first | exact False.elim hf | exact hdue _ _

theorem appendEncodedFaulty_early (hf : fault.early)
    (encoded : Bytes) {b : RecordBatch} (cl : CommitLog) (hp : ∀ s ∈ cl.active, cl.update s = cl) :
    appendEncodedFaulty cfg env fault encoded b cl = cl.appendEncoded cfg env encoded b := by
  unfold appendEncodedFaulty CommitLog.appendEncoded
  rcases ha : cl.active with _ | s
  · rfl
  simp only [appendSegmentFaulty_early cfg env fault hf]
  rcases s.append cfg env encoded b.baseOffset b.recordCount cl.fs with e | ⟨fs,t⟩
  · simp only [hp s ha]
  · rfl

/-! ## A sealed active segment -/

def veil (a : ℕ) (s : Segment) : Segment :=
  if s.ptr = a ∧ s.size ≠ 0 then { s with mmapData := some s.size } else s

def veiled (cl : CommitLog) : CommitLog :=
  { cl with segments := cl.segments.map (veil cl.activeSegment) }

section Veil
variable (a : ℕ) (s : Segment)

@[simp] theorem veil_ptr : (veil a s).ptr = s.ptr := by unfold veil; split <;> rfl
@[simp] theorem veil_size : (veil a s).size = s.size := by unfold veil; split <;> rfl
@[simp] theorem veil_base : (veil a s).baseOffset = s.baseOffset := by unfold veil; split <;> rfl
@[simp] theorem veil_created : (veil a s).created = s.created := by unfold veil; split <;> rfl
@[simp] theorem veil_next : (veil a s).nextOffset = s.nextOffset := by unfold veil; split <;> rfl
@[simp] theorem veil_index : (veil a s).index = s.index := by unfold veil; split <;> rfl

@[simp] theorem veil_isFull (cfg : Config) (env : Env) :
    (veil a s).isFull cfg env = s.isFull cfg env := by
  simp only [Segment.isFull, veil_size, veil_created]

theorem veil_other (h : s.ptr ≠ a) : veil a s = s := if_neg (fun hc => h hc.1)

theorem veil_filter (p : Segment → Bool) (ss : List Segment) (hp : ∀ s, p (veil a s) = p s)
    (ho : ∀ s, p s → s.ptr ≠ a) : (ss.map (veil a)).filter p = ss.filter p := by
  rw [filter_map, show p ∘ veil a = p from funext hp]
  refine (map_congr_left (fun s hs => ?_)).trans (map_id _)
  exact veil_other a s (ho s (mem_filter.mp hs).2)

theorem veil_retain (env : Env) (gone : ℤ → Segment → Bool)
    (hp : ∀ t s, gone t (veil a s) = gone t s) (ho : ∀ t s, gone t s → s.ptr ≠ a) (t : ℤ)
    (ss : List Segment) (fs : Files) : retain env gone t (ss.map (veil a)) fs =
      ((retain env gone t ss fs).1,(retain env gone t ss fs).2.map (veil a)) := by
  induction ss generalizing t fs with
  | nil => rfl
  | cons s ss ih =>
    rw [map_cons, retain, retain, hp]
    split
    · rename_i hg
      rw [veil_other a s (ho t s hg), ih]
    · rw [ih]
      rfl

theorem veil_insert {t : Segment} (ht : t.ptr ≠ a) (ss : List Segment) :
    insertSegmentSorted t (ss.map (veil a)) = (insertSegmentSorted t ss).map (veil a) := by
  induction ss with
  | nil => simp [insertSegmentSorted, veil_other a t ht]
  | cons s ss ih =>
    simp only [map_cons, insertSegmentSorted, veil_base]
    split
    · rw [ih, map_cons]
    · rw [map_cons, map_cons, veil_other a t ht]

end Veil

theorem veiled_fields : (veiled cl).fs = cl.fs ∧ (veiled cl).nextPtr = cl.nextPtr ∧
    (veiled cl).closed = cl.closed ∧ (veiled cl).nextOffset = cl.nextOffset := ⟨rfl,rfl,rfl,rfl⟩

theorem veiled_remove :
    removeSegments env gone (veiled cl) = veiled (removeSegments env gone cl) := by
  simp [removeSegments, veiled, filter_map, Function.comp_def]

def both {α : Type} (x : CommitLog × α) : CommitLog × α := (veiled x.1,x.2)

theorem both_returned {α : Type} {x : CommitLog × Except Stop α} :
    returned (both x) = (returned x).map veiled := by
  rcases x with ⟨c,⟨e | _ | _⟩ | v⟩ <;> rfl

theorem veiled_swap (base : ℕ) (cl : CommitLog) (h : cl.activeSegment < cl.nextPtr) :
    swapSegment lz4 env gone base (veiled cl) = both (swapSegment lz4 env gone base cl) := by
  simp only [swapSegment, veiled_remove]
  generalize hc : removeSegments env gone cl = c
  have ha : c.activeSegment < c.nextPtr := by rw [← hc]; exact h
  rw [(veiled_fields c).1, (veiled_fields c).2.1]
  generalize hf : removeStaging _ = fs
  rcases ho : openSegment lz4 env .main base c.nextPtr fs with ⟨fs',e | s⟩
  · rfl
  have hp : (s.sealSegment env).ptr ≠ c.activeSegment := by
    rw [sealSegment_ptr, (openSegment_named lz4 env ho).1]
    exact Nat.ne_of_gt ha
  have hi := veil_insert c.activeSegment hp c.segments
  simp only [both, veiled, hi]

theorem veiled_stage {base : ℕ}
    {writes : List (Except Stop Write)} {cl : CommitLog} (h : cl.activeSegment < cl.nextPtr) :
    stageAndSwapSegment lz4 cfg env gone base writes (veiled cl) =
      both (stageAndSwapSegment lz4 cfg env gone base writes cl) := by
  simp only [stageAndSwapSegment, veiled_fields]
  rcases openSegment lz4 env .staging base cl.nextPtr cl.fs with ⟨fs,e | s⟩
  · rfl
  rcases hw : writeAll cfg env writes fs s with ⟨fs',s',e | u⟩
  · simp only [hw]
    rfl
  · simp only [hw]
    exact veiled_swap lz4 env gone base { cl with fs := s'.close env fs', nextPtr := cl.nextPtr+1 }
      (Nat.lt_succ_of_lt h)

theorem veiled_candidates : mergeCandidates cfg env (veiled cl) = mergeCandidates cfg env cl := by
  refine veil_filter cl.activeSegment _ cl.segments (fun s => ?_) (fun s hs => ?_)
  · simp only [veil_ptr, veil_created]
  · simp only [decide_eq_true_eq] at hs
    exact hs.1

theorem veiled_merge (h : cl.activeSegment < cl.nextPtr) :
    mergeSegments lz4 cfg env (veiled cl) = both (mergeSegments lz4 cfg env cl) := by
  simp only [mergeSegments, veiled_candidates, veiled_fields, veiled_remove,
    veiled_stage lz4 cfg env _ h]
  rcases mergeCandidates cfg env cl with _ | ⟨c,cs⟩
  · split_ifs <;> rfl
  · split_ifs <;> rfl

theorem veiled_sealed : sealedSegments (veiled cl) = sealedSegments cl := by
  have hf := veil_filter cl.activeSegment (fun s => decide (s.ptr ≠ cl.activeSegment)) cl.segments
    (fun s => by simp) (fun s hs => by simpa using hs)
  have hl : (veiled cl).segments.length = cl.segments.length := length_map _
  rw [sealedSegments, hl]
  exact congrArg (fun l => if cl.segments.length ≤ 1 then [] else l) hf

theorem veiled_compact (order : Order) {cl : CommitLog} (h : cl.activeSegment < cl.nextPtr) :
    compact lz4 cfg env order (veiled cl) = both (compact lz4 cfg env order cl) := by
  simp only [compact, veiled_sealed, veiled_fields, veiled_remove,
    veiled_stage lz4 cfg env _ h]
  split
  · rfl
  rcases sealedSegments cl with _ | ⟨c,cs⟩
  · rfl
  dsimp only
  rcases readAllRecords lz4 cl.fs (c::cs) with e | krs
  · rfl
  · dsimp only
    rcases survivors order krs with _ | ⟨k,ks⟩ <;> rfl

/-- The operations other than appends do not look at the mapping of the active
segment. -/
theorem exec_veiled (op : LogOp) {cl : CommitLog}
    (ho : ∀ env batch, op ≠ .append env batch) (h : cl.activeSegment < cl.nextPtr) :
    exec lz4 cfg op (veiled cl) = (exec lz4 cfg op cl).map veiled := by
  cases op with
  | append env batch => exact absurd rfl (ho env batch)
  | deleteBefore env offset =>
    have hr := veil_retain cl.activeSegment env (fun _ s => cl.below offset s)
      (fun t s => by simp [CommitLog.below])
      (fun t s hs => by simp only [CommitLog.below, decide_eq_true_eq] at hs; exact hs.2)
      0 cl.segments cl.fs
    exact congrArg (fun x : Files × List Segment =>
      some { cl with fs := x.1, segments := x.2 }) hr
  | enforceRetention env =>
    have hr := veil_retain cl.activeSegment env (cl.outdated cfg env)
      (fun t s => by simp [CommitLog.outdated])
      (fun t s hs => by simp only [CommitLog.outdated, decide_eq_true_eq] at hs; exact hs.1)
      cl.totalSize cl.segments cl.fs
    have ht : (veiled cl).totalSize = cl.totalSize := by
      simp [CommitLog.totalSize, veiled, Function.comp_def]
    simp only [exec, CommitLog.enforceRetention, ht, Option.map_some]
    exact congrArg (fun x : Files × List Segment =>
      some { cl with fs := x.1, segments := x.2 }) hr
  | mergeSegments env => rw [exec, exec, veiled_merge lz4 cfg env cl h, both_returned]
  | compact env order => rw [exec, exec, veiled_compact lz4 cfg env order h, both_returned]

theorem careful_unveil {op : LogOp} {cl : CommitLog}
    (ho : ∀ env batch, op ≠ .append env batch) (h : Careful lz4 cfg op (veiled cl)) :
    Careful lz4 cfg op cl := by
  cases op with
  | append env batch => exact absurd rfl (ho env batch)
  | deleteBefore env offset => trivial
  | enforceRetention env => trivial
  | mergeSegments env =>
    obtain ⟨ha,hn⟩ := h
    rw [Enough, veiled_candidates] at ha hn
    refine ⟨fun hmin => ?_,hn⟩
    obtain ⟨xs,ys,hl,hb⟩ := ha hmin
    obtain ⟨l1,l3,hs,h1,_⟩ := map_eq_append_iff.mp hl
    obtain ⟨l0,l2,rfl,h0,h2⟩ := map_eq_append_iff.mp h1
    have hsame : l2 = mergeCandidates cfg env cl := by
      rw [← h2]
      refine (map_id l2).symm.trans (map_congr_left (fun s hm => ?_))
      have hc : veil cl.activeSegment s ∈ mergeCandidates cfg env cl := by
        rw [← h2]
        exact mem_map_of_mem hm
      have hp := (mem_filter.mp hc).2
      simp only [veil_ptr, decide_eq_true_eq] at hp
      exact (veil_other _ s hp.1).symm
    refine ⟨l0,l3,by rw [hs, hsame],fun x hx c hc => ?_⟩
    have := hb (veil cl.activeSegment x) (by rw [← h0]; exact mem_map_of_mem hx) c hc
    simpa using this
  | compact env order =>
    obtain ⟨hf,hn⟩ := h
    rw [CompactFits, veiled_sealed] at hf
    rw [veiled_sealed] at hn
    exact ⟨hf,hn⟩

/-! ## Appends to a sealed active segment -/

theorem veiled_active : (veiled cl).active = cl.active.map (veil cl.activeSegment) := by
  simp only [CommitLog.active, veiled, List.find?_map]
  congr 2
  funext s
  simp

def mapping (env : Env) : Env := { env with mmap := true }

variable {s : Segment} {held : List Held} {last : Held} {fs : Files} {batch : RecordBatch}
  {cl' : CommitLog} {r : Except Stop ℕ}

theorem update_veiled (hs : s.ptr = cl.activeSegment) (hu : s.mmapData = none) :
    (veiled cl).update ((veil cl.activeSegment s).sealSegment env) =
      cl.update (s.sealSegment (mapping env)) := by
  have h1 : (veil cl.activeSegment s).sealSegment env = veil cl.activeSegment s := by
    by_cases hz : s.size = 0
    · rw [Segment.sealSegment, if_pos (.inl (by simpa using hz))]
    · rw [Segment.sealSegment, if_pos (.inr (by simp [veil, hs, hz]))]
  have h2 : s.sealSegment (mapping env) = veil cl.activeSegment s := by
    by_cases hz : s.size = 0
    · rw [Segment.sealSegment, if_pos (.inl hz), veil, if_neg (by simp [hz])]
    · rw [Segment.sealSegment, if_neg (by simp [hz, hu]), if_pos (by rfl), veil, if_pos ⟨hs,hz⟩]
  rw [h1, h2, CommitLog.update, CommitLog.update]
  simp only [veiled, map_map, CommitLog.mk.injEq, true_and, and_true]
  refine map_congr_left (fun t _ => ?_)
  by_cases ht : t.ptr = s.ptr
  · simp [ht]
  · simp only [Function.comp_apply, veil_ptr, ht, if_false]
    exact veil_other _ t (by rw [← hs]; exact ht)

theorem roll_veiled (ha : cl.active = some s) (hu : s.mmapData = none)
    (hf : s.isFull cfg env = true) : rollFaulty lz4 cfg env fault (veiled cl) =
      rollFaulty lz4 cfg (mapping env) fault cl := by
  have hp : s.ptr = cl.activeSegment := by
    simpa using List.find?_some ha
  have hf1 : (veil cl.activeSegment s).isFull cfg env = true := by rw [veil_isFull, hf]
  have hf2 : s.isFull cfg (mapping env) = true := hf
  simp only [rollFaulty, veiled_active, ha, Option.map_some, hf1, hf2, if_true,
    update_veiled env cl hp hu]
  rfl

/-- An append to a sealed active segment that is full is an append to the
segment before it was sealed. -/
theorem append_veiled (batch : RecordBatch)
    {cl : CommitLog} (ha : cl.active = some s) (hu : s.mmapData = none)
    (hf : s.isFull cfg env = true) :
    (∃ e, appendFaulty lz4 cfg env fault batch (veiled cl) = (veiled cl,.error e)) ∨
    appendFaulty lz4 cfg env fault batch (veiled cl) =
      appendFaulty lz4 cfg (mapping env) fault batch cl := by
  simp only [appendFaulty, veiled_fields, roll_veiled lz4 cfg env fault cl ha hu hf]
  split
  · exact .inl ⟨_,rfl⟩
  split
  · exact .inl ⟨_,rfl⟩
  · rcases encodeBatch lz4 (assignOffsets cl.nextOffset batch) with e | encoded
    · exact .inl ⟨_,rfl⟩
    · exact .inr rfl

/-! ## Outcomes -/

def Harmless : Fault → Prop
  | .write n => n = 0
  | .syncLog | .writeIndex _ | .syncIndex => False
  | _ => True

instance : DecidablePred Harmless := fun fault => by
  cases fault <;> unfold Harmless <;> infer_instance

theorem exact_beside {lz4 : Lz4} {cl : CommitLog} (h : Exact lz4 cl held last) {ext : Ext} {i : ℕ}
    (ho : Fs.Opened ⟨.main,cl.nextOffset,ext⟩ cl.fs.disk fs.disk i) :
    Exact lz4 { cl with fs := fs } held last := by
  have hn := h.rep.tidy.named
  refine ⟨rep_grow h.rep fs ho.fresh ho.data (ho.stays_named hn) (ho.stays_single hn
    h.rep.tidy.single) ?_,?_,h.sound⟩
  · intro p j hp
    by_cases hq : p = ⟨.main,cl.nextOffset,ext⟩
    · rw [hq, ho.named, Option.some.injEq] at hp
      rw [hq, ← hp]
      rcases ho.origin with hold | ⟨_,hi,hd⟩
      · exact .inl hold
      · exact .inr ⟨hi.ge,.inr hd⟩
    · rw [ho.others p hq] at hp
      exact .inl hp
  · intro p hp
    rw [ho.others p (by rintro rfl; cases hp)]
    exact h.unstaged p hp

section Outcomes
variable {lz4 : Lz4} {cl : CommitLog} {held : List Held} {last : Held}

theorem veiled_segments (h : Rep cl held last) :
    (veiled cl).segments = held.map Prod.fst++[veil cl.activeSegment last.1] := by
  have hheld : (held.map Prod.fst).map (veil cl.activeSegment) = held.map Prod.fst := by
    rw [map_map]
    refine map_congr_left (fun y hy => veil_other _ _ ?_)
    rw [h.current]
    exact h.ptr_ne y hy
  rw [veiled, h.listed, map_append, map_append, hheld]
  rfl

theorem update_last (h : Rep cl held last) : cl.update last.1 = cl := by
  have hs := h.update last.1 rfl
  have hl := h.listed
  rw [map_append] at hl
  have he : cl.update last.1 = { cl with segments := (cl.update last.1).segments } := rfl
  rw [he, hs, show held.map Prod.fst++[last.1] = cl.segments from hl.symm]

theorem update_sealed (h : Rep cl held last) (env : Env) :
    cl.update (last.1.sealSegment env) = cl ∨ cl.update (last.1.sealSegment env) = veiled cl := by
  by_cases hs : last.1.sealSegment env = last.1
  · rw [hs]
    exact .inl (update_last h)
  right
  have hz : ¬ (last.1.size = 0 ∨ last.1.mmapData ≠ none) := by
    intro hc
    rw [Segment.sealSegment, if_pos hc] at hs
    exact hs rfl
  have hm : env.mmap = true := by
    by_contra hc
    rw [Segment.sealSegment, if_neg hz, if_neg hc] at hs
    exact hs rfl
  have hv : last.1.sealSegment env = veil cl.activeSegment last.1 := by
    rw [Segment.sealSegment, if_neg hz, if_pos hm, veil, if_pos ⟨h.current.symm,by tauto⟩]
  have he : cl.update (last.1.sealSegment env) =
      { veiled cl with segments := (cl.update (last.1.sealSegment env)).segments } := rfl
  rw [he, h.update _ (sealSegment_ptr env last.1), hv, ← veiled_segments h]

def Veils (cl cl0 : CommitLog) : Prop := cl = cl0 ∨ cl = veiled cl0

theorem Veils.refile {cl cl0 : CommitLog} (h : Veils cl cl0) :
    Veils { cl with fs := fs } { cl0 with fs := fs } := by
  rcases h with rfl | rfl
  · exact .inl rfl
  · exact .inr rfl

theorem roll_exact (h : Exact lz4 cl held last) {cfg : Config} {env : Env} {cl1 : CommitLog}
    (hr : cl.rollIfFull lz4 cfg env = (cl1,.ok ())) : ∃ held1 last1,
      Rolled cfg env cl held last cl1.fs.disk held1 last1 ∧ Exact lz4 cl1 held1 last1 ∧
      cl1.nextOffset = cl.nextOffset := by
  obtain ⟨_,⟨hfull,rfl⟩ | ⟨hfull,hn,s,hs,hrep⟩⟩ := roll_rep h.rep hr
  · exact ⟨held,last,.stay hfull rfl,h,rfl⟩
  · have hroll : Rolled cfg env cl held last cl1.fs.disk
        (held++[(last.1.sealSegment env,last.2)]) (s,Extent.empty cl.nextOffset) := .roll s hfull hs
    exact ⟨_,_,hroll,⟨hrep,rolled_unstaged h.unstaged hroll,sound_rolled h.sound hroll⟩,hn⟩

/-- Rolling fails and leaves the active segment sealed, or it does what it
does without a fault. -/
theorem rollFaulty_outcome (h : Exact lz4 cl held last) {cfg : Config} {env : Env} {fault : Fault}
    {cl1 : CommitLog} {r : Except Stop Unit} (hr : rollFaulty lz4 cfg env fault cl = (cl1,r)) :
    (∃ e cl0, r = .error e ∧ Exact lz4 cl0 held last ∧ cl0.nextOffset = cl.nextOffset ∧
      Veils cl1 cl0) ∨ cl.rollIfFull lz4 cfg env = (cl1,r) := by
  unfold rollFaulty at hr
  unfold CommitLog.rollIfFull
  rw [h.rep.active] at hr ⊢
  dsimp only at hr ⊢
  split at hr
  · rename_i hfull
    rw [if_pos hfull]
    have hv : Veils (cl.update (last.1.sealSegment env)) cl := update_sealed h.rep env
    have ho := Fs.openFile_opened ⟨.main,cl.nextOffset,.log⟩ env.opened h.rep.tidy.named
    have hlog := exact_beside h ho
    have ho2 := Fs.openFile_opened ⟨.main,cl.nextOffset,.idx⟩ env.opened
      hlog.rep.tidy.named
    have hidx := exact_beside hlog ho2
    cases fault with
    | openLog =>
      cases hr
      exact .inl ⟨_,cl,rfl,h,rfl,hv⟩
    | openIndex =>
      cases hr
      exact .inl ⟨_,_,rfl,hlog,rfl,hv.refile⟩
    | loadIndex =>
      cases hr
      exact .inl ⟨_,_,rfl,hidx,rfl,hv.refile⟩
    | none => exact .inr hr
    | write n => exact .inr hr
    | syncLog => exact .inr hr
    | writeIndex n => exact .inr hr
    | syncIndex => exact .inr hr
  · rename_i hfull
    rw [if_neg hfull]
    exact .inr hr

theorem exact_rewritten (h : Exact lz4 cl held last) {i : ℕ} {t : ℤ}
    (hf : fs = cl.fs.append i [] t) : Exact lz4 { cl with fs := fs } held last := by
  subst hf
  have hdata : ∀ k, (cl.fs.append i [] t).disk.data k = cl.fs.disk.data k := by
    intro k
    rw [Fs.disk_append, Disk.data_put]
    split
    · rename_i hk
      rw [hk, append_nil]
    · rfl
  exact ⟨rep_grow h.rep _ (le_refl _) (fun k _ => hdata k) h.rep.tidy.named h.rep.tidy.single
    (fun p j hp => .inl hp),h.unstaged,h.sound⟩

structure Failed (lz4 : Lz4) (cl cl' : CommitLog) (ys : List Held) (cl0 : CommitLog)
    (held : List Held) (last : Held) : Prop where
  exact : Exact lz4 cl0 held last
  frames : framesOf (held++[last]) = framesOf ys
  next : cl0.nextOffset = cl.nextOffset
  veils : Veils cl' cl0

def Fails (lz4 : Lz4) (cl cl' : CommitLog) (ys : List Held) (r : Except Stop ℕ) : Prop :=
  ∃ e cl0 held last, r = .error e ∧ Failed lz4 cl cl' ys cl0 held last

def Adds (lz4 : Lz4) (batch : RecordBatch) (cl cl' : CommitLog) (ys : List Held)
    (r : Except Stop ℕ) : Prop :=
  ∃ f held last s hle, r = .ok f.base ∧ f.base = cl.nextOffset ∧
    (f.batch lz4).records = (assignOffsets cl.nextOffset batch).records.map asRead ∧
    framesOf (held++[last]) = framesOf ys ∧ Exact lz4 cl' held (s,last.2.push f hle)

theorem appendFaulty_outcome (h : Exact lz4 cl held last) {cfg : Config} {env : Env} {fault : Fault}
    {cl' : CommitLog}
    (hh : Harmless fault) (ha : appendFaulty lz4 cfg env fault batch cl = (cl',r)) :
    Fails lz4 cl cl' (held++[last]) r ∨ cl.append lz4 cfg env batch = (cl',r) := by
  unfold appendFaulty at ha
  unfold CommitLog.append
  split at ha
  · rename_i hc
    rw [if_pos hc]
    exact .inr ha
  rename_i hc
  rw [if_neg hc]
  split at ha
  · rename_i hl
    rw [if_pos hl]
    exact .inr ha
  rename_i hl
  rw [if_neg hl]
  rcases he : encodeBatch lz4 (assignOffsets cl.nextOffset batch) with e | encoded
  · rw [he] at ha
    exact .inr ha
  rw [he] at ha
  rcases hr : rollFaulty lz4 cfg env fault cl with ⟨cl1,r1⟩
  rw [hr] at ha
  rcases rollFaulty_outcome h hr with ⟨e,cl0,rfl,hex,hn,hv⟩ | hroll
  · cases ha
    exact .inl ⟨e,cl0,held,last,rfl,hex,rfl,hn,hv⟩
  rw [hroll]
  rcases r1 with e | u
  · exact .inr ha
  dsimp only at ha ⊢
  obtain ⟨held1,last1,hrolled,hex,hn⟩ := roll_exact h hroll
  have hup : ∀ s ∈ cl1.active, cl1.update s = cl1 := by
    intro s hs
    rw [hex.rep.active, Option.mem_some_iff] at hs
    rw [← hs]
    exact update_last hex.rep
  by_cases hearly : fault.early
  · rw [appendEncodedFaulty_early cfg env fault hearly encoded cl1 hup] at ha
    exact .inr ha
  obtain rfl : fault = .write 0 := by
    cases fault <;> first | exact absurd trivial hearly | exact congrArg _ hh | exact False.elim hh
  have hframes := rolled_frames hrolled
  simp only [appendEncodedFaulty, hex.rep.active, appendSegmentFaulty, take_zero] at ha
  split at ha
  · rename_i hpair
    split at hpair <;> cases hpair
    · rw [update_last hex.rep] at ha
      cases ha
      exact .inl ⟨_,cl1,held1,last1,rfl,hex,hframes,hn,.inl rfl⟩
    · rw [update_last hex.rep] at ha
      cases ha
      exact .inl ⟨_,_,held1,last1,rfl,exact_rewritten hex rfl,hframes,hn,.inl rfl⟩
  · rename_i hpair
    split at hpair <;> cases hpair

theorem append_failed (h : Exact lz4 cl held last) {cfg : Config} {env : Env}
    {r : Except Stop ℕ} (hf : Fair lz4 cfg env cl batch)
    (ha : cl.append lz4 cfg env batch = (cl',r)) :
    Fails lz4 cl cl' (held++[last]) r ∨ Adds lz4 batch cl cl' (held++[last]) r := by
  rcases append_exact lz4 h hf ha with
    ⟨rfl,e,he⟩ | ⟨d,held1,last1,hr,_,⟨e,he,hex⟩ | ⟨f,hres,henc,hrecs,s,hle,_,hex⟩⟩
  · exact .inl ⟨e,cl',held,last,he,h,rfl,rfl,.inl rfl⟩
  · have hn : cl'.nextOffset = cl.nextOffset := by rw [hex.rep.next, rolled_finish h.rep hr]
    exact .inl ⟨_,cl',held1,last1,he,hex,rolled_frames hr,hn,.inl rfl⟩
  · exact .inr ⟨f,held1,last1,s,hle,hres,henc.base,hrecs,rolled_frames hr,hex⟩

end Outcomes

/-! ## Runs -/

/-- An append is fair, its fault is harmless, and an active segment that an
earlier failure has left sealed is full. -/
def Guarded (lz4 : Lz4) (cfg : Config) : LogOp × Fault → CommitLog → Prop
  | (.append env batch,fault), cl => Fair lz4 cfg env cl batch ∧ Harmless fault ∧
      ∀ s ∈ cl.active, s.mmapData ≠ none → s.isFull cfg env = true
  | (op,_), cl => Careful lz4 cfg op cl

instance (lz4 : Lz4) (cfg : Config) : ∀ x cl, Decidable (Guarded lz4 cfg x cl)
  | (.append env batch,fault), cl => inferInstanceAs (Decidable (Fair lz4 cfg env cl batch ∧
      Harmless fault ∧ ∀ s ∈ cl.active, s.mmapData ≠ none → s.isFull cfg env = true))
  | (.deleteBefore env o,_), cl =>
    inferInstanceAs (Decidable (Careful lz4 cfg (.deleteBefore env o) cl))
  | (.enforceRetention env,_), cl =>
    inferInstanceAs (Decidable (Careful lz4 cfg (.enforceRetention env) cl))
  | (.mergeSegments env,_), cl =>
    inferInstanceAs (Decidable (Careful lz4 cfg (.mergeSegments env) cl))
  | (.compact env order,_), cl =>
    inferInstanceAs (Decidable (Careful lz4 cfg (.compact env order) cl))

theorem fair_unveil {lz4 : Lz4} {cfg : Config} {env : Env} {cl : CommitLog}
    (h : Fair lz4 cfg env (veiled cl) batch) : Fair lz4 cfg (mapping env) cl batch := by
  refine ⟨h.codes,fun s hs hf => ?_⟩
  have hm : veil cl.activeSegment s ∈ (veiled cl).active := by
    rw [veiled_active]
    exact Option.mem_map_of_mem _ hs
  have hn := h.narrow _ hm ((veil_isFull _ s cfg env).trans hf)
  rw [veil_base] at hn
  exact hn

theorem veiled_empty {cl : CommitLog} (h : Rep cl held last)
    (hz : last.1.size = 0) : veiled cl = cl := by
  have he : veiled cl = { cl with segments := (veiled cl).segments } := rfl
  have hl := h.listed
  rw [map_append] at hl
  rw [he, veiled_segments h, veil, if_neg (by simp [hz]),
    show held.map Prod.fst++[last.1] = cl.segments from hl.symm]

/-- A guarded append does what an append without a fault does to the log
before it was sealed, or it fails without effect. -/
theorem guarded_append {lz4 : Lz4} {cfg : Config} {env : Env} {fault : Fault} {cl cl0 : CommitLog}
    (h : Exact lz4 cl0 held last) (hv : Veils cl cl0)
    (hg : Guarded lz4 cfg (.append env batch,fault) cl)
    (ha : appendFaulty lz4 cfg env fault batch cl = (cl',r)) :
    Fails lz4 cl0 cl' (held++[last]) r ∨ Adds lz4 batch cl0 cl' (held++[last]) r := by
  obtain ⟨hfair,hharm,hfull⟩ := hg
  have hplain : ∀ env', Fair lz4 cfg env' cl0 batch →
      appendFaulty lz4 cfg env' fault batch cl0 = (cl',r) →
      Fails lz4 cl0 cl' (held++[last]) r ∨ Adds lz4 batch cl0 cl' (held++[last]) r := by
    intro env' hf ha'
    rcases appendFaulty_outcome h hharm ha' with hfail | hok
    · exact .inl hfail
    · exact append_failed h hf hok
  rcases hv with rfl | rfl
  · exact hplain env hfair ha
  by_cases hz : last.1.size = 0
  · rw [veiled_empty h.rep hz] at ha hfair
    exact hplain env hfair ha
  have hm : veil cl0.activeSegment last.1 ∈ (veiled cl0).active := by
    rw [veiled_active, h.rep.active]
    rfl
  have hf := hfull _ hm (by simp [veil, h.rep.current, hz])
  rcases append_veiled lz4 cfg env fault batch h.rep.active h.rep.live.written.unmapped
    (by rwa [veil_isFull] at hf) with ⟨e,he⟩ | he
  · rw [he] at ha
    cases ha
    exact .inl ⟨e,cl0,held,last,rfl,h,rfl,rfl,.inr rfl⟩
  · rw [he] at ha
    exact hplain (mapping env) (fair_unveil hfair) ha

def Standing (lz4 : Lz4) (cl : CommitLog) : Prop := ∃ cl0, Kept lz4 cl0 ∧ Veils cl cl0

theorem step_standing {x : LogOp × Fault} {cl : CommitLog}
    (h : Standing lz4 cl) (hg : Guarded lz4 cfg x cl) (hs : execFaulty lz4 cfg x cl = some cl') :
    Standing lz4 cl' := by
  obtain ⟨cl0,hk,hv⟩ := h
  have hother : ∀ op, (∀ env batch, op ≠ .append env batch) → Careful lz4 cfg op cl →
      exec lz4 cfg op cl = some cl' → Standing lz4 cl' := by
    intro op ho hc hs
    rcases hv with rfl | rfl
    · exact ⟨cl',step_kept lz4 cfg hk hc hs,.inl rfl⟩
    obtain ⟨⟨held,last,hex⟩,_⟩ := id hk
    have hp : cl0.activeSegment < cl0.nextPtr := by
      rw [hex.rep.current]
      exact hex.rep.allocated last (by simp)
    rw [exec_veiled lz4 cfg op ho hp, Option.map_eq_some_iff] at hs
    obtain ⟨cl1,h1,rfl⟩ := hs
    exact ⟨cl1,step_kept lz4 cfg hk (careful_unveil lz4 cfg ho hc) h1,.inr rfl⟩
  obtain ⟨op,fault⟩ := x
  cases op with
  | append env batch =>
    obtain ⟨r,ha,_⟩ := returned_some hs
    obtain ⟨⟨held,last,hex⟩,hn⟩ := hk
    rcases guarded_append hex hv hg ha with
      ⟨e,cl1,held',last',_,hf⟩ | ⟨f,held',last',s,hle,_,_,_,_,hex'⟩
    · exact ⟨cl1,⟨⟨held',last',hf.exact⟩,by rw [hf.next]; exact hn⟩,hf.veils⟩
    · refine ⟨cl',⟨⟨held',_,hex'⟩,?_⟩,.inl rfl⟩
      rw [hex'.rep.next, Extent.push_finish]
      exact f.bounded
  | deleteBefore env o => exact hother (.deleteBefore env o) (by simp) hg hs
  | enforceRetention env => exact hother (.enforceRetention env) (by simp) hg hs
  | mergeSegments env => exact hother (.mergeSegments env) (by simp) hg hs
  | compact env order => exact hother (.compact env order) (by simp) hg hs

/-! ## Reads -/

def Serves (lz4 : Lz4) (cl : CommitLog) : Prop := ReadsBack lz4 cl ∧
  ∀ o m bs, cl.read lz4 o m = .ok bs → ∀ b ∈ bs, b ∈ storedBatches lz4 cl

theorem listing_serves {lz4 : Lz4} {cl : CommitLog} {ys : List Held} (h : Listing cl ys)
    (hne : ys ≠ []) (hs : ∀ y ∈ ys, Sound lz4 y)
    (ho : ys.Pairwise (fun y z => y.2.finish ≤ z.2.base)) : Serves lz4 cl := by
  refine ⟨listing_readsBack lz4 h hs ho,fun o m bs hr b hb => ?_⟩
  obtain ⟨pre,y,post,hp,_,hy⟩ := h.picked lz4 hne o
  have hmem : y ∈ ys := by rw [hp.parts]; simp
  rw [hy m] at hr
  obtain ⟨mid,hsub,_,hbs⟩ := readFrom_front lz4 cl.fs y.1 y.2 (h.keeps y hmem) o m bs hr
  obtain ⟨f,hf,rfl⟩ := mem_map.mp (hbs.subset hb)
  rw [listing_batches lz4 h (fun z hz g hg => ((hs z hz).clean g hg).readable)]
  exact mem_map_of_mem (mem_flatMap.mpr ⟨y,hmem,hsub.subset hf⟩)

theorem keeps_veil {d : Disk Path} {x : Extent} (h : Keeps d s x) {a : ℕ} :
    Keeps d (veil a s) x := by
  unfold veil
  split
  · exact h.remapped
  · exact h

theorem standing_serves {lz4 : Lz4} {cl cl0 : CommitLog}
    (h : Exact lz4 cl0 held last) (hv : Veils cl cl0) : Serves lz4 cl ∧
      storedBatches lz4 cl = (framesOf (held++[last])).map (Frame.batch lz4) := by
  rcases hv with rfl | rfl
  · exact ⟨listing_serves (rep_listing h.rep) (by simp) h.sound h.rep.ordered,
      storedBatches_exact h⟩
  have hl : Listing (veiled cl0) (held++[(veil cl0.activeSegment last.1,last.2)]) := by
    have hb := rep_listing h.rep
    refine ⟨by rw [veiled_segments h.rep]; simp,h.rep.opened,?_,?_⟩
    · intro y hy
      rcases mem_append.mp hy with hy | hy
      · exact h.rep.keeps y hy
      · rw [mem_singleton.mp hy]
        exact keeps_veil h.rep.live.keeps
    · obtain ⟨h1,h2⟩ := (pairwise_last).mp hb.bases
      exact (pairwise_last).mpr ⟨h1,h2⟩
  have hs : ∀ y ∈ held++[(veil cl0.activeSegment last.1,last.2)], Sound lz4 y := by
    intro y hy
    rcases mem_append.mp hy with hy | hy
    · exact h.sound y (by simp [hy])
    · have hlast := h.sound last (by simp)
      rw [mem_singleton.mp hy]
      exact ⟨hlast.clean,by simpa using hlast.indexed,by simpa using hlast.next,hlast.narrow⟩
  refine ⟨listing_serves hl (by simp) hs ?_,?_⟩
  · obtain ⟨h1,h2⟩ := (pairwise_last).mp h.rep.ordered
    exact (pairwise_last).mpr ⟨h1,h2⟩
  · rw [listing_batches lz4 hl (fun z hz g hg => ((hs z hz).clean g hg).readable)]
    simp [framesOf]

theorem fresh_standing (h : Fresh lz4 cl) : Standing lz4 cl :=
  ⟨cl,fresh_kept lz4 h,.inl rfl⟩

/-- After any guarded run an append that fails leaves the newest offset, what
is stored and what can be read as they were, and an append that succeeds stores
its batch above all stored ones, where it is read. -/
theorem failed_append_harmless (lz4 : Lz4) (cfg : Config) (cl0 cl cl' : CommitLog)
    (h0 : Fresh lz4 cl0)
    (h : Reaches (fun x s t => execFaulty lz4 cfg x s = some t) (Guarded lz4 cfg) cl0 cl)
    (env : Env) (fault : Fault) (batch : RecordBatch) (r : Except Stop ℕ)
    (hg : Guarded lz4 cfg (.append env batch,fault) cl)
    (ha : appendFaulty lz4 cfg env fault batch cl = (cl',r)) :
    (∀ e, r = .error e → cl'.newestOffset = cl.newestOffset ∧
      storedBatches lz4 cl' = storedBatches lz4 cl ∧ Serves lz4 cl ∧ Serves lz4 cl') ∧
    ∀ base, r = .ok base → (∀ b ∈ storedBatches lz4 cl, endOffset b ≤ base) ∧
      ∃ b, b.baseOffset = base ∧ b.records = (assignOffsets base batch).records.map asRead ∧
        storedBatches lz4 cl' = storedBatches lz4 cl++[b] ∧
        ∀ m, (∀ s ∈ cl'.segments, Unbounded m s) → cl'.read lz4 base m = .ok [b] := by
  obtain ⟨c,⟨⟨held,last,hex⟩,_⟩,hv⟩ := h.invariant (Standing lz4) (fresh_standing lz4 cl0 h0)
    (fun x s t hi hgood hs => step_standing lz4 cfg hi hgood hs)
  obtain ⟨hserve,hstored⟩ := standing_serves hex hv
  have hnext : cl.nextOffset = c.nextOffset := by
    rcases hv with rfl | rfl <;> rfl
  rcases guarded_append hex hv hg ha with
    ⟨e,c',held',last',rfl,hf⟩ | ⟨f,held',last',s,hle,rfl,hbase,hrecs,hframes,hex'⟩
  · refine ⟨fun _ _ => ?_,fun base hb => by cases hb⟩
    obtain ⟨hserve',hstored'⟩ := standing_serves hf.exact hf.veils
    refine ⟨?_,by rw [hstored', hf.frames, hstored],hserve,hserve'⟩
    have hn : cl'.nextOffset = c'.nextOffset := by
      rcases hf.veils with he | he
      · rw [he]
      · rw [he, veiled]
    rw [CommitLog.newestOffset, hn, hf.next, ← hnext]
    rfl
  refine ⟨fun e he => (nomatch he),fun base hb => ?_⟩
  cases hb
  have hread : f.Readable lz4 :=
    ((hex'.sound (s,last'.2.push f hle) (by simp)).clean f (by simp)).readable
  have hstored' := storedBatches_exact hex'
  have hsplit : framesOf (held'++[(s,last'.2.push f hle)]) = framesOf (held++[last])++[f] := by
    rw [← hframes]
    simp [framesOf]
  have hbatch := (Frame.batch_base hread).1
  refine ⟨?_,f.batch lz4,hbatch,by rw [hrecs, hbase],?_,?_⟩
  · intro b hb
    rw [hstored] at hb
    obtain ⟨g,hg',rfl⟩ := mem_map.mp hb
    obtain ⟨y,hy,hgy⟩ := mem_flatMap.mp hg'
    rw [Frame.batch_end ((hex.sound y hy).clean g hgy).readable, hbase]
    exact le_trans (y.2.stop_le_finish g hgy) (hex.rep.finish_le_next y hy)
  · rw [hstored', hsplit, hstored, map_append]
    rfl
  intro m hm
  have hseg := segmentBatches_clean lz4 hex'.rep.live.keeps
    (hex'.sound _ (by simp)).clean
  rw [Extent.push_frames, map_append, map_singleton] at hseg
  have hback := (standing_serves hex' (.inl rfl)).1.1 m hm s
    (by rw [hex'.rep.listed]; simp) _ _ [] hseg
  rwa [hbatch] at hback

def afterFailures : List (LogOp × Fault) :=
  [(.append (still 0) (smallBatch 0 1),.none),(.append (still 0) (smallBatch 0 2),.openIndex)]

/-- A batch, a new segment that cannot be opened, and a write of no byte. -/
theorem failed_open_harmless : ∃ cl cl', Fresh noLz4 (smallLog 0) ∧
    runAll (execFaulty noLz4 eager) afterFailures (smallLog 0) = some cl ∧
    (∃ s ∈ cl.active, s.mmapData ≠ none) ∧
    appendFaulty noLz4 eager (still 0) (.write 0) (smallBatch 0 3) cl = (cl',.error ioError) ∧
    storedBatches noLz4 cl' = storedBatches noLz4 cl ∧ (storedBatches noLz4 cl).length = 1 := by
  obtain ⟨cl,hcl,⟨s,_,_,hm,hs⟩,hg,herr,hone⟩ : ∃ c ∈ runAll (execFaulty noLz4 eager) afterFailures (smallLog 0),
      (∃ s ∈ c.segments, s.ptr = c.activeSegment ∧ s.mmapData ≠ none ∧ c.active = some s) ∧
      Guarded noLz4 eager (.append (still 0) (smallBatch 0 3),.write 0) c ∧
      (appendFaulty noLz4 eager (still 0) (.write 0) (smallBatch 0 3) c).2 = .error ioError ∧
      (storedBatches noLz4 c).length = 1 := by decide +kernel
  have hpair : appendFaulty noLz4 eager (still 0) (.write 0) (smallBatch 0 3) cl =
      ((appendFaulty noLz4 eager (still 0) (.write 0) (smallBatch 0 3) cl).1,.error ioError) :=
    Prod.ext rfl herr
  have hreach := reaches_of_runAll (execFaulty noLz4 eager) (Guarded noLz4 eager)
    (by decide +kernel) hcl
  obtain ⟨hfail,_⟩ := failed_append_harmless noLz4 eager (smallLog 0) cl _ (smallLog_fresh 0) hreach
    (still 0) (.write 0) (smallBatch 0 3) _ hg hpair
  exact ⟨cl,_,smallLog_fresh 0,hcl,⟨s,hs,hm⟩,hpair,(hfail _ rfl).2.1,hone⟩

def syncing : Config := { defaultConfig with fsyncEvery := 1 }

/-- After one byte of a batch has been written and the write has failed, the
next batch is stored and cannot be read. After a failed flush the batch is
read although its append failed, and the next batch gets the same offset. -/
theorem failed_append_damages : Fresh noLz4 (smallLog 0) ∧
    (∃ cl, runAll (execFaulty noLz4 defaultConfig)
        [(.append (still 0) (smallBatch 0 1),.write 1)] (smallLog 0) = some cl ∧
      (appendFaulty noLz4 defaultConfig (still 0) (.write 1) (smallBatch 0 1) (smallLog 0)).2 =
        .error ioError ∧
      (cl.append noLz4 defaultConfig (still 0) (smallBatch 0 2)).2 = .ok 0 ∧
      (cl.append noLz4 defaultConfig (still 0) (smallBatch 0 2)).1.read noLz4 0 1000 = .ok []) ∧
    ∃ cl, runAll (execFaulty noLz4 syncing)
        [(.append (still 0) (smallBatch 0 1),.syncLog)] (smallLog 0) = some cl ∧
      (appendFaulty noLz4 syncing (still 0) .syncLog (smallBatch 0 1) (smallLog 0)).2 =
        .error ioError ∧
      (smallLog 0).read noLz4 0 1000 = .ok [] ∧ cl.read noLz4 0 1000 = .ok [smallBatch 0 1] ∧
      (cl.append noLz4 syncing (still 0) (smallBatch 0 2)).2 = .ok 0 ∧
      storedBatches noLz4 (cl.append noLz4 syncing (still 0) (smallBatch 0 2)).1 =
        [smallBatch 0 1,smallBatch 0 2] := by
  refine ⟨smallLog_fresh 0,?_,?_⟩
  · exact computed (by decide +kernel)
  · exact computed (by decide +kernel)

end GoCommon.ForgeFaults
