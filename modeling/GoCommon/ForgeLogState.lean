import GoCommon.ForgeCommitLog
import GoCommon.ForgeExtents

/-!
# What a log object and its disk have in common

The representation relation ties the segments of a log to extents: all but the
last keep theirs, the last is live. A segment may share its files only with
later segments, and only while it is empty. Appending, rolling and removing
preserve the relation.
-/

set_option autoImplicit false

namespace GoCommon.ForgeLogState
open List FileDisk ForgeRecord ForgeSegment ForgeFrames ForgeSegmentFiles ForgeExtents
open ForgeCommitLog

abbrev Held := Segment × Extent

def Apart (s t : Segment) : Prop :=
  s.logFile.ino ≠ t.logFile.ino ∧ s.index.file.ino ≠ t.index.file.ino

structure Tidy (d : Disk Path) (ss : List Segment) (next : ℕ) : Prop where
  named : Fs.Named d
  single : Fs.Single d
  spare : ∀ p i, next ≤ p.base → d.lookup p = some i → d.data i = []
  handles : ∀ s ∈ ss, s.logFile.ino < d.fresh ∧ s.index.file.ino < d.fresh
  logs : ∀ s ∈ ss, ∀ p, d.lookup p = some s.logFile.ino → p = ⟨.main,s.baseOffset,.log⟩
  idxs : ∀ s ∈ ss, ∀ p, d.lookup p = some s.index.file.ino → p = ⟨.main,s.baseOffset,.idx⟩
  kinds : ∀ s ∈ ss, ∀ t ∈ ss, s.logFile.ino ≠ t.index.file.ino

variable {d : Disk Path} {ss : List Segment} {next : ℕ} {env : Env} {s : Segment}

theorem Tidy.subset {ts : List Segment} (h : Tidy d ss next)
    (hs : ∀ s ∈ ts, s ∈ ss) : Tidy d ts next :=
  ⟨h.named,h.single,h.spare,fun s m => h.handles s (hs s m),fun s m => h.logs s (hs s m),
    fun s m => h.idxs s (hs s m),fun s m t n => h.kinds s (hs s m) t (hs t n)⟩

def files (s : Segment) : ℕ × ℕ × ℕ := (s.logFile.ino,s.index.file.ino,s.baseOffset)

theorem Tidy.congr {ts : List Segment} (h : Tidy d ss next)
    (hs : ts.map files = ss.map files) : Tidy d ts next := by
  have hm : ∀ t ∈ ts, ∃ s ∈ ss, files s = files t := by
    intro t ht
    have : files t ∈ ss.map files := by rw [← hs]; exact mem_map_of_mem ht
    exact mem_map.mp this
  refine ⟨h.named,h.single,h.spare,?_,?_,?_,?_⟩
  · intro t ht
    obtain ⟨s,hm,he⟩ := hm t ht
    simp only [files, Prod.mk.injEq] at he
    rw [← he.1, ← he.2.1]
    exact h.handles s hm
  · intro t ht p hp
    obtain ⟨s,hm,he⟩ := hm t ht
    simp only [files, Prod.mk.injEq] at he
    rw [← he.2.2]
    exact h.logs s hm p (by rw [hp, he.1])
  · intro t ht p hp
    obtain ⟨s,hm,he⟩ := hm t ht
    simp only [files, Prod.mk.injEq] at he
    rw [← he.2.2]
    exact h.idxs s hm p (by rw [hp, he.2.1])
  intro t ht u hu
  obtain ⟨s,hs,he⟩ := hm t ht
  obtain ⟨r,hr,hf⟩ := hm u hu
  simp only [files, Prod.mk.injEq] at he hf
  rw [← he.1, ← hf.2.1]
  exact h.kinds s hs r hr

structure Rep (cl : CommitLog) (held : List Held) (last : Held) : Prop where
  listed : cl.segments = (held++[last]).map Prod.fst
  current : cl.activeSegment = last.1.ptr
  next : cl.nextOffset = last.2.finish
  opened : cl.closed = false
  live : Live .main cl.fs.disk last.1 last.2
  keeps : ∀ y ∈ held, Keeps cl.fs.disk y.1 y.2
  ordered : (held++[last]).Pairwise (fun y z => y.2.finish ≤ z.2.base)
  apart : (held++[last]).Pairwise (fun y z => y.2.frames ≠ [] → Apart y.1 z.1)
  ptrs : ((held++[last]).map (fun y => y.1.ptr)).Nodup
  allocated : ∀ y ∈ held++[last], y.1.ptr < cl.nextPtr
  tidy : Tidy cl.fs.disk ((held++[last]).map Prod.fst) cl.nextOffset

def Unstaged (d : Disk Path) : Prop := ∀ p, p.dir = .staging → d.lookup p = none

section Facts
variable {cl : CommitLog} {held : List Held} {last : Held} (h : Rep cl held last)
include h

theorem Rep.keeps_all (y : Held) (hy : y ∈ held++[last]) : Keeps cl.fs.disk y.1 y.2 := by
  rcases mem_append.mp hy with hy | hy
  · exact h.keeps y hy
  · rw [mem_singleton.mp hy]
    exact h.live.keeps

theorem Rep.finish_le (y : Held) (hy : y ∈ held) : y.2.finish ≤ last.2.base := by
  have ho := h.ordered
  rw [pairwise_append] at ho
  exact ho.2.2 y hy last (by simp)

theorem Rep.finish_le_next (y : Held) (hy : y ∈ held++[last]) : y.2.finish ≤ cl.nextOffset := by
  rw [h.next]
  rcases mem_append.mp hy with hy | hy
  · exact le_trans (h.finish_le y hy) last.2.base_le_finish
  · rw [mem_singleton.mp hy]

theorem Rep.ptr_ne (y : Held) (hy : y ∈ held) : y.1.ptr ≠ last.1.ptr := by
  have hp := h.ptrs
  rw [map_append, nodup_append] at hp
  exact hp.2.2 _ (mem_map_of_mem hy) _ (by simp)

theorem Rep.active : cl.active = some last.1 := by
  have hn : held.find? (fun y => decide (y.1.ptr = cl.activeSegment)) = none := by
    rw [List.find?_eq_none]
    intro y hy
    simpa [h.current] using h.ptr_ne y hy
  rw [CommitLog.active, h.listed, List.find?_map, List.find?_append]
  simp only [Function.comp_def] at hn ⊢
  rw [hn]
  simp [h.current]

theorem Rep.update (s : Segment) (hs : s.ptr = last.1.ptr) :
    (cl.update s).segments = held.map Prod.fst++[s] := by
  have hm : ∀ y ∈ held, (if y.1.ptr = s.ptr then s else y.1) = y.1 := by
    intro y hy
    rw [if_neg (by rw [hs]; exact h.ptr_ne y hy)]
  simp only [CommitLog.update, h.listed, map_append, map_map, map_cons,
    map_nil]
  congr 1
  · exact map_congr_left hm
  · simp [hs]

end Facts

/-! ## Appending -/

theorem Tidy.touch {d' : Disk Path} {next' i j : ℕ}
    (h : Tidy d ss next) (ht : Disk.Touches i j d d') (hn : next ≤ next')
    (hi : ∀ p, d.lookup p = some i → p.base < next')
    (hj : ∀ p, d.lookup p = some j → p.base < next') : Tidy d' ss next' := by
  refine ⟨?_,?_,?_,?_,?_,?_,h.kinds⟩
  · intro p k hp
    rw [ht.lookup] at hp
    rw [ht.fresh]
    exact h.named p k hp
  · intro p q k hp hq
    rw [ht.lookup] at hp hq
    exact h.single p q k hp hq
  · intro p k hp hk
    rw [ht.lookup] at hk
    have hki : k ≠ i := by
      rintro rfl
      have := hi p hk
      omega
    have hkj : k ≠ j := by
      rintro rfl
      have := hj p hk
      omega
    rw [ht.data k hki hkj]
    exact h.spare p k (by omega) hk
  · intro s hs
    rw [ht.fresh]
    exact h.handles s hs
  · intro s hs p hp
    rw [ht.lookup] at hp
    exact h.logs s hs p hp
  · intro s hs p hp
    rw [ht.lookup] at hp
    exact h.idxs s hs p hp

theorem pairwise_last {α : Type} {R : α → α → Prop} {xs : List α} {x : α} :
    (xs++[x]).Pairwise R ↔ xs.Pairwise R ∧ ∀ y ∈ xs, R y x := by
  rw [pairwise_append]
  simp

variable {held : List Held} {last : Held}

theorem appendEncoded_rep {cfg : Config} {cl cl' : CommitLog}
    {f : Frame} {b : RecordBatch} {r : Except Stop ℕ} (h : Rep cl held last)
    (hb : b.baseOffset = f.base) (hc : b.recordCount = f.count) (hf : f.base = cl.nextOffset)
    (ha : cl.appendEncoded cfg env f.bytes b = (cl',r)) :
    (∃ e, r = .error (.err e) ∧ cl' = cl) ∨
    (r = .ok f.base ∧ Disk.Touches last.1.logFile.ino last.1.index.file.ino cl.fs.disk cl'.fs.disk ∧
      ∃ s' hle, files s' = files last.1 ∧ Rep cl' held (s',last.2.push f hle)) := by
  simp only [CommitLog.appendEncoded, h.active] at ha
  rcases hx : last.1.append cfg env f.bytes b.baseOffset b.recordCount cl.fs with e | ⟨fs,s⟩
  · simp only [hx, Prod.mk.injEq] at ha
    refine .inl ?_
    unfold Segment.append at hx
    split at hx
    · cases hx
      exact ⟨_,ha.2.symm,ha.1.symm⟩
    · cases hx
  simp only [hx, Prod.mk.injEq] at ha
  obtain ⟨rfl,rfl⟩ := ha
  rw [hb, hc] at hx
  have hle : last.2.finish ≤ f.base := by rw [hf, h.next]
  obtain ⟨_,ht,hs⟩ := append_written h.live.written hx
  have hl := append_live hle h.live hx
  have hfiles : files s = files last.1 := by simp [files, hs.log, hs.idx, hs.base]
  have hstop := f.base_lt_stop
  have hbase : last.1.baseOffset < f.stop := by
    have := last.2.base_le_finish
    rw [h.live.base]
    omega
  have hmem : last.1 ∈ (held++[last]).map Prod.fst := by simp
  obtain ⟨ho1,ho2⟩ := (pairwise_last).mp h.ordered
  obtain ⟨ha1,ha2⟩ := (pairwise_last).mp h.apart
  refine .inr ⟨by rw [hb],ht,s,hle,hfiles,?_⟩
  refine ⟨?_,?_,?_,h.opened,hl,?_,?_,?_,?_,?_,?_⟩
  · simpa using h.update s hs.ptr
  · exact h.current.trans hs.ptr.symm
  · rw [hc, ← hf, Nat.mod_eq_of_lt f.bounded, Extent.push_finish]
    rfl
  · intro y hy
    refine (h.keeps y hy).transport (fun hne => ?_)
    have hap := ha2 y hy hne
    have hym : y.1 ∈ (held++[last]).map Prod.fst := by
      exact mem_map_of_mem (mem_append_left _ hy)
    exact ⟨ht.data _ hap.1 (h.tidy.kinds _ hym _ hmem),
      ht.data _ (Ne.symm (h.tidy.kinds _ hmem _ hym)) hap.2⟩
  · exact (pairwise_last).mpr ⟨ho1,ho2⟩
  · refine (pairwise_last).mpr ⟨ha1,fun y hy hne => ?_⟩
    have := ha2 y hy hne
    simpa [Apart, hs.log, hs.idx] using this
  · simpa [hs.ptr] using h.ptrs
  · simpa [hs.ptr, or_imp, forall_and, CommitLog.update] using h.allocated
  have hnext : cl.nextOffset ≤ (cl.nextOffset+b.recordCount)%2^64 ∧
      (cl.nextOffset+b.recordCount)%2^64 = f.stop := by
    rw [hc, ← hf, Nat.mod_eq_of_lt f.bounded]
    exact ⟨by omega,rfl⟩
  refine Tidy.congr (h.tidy.touch ht hnext.1 ?_ ?_) ?_
  · intro p hp
    rw [h.tidy.logs _ hmem p hp, hnext.2]
    exact hbase
  · intro p hp
    rw [h.tidy.idxs _ hmem p hp, hnext.2]
    exact hbase
  · simp [hfiles]

/-! ## Rolling -/

@[simp] theorem sealSegment_ptr (env : Env) (s : Segment) : (s.sealSegment env).ptr = s.ptr := by
  unfold Segment.sealSegment
  split
  · rfl
  · split <;> rfl

@[simp] theorem sealSegment_files (env : Env) (s : Segment) :
    files (s.sealSegment env) = files s := by
  unfold Segment.sealSegment
  split
  · rfl
  · split <;> rfl

@[simp] theorem sealSegment_index (env : Env) (s : Segment) :
    (s.sealSegment env).index = s.index := by
  unfold Segment.sealSegment
  split
  · rfl
  · split <;> rfl

@[simp] theorem sealSegment_next : (s.sealSegment env).nextOffset = s.nextOffset := by
  unfold Segment.sealSegment
  split
  · rfl
  · split <;> rfl

theorem apart_congr {s' t t' : Segment} (hs : files s = files s') (ht : files t = files t')
    (h : Apart s t) : Apart s' t' := by
  simp only [files, Prod.mk.injEq] at hs ht
  rw [Apart, ← hs.1, ← hs.2.1, ← ht.1, ← ht.2.1]
  exact h

theorem Tidy.start {d' : Disk Path} {ptr : ℕ}
    (h : Tidy d ss next) (hs : Started .main next ptr d d' s) : Tidy d' (ss++[s]) next := by
  have hsingle := hs.single h.named h.single
  have hlogs : ∀ t ∈ ss, ∀ p, d'.lookup p = some t.logFile.ino → p = ⟨.main,t.baseOffset,.log⟩ :=
    fun t ht p hp => h.logs t ht p (hs.back hp (h.handles t ht).1)
  have hidxs : ∀ t ∈ ss, ∀ p, d'.lookup p = some t.index.file.ino → p = ⟨.main,t.baseOffset,.idx⟩ :=
    fun t ht p hp => h.idxs t ht p (hs.back hp (h.handles t ht).2)
  refine ⟨hs.named h.named,hsingle,?_,?_,?_,?_,?_⟩
  · intro p i hp hl
    by_cases hi : i < d.fresh
    · rw [hs.data hi]
      exact h.spare p i hp (hs.back hl hi)
    by_cases hq : p.dir = .main ∧ p.base = next
    · obtain ⟨dir,base,ext⟩ := p
      obtain ⟨rfl,rfl⟩ := hq
      cases ext with
      | log =>
        rw [hs.logNamed] at hl
        rw [← Option.some.inj hl]
        exact hs.empty.1
      | idx =>
        rw [hs.idxNamed] at hl
        rw [← Option.some.inj hl]
        exact hs.empty.2
    · rw [hs.others p hq] at hl
      exact absurd (h.named p i hl) hi
  · intro t ht
    rcases mem_append.mp ht with ht | ht
    · exact ⟨lt_of_lt_of_le (h.handles t ht).1 hs.fresh,lt_of_lt_of_le (h.handles t ht).2 hs.fresh⟩
    · rw [mem_singleton.mp ht]
      exact hs.handles
  · intro t ht p hp
    rcases mem_append.mp ht with ht | ht
    · exact hlogs t ht p hp
    · rw [mem_singleton.mp ht] at hp ⊢
      rw [hs.base]
      exact hsingle _ _ _ hp hs.logNamed
  · intro t ht p hp
    rcases mem_append.mp ht with ht | ht
    · exact hidxs t ht p hp
    · rw [mem_singleton.mp ht] at hp ⊢
      rw [hs.base]
      exact hsingle _ _ _ hp hs.idxNamed
  intro t ht u hu he
  rcases mem_append.mp ht with ht | ht <;> rcases mem_append.mp hu with hu | hu
  · exact h.kinds t ht u hu he
  · rw [mem_singleton.mp hu] at he
    have := hlogs t ht _ (he ▸ hs.idxNamed)
    simp at this
  · rw [mem_singleton.mp ht] at he
    have := hidxs u hu _ (he ▸ hs.logNamed)
    simp at this
  · rw [mem_singleton.mp ht, mem_singleton.mp hu] at he
    exact hs.written.apart he

theorem Rep.unused {cl : CommitLog} (h : Rep cl held last) (lz4 : Lz4) (env : Env) : ∃ fs s,
      openSegment lz4 env .main cl.nextOffset cl.nextPtr cl.fs = (fs,.ok s) ∧
      Started .main cl.nextOffset cl.nextPtr cl.fs.disk fs.disk s := by
  refine openSegment_started lz4 env .main cl.nextOffset cl.nextPtr cl.fs h.tidy.named ?_ ?_
  · intro ext i hi
    exact h.tidy.spare _ i (le_refl _) hi
  · intro i hl hi
    have := h.tidy.single _ _ i hl hi
    simp at this

theorem roll_rep {lz4 : Lz4} {cfg : Config} {cl cl' : CommitLog}
    {r : Except Stop Unit} (h : Rep cl held last)
    (hr : cl.rollIfFull lz4 cfg env = (cl',r)) : r = .ok () ∧
      ((last.1.isFull cfg env = false ∧ cl' = cl) ∨
       (last.1.isFull cfg env = true ∧ cl'.nextOffset = cl.nextOffset ∧ ∃ s,
          Started .main cl.nextOffset cl.nextPtr cl.fs.disk cl'.fs.disk s ∧
          Rep cl' (held++[(last.1.sealSegment env,last.2)]) (s,Extent.empty cl.nextOffset))) := by
  simp only [CommitLog.rollIfFull, h.active] at hr
  split at hr
  · rename_i hfull
    obtain ⟨fs,s,ho,hs⟩ := h.unused lz4 env
    have hu := h.update (last.1.sealSegment env) (by simp)
    have ho' : openSegment lz4 env .main cl.nextOffset (cl.update (last.1.sealSegment env)).nextPtr
        (cl.update (last.1.sealSegment env)).fs = (fs,.ok s) := ho
    simp only [CommitLog.newSegment, ho', Prod.mk.injEq] at hr
    obtain ⟨rfl,rfl⟩ := hr
    refine ⟨rfl,.inr ⟨hfull,rfl,s,hs,?_⟩⟩
    have hmem : ∀ y ∈ held++[last], y.1 ∈ (held++[last]).map Prod.fst :=
      fun y hy => mem_map_of_mem hy
    have htr : ∀ y ∈ held++[last], Keeps fs.disk y.1 y.2 := by
      intro y hy
      refine (h.keeps_all y hy).transport (fun _ => ?_)
      have hh := h.tidy.handles y.1 (hmem y hy)
      exact ⟨hs.data hh.1,hs.data hh.2⟩
    have htidy := h.tidy.start hs
    have hfresh : ∀ y ∈ held++[last], y.2.frames ≠ [] → Apart y.1 s := by
      intro y hy hne
      have hlt := lt_of_lt_of_le (y.2.base_lt_finish hne) (h.finish_le_next y hy)
      rw [← (h.keeps_all y hy).base] at hlt
      have hm : y.1 ∈ (held++[last]).map Prod.fst++[s] := mem_append_left _ (hmem y hy)
      constructor
      · intro he
        have := htidy.logs y.1 hm _ (he ▸ hs.logNamed)
        simp only [ForgeSegment.Path.mk.injEq] at this
        omega
      intro he
      have := htidy.idxs y.1 hm _ (he ▸ hs.idxNamed)
      simp only [ForgeSegment.Path.mk.injEq] at this
      omega
    obtain ⟨ho1,ho2⟩ := (pairwise_last).mp h.ordered
    obtain ⟨ha1,ha2⟩ := (pairwise_last).mp h.apart
    refine ⟨?_,rfl,?_,h.opened,started_live hs,?_,?_,?_,?_,?_,?_⟩
    · simp [hu]
    · exact (Extent.finish_nil (Extent.empty cl.nextOffset) rfl).symm
    · intro y hy
      rcases mem_append.mp hy with hy | hy
      · exact htr y (mem_append_left _ hy)
      · rw [mem_singleton.mp hy]
        exact (htr last (by simp)).sealed env
    · refine (pairwise_last).mpr ⟨(pairwise_last).mpr ⟨ho1,ho2⟩,?_⟩
      intro y hy
      rcases mem_append.mp hy with hy | hy
      · exact h.finish_le_next y (mem_append_left _ hy)
      · rw [mem_singleton.mp hy]
        exact h.finish_le_next last (by simp)
    · refine (pairwise_last).mpr ⟨(pairwise_last).mpr ⟨ha1,?_⟩,?_⟩
      · intro y hy hne
        exact apart_congr rfl (sealSegment_files env last.1).symm (ha2 y hy hne)
      intro y hy hne
      rcases mem_append.mp hy with hy | hy
      · exact hfresh y (mem_append_left _ hy) hne
      · rw [mem_singleton.mp hy] at hne ⊢
        exact apart_congr (sealSegment_files env last.1).symm rfl (hfresh last (by simp) hne)
    · have hp := h.ptrs
      have hal := h.allocated
      simp only [map_append, map_cons, map_nil, sealSegment_ptr, hs.ptr] at hp ⊢
      rw [nodup_append]
      refine ⟨hp,by simp,?_⟩
      intro p hpm q hq he
      rw [mem_singleton.mp hq] at he
      have hpm' : p ∈ (held++[last]).map (fun y => y.1.ptr) := by simpa using hpm
      obtain ⟨y,hy,hyp⟩ := mem_map.mp hpm'
      have := hal y hy
      omega
    · intro y hy
      have hal := h.allocated
      simp only [CommitLog.update]
      rcases mem_append.mp hy with hy | hy
      · rcases mem_append.mp hy with hy | hy
        · exact lt_trans (hal y (mem_append_left _ hy)) (Nat.lt_succ_self _)
        · rw [mem_singleton.mp hy, sealSegment_ptr]
          exact lt_trans (hal last (by simp)) (Nat.lt_succ_self _)
      · rw [mem_singleton.mp hy, hs.ptr]
        exact Nat.lt_succ_self _
    · exact htidy.congr (by simp)
  · rename_i hfull
    simp only [Prod.mk.injEq] at hr
    exact ⟨hr.2.symm,.inl ⟨by simpa using hfull,hr.1.symm⟩⟩

end GoCommon.ForgeLogState
