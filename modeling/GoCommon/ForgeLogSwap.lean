import GoCommon.ForgeLogRemoval

/-!
# Replacing segments through the staging directory

The replacement is written beside the log, the replaced segments are removed
and the staged files take the names of the first of them. The log then
represents the new extent in the place of the old ones. An error while writing
leaves the log as it was.
-/

set_option autoImplicit false

namespace GoCommon.ForgeLogSwap
open List ByteWords FileDisk ForgeRecord ForgeIndex ForgeSegment ForgeFrames ForgeSegmentFiles
open ForgeRecovery ForgeExtents ForgeCommitLog ForgeLogState ForgeLogRemoval ForgeRewrite

/-! ## Writing the replacement -/

def writeOf (f : Frame) : Except Stop Write := .ok ⟨f.bytes,f.base,f.count⟩

variable {gone held : List Held} {base old : ℕ} {a : Extent} {p : Path} {last : Held} {s : Segment}
  {log : Bytes} {es : List IndexEntry}

theorem push_next {b : Extent} {f : Frame} {fs : List Frame} (hb : b.base = a.base)
    (h : a.frames = b.frames++f::fs) : b.finish ≤ f.base := by
  rcases eq_nil_or_concat b.frames with hn | ⟨gs,g,hg⟩
  · rw [b.finish_nil hn, hb]
    exact a.above f (by simp [h])
  rw [concat_eq_append] at hg
  have hs := a.sorted
  rw [h, pairwise_append] at hs
  rw [b.finish_last gs g hg]
  exact hs.2.2 g (by simp [hg]) f (by simp)

variable {cl : CommitLog} (lz4 : Lz4) (cfg : Config) (fs : Files) (env : Env)

theorem writeAll_live (dir : Dir) (a : Extent) (fs : List Frame)
    (b : Extent) (f f' : Files) (s s' : Segment) (r : Except Stop Unit) (hb : b.base = a.base)
    (ha : a.frames = b.frames++fs) (h : Live dir f.disk s b)
    (hw : writeAll cfg env (fs.map writeOf) f s = (f',s',r)) :
    Disk.Touches s.logFile.ino s.index.file.ino f.disk f'.disk ∧ files s' = files s ∧
    ((r = .ok () ∧ Live dir f'.disk s' a) ∨ ∃ e c, r = .error (.err e) ∧ Live dir f'.disk s' c) := by
  induction fs generalizing b f s with
  | nil =>
    obtain ⟨rfl,rfl,rfl⟩ := hw
    have he : b = a := by
      obtain ⟨_,_,_,_⟩ := a
      simp only [append_nil] at ha hb
      subst ha hb
      rfl
    exact ⟨Disk.Touches.refl,rfl,.inl ⟨rfl,he ▸ h⟩⟩
  | cons g fs ih =>
    simp only [map_cons, writeOf, writeAll] at hw
    rcases hx : s.append cfg env g.bytes g.base g.count f with e | ⟨f1,s1⟩
    · simp only [hx, Prod.mk.injEq] at hw
      obtain ⟨rfl,rfl,rfl⟩ := hw
      refine ⟨Disk.Touches.refl,rfl,.inr ?_⟩
      unfold Segment.append at hx
      split at hx
      · cases hx
        exact ⟨_,b,rfl,h⟩
      · cases hx
    simp only [hx] at hw
    have hle := push_next hb ha
    obtain ⟨_,ht,hs⟩ := append_written h.written hx
    have hl := append_live hle h hx
    have hf : files s1 = files s := by simp [files, hs.log, hs.idx, hs.base]
    obtain ⟨h1,h2,h3⟩ := ih (b.push g hle) f1 s1 hb (by simp [ha]) hl hw
    rw [hs.log, hs.idx] at h1
    exact ⟨ht.trans h1,h2.trans hf,h3⟩

/-! ## The staging directory -/

theorem lookup_unlinkAll {ps : List Path} {fs : Files} :
    (fs.unlinkAll ps).disk.lookup p = if p ∈ ps then none else fs.disk.lookup p := by
  induction ps generalizing fs with
  | nil => simp [Fs.unlinkAll]
  | cons q ps ih =>
    have h : fs.unlinkAll (q::ps) = (fs.unlink q).unlinkAll ps := rfl
    rw [h, ih, Fs.disk_unlink, Disk.lookup_unlink]
    by_cases hq : p = q <;> by_cases hp : p ∈ ps <;> simp [hq, hp]

theorem data_unlinkAll (ps : List Path) (fs : Files) :
    (fs.unlinkAll ps).disk.inodes = fs.disk.inodes ∧ (fs.unlinkAll ps).disk.fresh = fs.disk.fresh := by
  induction ps generalizing fs with
  | nil => exact ⟨rfl,rfl⟩
  | cons q ps ih =>
    exact ih _

theorem mem_stagedPaths (p : Path) :
    p ∈ stagedPaths fs ↔ p.dir = .staging ∧ fs.disk.lookup p ≠ none := by
  unfold stagedPaths
  rw [mem_filter]
  have hk : p ∈ fs.disk.names.keys ↔ fs.disk.lookup p ≠ none := by
    rw [← AList.mem_keys, Disk.lookup, ne_eq, AList.lookup_eq_none, not_not]
  rw [hk]
  simp [and_comm]

theorem removeStaging_lookup : (removeStaging fs).disk.lookup p =
    if p.dir = .staging then none else fs.disk.lookup p := by
  rw [removeStaging, lookup_unlinkAll]
  by_cases hd : p.dir = .staging
  · by_cases hl : fs.disk.lookup p = none
    · simp [hd, hl]
    · simp [mem_stagedPaths, hd, hl]
  · simp [mem_stagedPaths, hd]

theorem removeStaging_none (h : Unstaged fs.disk) : removeStaging fs = fs := by
  have hn : stagedPaths fs = [] := by
    rw [eq_nil_iff_forall_not_mem]
    intro p hp
    obtain ⟨hd,hl⟩ := (mem_stagedPaths fs p).mp hp
    exact hl (h p hd)
  rw [removeStaging, hn]
  rfl

/-- The log is represented over any disk that adds to it only files that are
named below the next offset or empty. -/
theorem rep_grow (h : Rep cl held last) (fs : Files) (hf : cl.fs.disk.fresh ≤ fs.disk.fresh)
    (hd : ∀ k, k < cl.fs.disk.fresh → fs.disk.data k = cl.fs.disk.data k)
    (hn : Fs.Named fs.disk) (hs : Fs.Single fs.disk)
    (hold : ∀ p i, fs.disk.lookup p = some i → cl.fs.disk.lookup p = some i ∨
      cl.fs.disk.fresh ≤ i ∧ (p.base < cl.nextOffset ∨ fs.disk.data i = [])) :
    Rep { cl with fs := fs } held last := by
  have hh := h.tidy.handles
  have hmem : ∀ y ∈ held++[last], y.1 ∈ (held++[last]).map Prod.fst :=
    fun y hy => mem_map_of_mem hy
  have hl := hh last.1 (hmem last (by simp))
  refine ⟨h.listed,h.current,h.next,h.opened,live_transport h.live (hd _ hl.1) (hd _ hl.2),?_,
    h.ordered,h.apart,h.ptrs,h.allocated,⟨hn,hs,?_,?_,?_,?_,h.tidy.kinds⟩⟩
  · intro y hy
    have hy' := hh y.1 (hmem y (mem_append_left _ hy))
    exact (h.keeps y hy).transport (fun _ => ⟨hd _ hy'.1,hd _ hy'.2⟩)
  · intro p i hp hi
    rcases hold p i hi with ho | ⟨_,hlt | he⟩
    · rw [hd i (h.tidy.named p i ho)]
      exact h.tidy.spare p i hp ho
    · dsimp only at hp
      omega
    · exact he
  · intro s hm
    exact ⟨lt_of_lt_of_le (hh s hm).1 hf,lt_of_lt_of_le (hh s hm).2 hf⟩
  · intro s hm p hp
    rcases hold p _ hp with ho | ⟨hge,_⟩
    · exact h.tidy.logs s hm p ho
    · exact absurd (hh s hm).1 (by omega)
  intro s hm p hp
  rcases hold p _ hp with ho | ⟨hge,_⟩
  · exact h.tidy.idxs s hm p ho
  · exact absurd (hh s hm).2 (by omega)

/-! ## Staged files beside a log -/

structure Grown (base : ℕ) (d d' : Disk Path) : Prop where
  fresh : d.fresh ≤ d'.fresh
  data : ∀ k, k < d.fresh → d'.data k = d.data k
  named : Fs.Named d'
  single : Fs.Single d'
  names : ∀ p i, d'.lookup p = some i → (p.dir = .main ∧ d.lookup p = some i) ∨
    (p.dir = .staging ∧ p.base = base ∧ d.fresh ≤ i)

variable {i j : ℕ} {pre post : List Held} {r : Except Stop Unit} {cl' : CommitLog} {d d' : Disk Path}

theorem started_fresh {ptr : ℕ} (hu : Unstaged d) (h : Started .staging base ptr d d' s) :
    d.fresh ≤ s.logFile.ino ∧ d.fresh ≤ s.index.file.ino := by
  obtain ⟨e,h1,h2⟩ := h.log
  constructor
  · rcases h1.origin with ho | ⟨_,ho,_⟩
    · rw [hu _ rfl] at ho
      cases ho
    · omega
  rcases h2.origin with ho | ⟨_,ho,_⟩
  · rw [h1.others _ (by simp), hu _ rfl] at ho
    cases ho
  · have := h1.fresh
    omega

theorem staged_grown {ptr : ℕ} {d d1 d2 : Disk Path} (hn : Fs.Named d)
    (hs : Fs.Single d) (hu : Unstaged d) (h : Started .staging base ptr d d1 s)
    (ht : Disk.Touches s.logFile.ino s.index.file.ino d1 d2) : Grown base d d2 := by
  obtain ⟨hl,hi⟩ := started_fresh hu h
  refine ⟨by rw [ht.fresh]; exact h.fresh,?_,?_,?_,?_⟩
  · intro k hk
    rw [ht.data k (by omega) (by omega), h.data hk]
  · intro p i hp
    rw [ht.lookup] at hp
    rw [ht.fresh]
    exact h.named hn p i hp
  · intro p q i hp hq
    rw [ht.lookup] at hp hq
    exact h.single hn hs p q i hp hq
  intro p i hp
  rw [ht.lookup] at hp
  by_cases hq : p.dir = .staging ∧ p.base = base
  · refine .inr ⟨hq.1,hq.2,?_⟩
    obtain ⟨dir,b,ext⟩ := p
    obtain ⟨rfl,rfl⟩ := hq
    cases ext with
    | log =>
      rw [h.logNamed] at hp
      rw [← Option.some.inj hp]
      exact hl
    | idx =>
      rw [h.idxNamed] at hp
      rw [← Option.some.inj hp]
      exact hi
  rw [h.others p hq] at hp
  refine .inl ⟨?_,hp⟩
  rcases hd : p.dir
  · rfl
  · rw [hu p hd] at hp
    cases hp

structure Beside (old base i j : ℕ) (log : Bytes) (es : List IndexEntry) (d : Disk Path) :
    Prop where
  logName : d.lookup ⟨.staging,base,.log⟩ = some i
  idxName : d.lookup ⟨.staging,base,.idx⟩ = some j
  staged : ∀ p k, d.lookup p = some k → p.dir = .staging → p.base = base
  main : ∀ p k, d.lookup p = some k → p.dir = .main → k < old
  logData : d.data i = log
  idxData : d.data j = putEntries es
  logBound : old ≤ i ∧ i < d.fresh
  idxBound : old ≤ j ∧ j < d.fresh
  apart : i ≠ j

theorem Beside.remove {env : Env} {fs : Files} (h : Beside old base i j log es fs.disk)
    (hk : Keeps fs.disk s a) (hs : s.index.file.ino < old) :
    Beside old base i j log es (s.remove env fs).disk := by
  have hi := h.logBound
  have hj := h.idxBound
  have hback : ∀ p k, (s.remove env fs).disk.lookup p = some k → fs.disk.lookup p = some k := by
    intro p k hp
    rw [remove_lookup hk] at hp
    split at hp
    · cases hp
    · exact hp
  refine ⟨?_,?_,fun p k hp => h.staged p k (hback p k hp),fun p k hp => h.main p k (hback p k hp),
    ?_,?_,by rw [remove_fresh]; exact hi,by rw [remove_fresh]; exact hj,h.apart⟩
  · rw [remove_lookup hk]
    exact h.logName
  · rw [remove_lookup hk]
    exact h.idxName
  · rw [remove_data hk i (by omega)]
    exact h.logData
  · rw [remove_data hk j (by omega)]
    exact h.idxData

def moved (base : ℕ) (fs : Files) : Files :=
  (fs.rename ⟨.staging,base,.log⟩ ⟨.main,base,.log⟩).rename ⟨.staging,base,.idx⟩ ⟨.main,base,.idx⟩

theorem moved_lookup {fs : Files}
    (h : Beside old base i j log es fs.disk) (p : Path) : (moved base fs).disk.lookup p =
      if p = ⟨.main,base,.idx⟩ then some j else if p = ⟨.main,base,.log⟩ then some i
      else if p.dir = .staging then none else fs.disk.lookup p := by
  have h1 : ∀ q, (fs.disk.rename ⟨.staging,base,.log⟩ ⟨.main,base,.log⟩).lookup q =
      if q = ⟨.main,base,.log⟩ then some i else if q = ⟨.staging,base,.log⟩ then none
      else fs.disk.lookup q := fun q => Disk.lookup_rename _ _ _ q i h.logName
  have h2 := Disk.lookup_rename (fs.disk.rename ⟨.staging,base,.log⟩ ⟨.main,base,.log⟩)
    ⟨.staging,base,.idx⟩ ⟨.main,base,.idx⟩ p j (by rw [h1]; simp [h.idxName])
  rw [moved, Fs.disk_rename, Fs.disk_rename, h2, h1]
  obtain ⟨dir,b,ext⟩ := p
  cases dir with
  | main => simp
  | staging =>
    by_cases hb : b = base
    · subst hb
      cases ext <;> simp
    · rcases hl : fs.disk.lookup ⟨.staging,b,ext⟩ with _ | k
      · simp
      · exact absurd (h.staged _ k hl rfl) hb

theorem moved_data {fs : Files} {k : ℕ} :
    (moved base fs).disk.data k = fs.disk.data k := by simp [moved]

theorem moved_fresh {fs : Files} : (moved base fs).disk.fresh = fs.disk.fresh := by
  simp [moved]

theorem moved_unstaged {fs : Files}
    (h : Beside old base i j log es fs.disk) : Unstaged (moved base fs).disk := by
  rintro ⟨dir,b,ext⟩ rfl
  rw [moved_lookup h]
  simp

theorem insert_between (s : Segment) (xs ys : List Segment)
    (hx : ∀ x ∈ xs, x.baseOffset < s.baseOffset) (hy : ∀ y ∈ ys, s.baseOffset ≤ y.baseOffset) :
    insertSegmentSorted s (xs++ys) = xs++s::ys := by
  induction xs with
  | nil =>
    cases ys with
    | nil => rfl
    | cons y ys =>
      have := hy y (by simp)
      rw [nil_append, insertSegmentSorted, if_neg (by omega), nil_append]
  | cons x xs ih =>
    rw [cons_append, insertSegmentSorted, if_pos (hx x (by simp)),
      ih (fun z hz => hx z (by simp [hz])), cons_append]

theorem pairwise_insert {α : Type} {R : α → α → Prop} {xs zs : List α} {y : α}
    (h : (xs++zs).Pairwise R) (hx : ∀ x ∈ xs, R x y) (hz : ∀ z ∈ zs, R y z) :
    (xs++y::zs).Pairwise R := by
  rw [pairwise_append] at h
  obtain ⟨h1,h2,h3⟩ := h
  refine pairwise_append.mpr ⟨h1,pairwise_cons.mpr ⟨hz,h2⟩,?_⟩
  intro x hxm z hzm
  rcases mem_cons.mp hzm with rfl | hzm
  · exact hx x hxm
  · exact h3 x hxm z hzm

/-! ## Inserting a segment -/

structure Placed (old base i j : ℕ) (d d' : Disk Path) : Prop where
  fresh : d'.fresh = d.fresh
  data : ∀ k, k < old → d'.data k = d.data k
  logName : d'.lookup ⟨.main,base,.log⟩ = some i
  idxName : d'.lookup ⟨.main,base,.idx⟩ = some j
  names : ∀ p k, d'.lookup p = some k → (p = ⟨.main,base,.log⟩ ∧ k = i) ∨
    (p = ⟨.main,base,.idx⟩ ∧ k = j) ∨ (k < old ∧ d.lookup p = some k)
  logBound : old ≤ i ∧ i < d.fresh
  idxBound : old ≤ j ∧ j < d.fresh
  apart : i ≠ j

theorem Placed.back (h : Placed old base i j d d')
    {k : ℕ} (hk : k < old) (hp : d'.lookup p = some k) : d.lookup p = some k := by
  have hi := h.logBound
  have hj := h.idxBound
  rcases h.names p k hp with ⟨_,hn⟩ | ⟨_,hn⟩ | ⟨_,hn⟩
  · omega
  · omega
  · exact hn

theorem tidy_place {i j next : ℕ} {ss ts : List Segment}
    (h : Tidy d ss next) (hp : Placed old base i j d d') (hb : base < next)
    (hold : ∀ s ∈ ss, s.logFile.ino < old ∧ s.index.file.ino < old)
    (ht : ∀ t ∈ ts, t ∈ ss ∨ files t = (i,j,base)) : Tidy d' ts next := by
  have hi := hp.logBound
  have hj := hp.idxBound
  refine ⟨?_,?_,?_,?_,?_,?_,?_⟩
  · intro p k hk
    rw [hp.fresh]
    rcases hp.names p k hk with ⟨_,rfl⟩ | ⟨_,rfl⟩ | ⟨_,hl⟩
    · omega
    · omega
    · exact h.named p k hl
  · intro p q k hk hq
    have hij := hp.apart
    rcases hp.names p k hk with ⟨rfl,h1⟩ | ⟨rfl,h1⟩ | ⟨h1,hl⟩ <;>
      rcases hp.names q k hq with ⟨rfl,h2⟩ | ⟨rfl,h2⟩ | ⟨h2,hm⟩ <;> first
      | rfl
      | omega
      | exact h.single p q k hl hm
  · intro p k hle hk
    rcases hp.names p k hk with ⟨rfl,_⟩ | ⟨rfl,_⟩ | ⟨hlt,hl⟩
    · dsimp only at hle
      omega
    · dsimp only at hle
      omega
    · rw [hp.data k hlt]
      exact h.spare p k hle hl
  · intro t htm
    rw [hp.fresh]
    rcases ht t htm with hs | hf
    · exact h.handles t hs
    · simp only [files, Prod.mk.injEq] at hf
      omega
  · intro t htm p hk
    rcases ht t htm with hs | hf
    · exact h.logs t hs p (hp.back (hold t hs).1 hk)
    simp only [files, Prod.mk.injEq] at hf
    have hij := hp.apart
    rw [hf.1] at hk
    rw [hf.2.2]
    rcases hp.names p i hk with ⟨hq,_⟩ | ⟨_,hq⟩ | ⟨hq,_⟩
    · exact hq
    · omega
    · omega
  · intro t htm p hk
    rcases ht t htm with hs | hf
    · exact h.idxs t hs p (hp.back (hold t hs).2 hk)
    simp only [files, Prod.mk.injEq] at hf
    have hij := hp.apart
    rw [hf.2.1] at hk
    rw [hf.2.2]
    rcases hp.names p j hk with ⟨_,hq⟩ | ⟨hq,_⟩ | ⟨hq,_⟩
    · omega
    · exact hq
    · omega
  intro t htm u hum he
  have hij := hp.apart
  rcases ht t htm with hs | hf <;> rcases ht u hum with hr | hg
  · exact h.kinds t hs u hr he
  · simp only [files, Prod.mk.injEq] at hg
    have := hold t hs
    omega
  · simp only [files, Prod.mk.injEq] at hf
    have := hold u hr
    omega
  · simp only [files, Prod.mk.injEq] at hf hg
    omega

theorem rep_insert {fs : Files}
    (h : Rep (withFiles cl last fs (pre++post)) (pre++post) last) {i j : ℕ} {fs' : Files}
    {kept : Extent} (hp : Placed old base i j fs.disk fs'.disk)
    (hold : ∀ y ∈ pre++post++[last], y.1.logFile.ino < old ∧ y.1.index.file.ino < old)
    (hk : Keeps fs'.disk s kept) (hf : files s = (i,j,base)) (hs : s.ptr = cl.nextPtr)
    (hb : base < cl.nextOffset) (hpre : ∀ y ∈ pre, y.2.finish ≤ kept.base)
    (hpost : ∀ z ∈ post++[last], kept.finish ≤ z.2.base) :
    Rep { cl with
      fs := fs'
      segments := (pre++(s,kept)::post++[last]).map Prod.fst
      nextPtr := cl.nextPtr+1 } (pre++(s,kept)::post) last := by
  have hi := hp.logBound
  have hj := hp.idxBound
  have hfiles : s.logFile.ino = i ∧ s.index.file.ino = j := by
    simp only [files, Prod.mk.injEq] at hf
    exact ⟨hf.1,hf.2.1⟩
  have hin : ∀ z, z ∈ pre++(s,kept)::post++[last] → z ∈ pre++post++[last] ∨ z = (s,kept) := by
    intro z hz
    simp only [mem_append, mem_cons] at hz ⊢
    tauto
  have hdata : ∀ z ∈ pre++post++[last], fs'.disk.data z.1.logFile.ino =
      fs.disk.data z.1.logFile.ino ∧ fs'.disk.data z.1.index.file.ino =
      fs.disk.data z.1.index.file.ino :=
    fun z hz => ⟨hp.data _ (hold z hz).1,hp.data _ (hold z hz).2⟩
  have hapart : ∀ z ∈ pre++post++[last], Apart z.1 s ∧ Apart s z.1 := by
    intro z hz
    have := hold z hz
    simp only [Apart]
    omega
  have hlast : last ∈ pre++post++[last] := by simp
  have hord : (pre++(s,kept)::(post++[last])).Pairwise (fun y z => y.2.finish ≤ z.2.base) :=
    pairwise_insert (by simpa using h.ordered) hpre hpost
  have hap : (pre++(s,kept)::(post++[last])).Pairwise
      (fun y z => y.2.frames ≠ [] → Apart y.1 z.1) := by
    refine pairwise_insert (by simpa using h.apart) ?_ ?_
    · exact fun y hy _ => (hapart y (by simp [hy])).1
    · exact fun z hz _ => (hapart z (by rw [append_assoc]; exact mem_append_right _ hz)).2
  refine ⟨rfl,h.current,h.next,h.opened,
    live_transport h.live (hdata last hlast).1 (hdata last hlast).2,?_,by simpa using hord,
    by simpa using hap,?_,?_,?_⟩
  · intro z hz
    rcases mem_append.mp hz with hz | hz
    · exact (h.keeps z (by simp [hz])).transport (fun _ => hdata z (by simp [hz]))
    · rcases mem_cons.mp hz with rfl | hz
      · exact hk
      · exact (h.keeps z (by simp [hz])).transport (fun _ => hdata z (by simp [hz]))
  · have hn := h.ptrs
    rw [append_assoc, map_append] at hn
    rw [append_assoc, map_append, cons_append, map_cons, nodup_middle,
      nodup_cons]
    refine ⟨?_,hn⟩
    rw [← map_append, mem_map]
    rintro ⟨z,hz,he⟩
    have hlt : z.1.ptr < cl.nextPtr := h.allocated z (by rw [append_assoc]; exact hz)
    dsimp only at he
    omega
  · intro z hz
    rcases hin z hz with hz | rfl
    · exact lt_trans (h.allocated z hz) (Nat.lt_succ_self _)
    · dsimp only
      omega
  refine tidy_place h.tidy hp hb ?_ ?_
  · intro t ht
    obtain ⟨z,hz,rfl⟩ := mem_map.mp ht
    exact hold z hz
  intro t ht
  obtain ⟨z,hz,rfl⟩ := mem_map.mp ht
  rcases hin z hz with hz | rfl
  · exact .inl (mem_map_of_mem hz)
  · exact .inr hf

/-! ## The swap -/

structure Replaced (lz4 : Lz4) (cl cl' : CommitLog) (pre gone post : List Held) (last : Held)
    (a : Extent) (fin : Segment) (kept : Extent) : Prop where
  rep : Rep cl' (pre++(fin,kept)::post) last
  unstaged : Unstaged cl'.fs.disk
  next : cl'.nextOffset = cl.nextOffset
  base : kept.base = a.base
  front : kept.frames <+: a.frames
  finish : kept.finish ≤ a.finish
  marked : fin.index.entries.Sublist (marks a.base 0 a.frames)
  whole : (∀ f ∈ a.frames, f.Readable lz4) → kept = a ∧ fin.nextOffset = a.finish
  logName : cl'.fs.disk.lookup ⟨.main,a.base,.log⟩ = some fin.logFile.ino
  idxName : cl'.fs.disk.lookup ⟨.main,a.base,.idx⟩ = some fin.index.file.ino
  names : ∀ p, p.dir = .main → p.base ≠ a.base → (∀ y ∈ gone, p.base ≠ y.2.base) →
    cl'.fs.disk.lookup p = cl.fs.disk.lookup p

structure Failed (cl cl' : CommitLog) (held : List Held) (last : Held) : Prop where
  rep : Rep cl' held last
  unstaged : Unstaged cl'.fs.disk
  next : cl'.nextOffset = cl.nextOffset
  names : ∀ p, p.dir = .main → cl'.fs.disk.lookup p = cl.fs.disk.lookup p
  data : ∀ k, k < cl.fs.disk.fresh → cl'.fs.disk.data k = cl.fs.disk.data k

def Returns {α : Type} (r : Except Stop α) : Prop := r ≠ .error .panic ∧ r ≠ .error .hang

structure Ends (r : Except Stop Unit) (done failed : Prop) : Prop where
  ok : r = .ok () → done
  err : ∀ e, r = .error (.err e) → failed

theorem Ends.of_done {done failed : Prop} (h : done) : Ends (.ok ()) done failed :=
  ⟨fun _ => h,fun e he => by cases he⟩

theorem Ends.imp {done done' failed failed' : Prop} (h : Ends r done failed)
    (h1 : done → done') (h2 : failed → failed') : Ends r done' failed' :=
  ⟨fun hr => h1 (h.ok hr),fun e hr => h2 (h.err e hr)⟩

theorem Ends.cases {done failed : Prop} (h : Ends r done failed)
    (hr : Returns r) : done ∨ failed := by
  rcases r with (e | _ | _) | _
  · exact .inr (h.err e rfl)
  · exact absurd rfl hr.1
  · exact absurd rfl hr.2
  · exact .inl (h.ok rfl)

structure Cleared (cl : CommitLog) (fs0 : Files) (gone : List Held) (last : Held)
    (old i j : ℕ) (a : Extent) (es : List IndexEntry) (fs : Files) (held : List Held) : Prop where
  rep : Rep (withFiles cl last fs held) held last
  beside : Beside old a.base i j (raw a.frames) es fs.disk
  handles : ∀ y ∈ held++[last], y.1.logFile.ino < old ∧ y.1.index.file.ino < old
  names : ∀ p, p.dir = .main → (∀ y ∈ gone, p.base ≠ y.2.base) →
    fs.disk.lookup p = fs0.disk.lookup p

theorem Cleared.remove {fs0 : Files} (env : Env) (fs : Files) (pre : List Held)
    {y : Held} (post : List Held) (hy : y ∈ gone)
    (h : Cleared cl fs0 gone last old i j a es fs (pre++y::post)) :
    Cleared cl fs0 gone last old i j a es (y.1.remove env fs) (pre++post) := by
  have hk : Keeps fs.disk y.1 y.2 := h.rep.keeps y (by simp)
  refine ⟨withFiles_step env cl h.rep,
    h.beside.remove hk (h.handles y (by simp)).2,?_,?_⟩
  · intro z hz
    refine h.handles z ?_
    simp only [mem_append, mem_cons] at hz ⊢
    tauto
  · intro p hp hg
    rw [remove_lookup hk, if_neg (fun hb => hg y hy hb.2)]
    exact h.names p hp hg

theorem swapSegment_error {gone : List Segment} {e : Err}
    (h : swapSegment lz4 env gone base cl = (cl',.error (.err e))) : False := by
  simp only [swapSegment] at h
  split at h
  · rename_i ho
    cases h
    exact absurd rfl (openSegment_error lz4 _ ho e)
  · cases h

theorem placed_of_moved {fs : Files} {d : Disk Path} (h : Beside old base i j log es fs.disk)
    (ht : Disk.Touches i j (moved base fs).disk d) : Placed old base i j fs.disk d := by
  have hi := h.logBound
  have hj := h.idxBound
  refine ⟨by rw [ht.fresh, moved_fresh],?_,?_,?_,?_,hi,hj,h.apart⟩
  · intro k hk
    rw [ht.data k (by omega) (by omega), moved_data]
  · rw [ht.lookup, moved_lookup h]
    simp
  · rw [ht.lookup, moved_lookup h]
    simp
  intro p k hp
  rw [ht.lookup, moved_lookup h] at hp
  split at hp
  · rename_i hq
    exact .inr (.inl ⟨hq,(Option.some.inj hp).symm⟩)
  split at hp
  · rename_i hq
    exact .inl ⟨hq,(Option.some.inj hp).symm⟩
  split at hp
  · cases hp
  rename_i hd
  refine .inr (.inr ⟨h.main p k hp ?_,hp⟩)
  rcases hq : p.dir
  · rfl
  · exact absurd hq hd

theorem insert_held (kept : Extent) (pre post : List Held) (last : Held) (hf : files s = (i,j,base))
    (hb : ∀ y ∈ pre++post++[last], y.1.baseOffset = y.2.base) (hpre : ∀ y ∈ pre, y.2.base < base)
    (hpost : ∀ z ∈ post++[last], base ≤ z.2.base) :
    insertSegmentSorted s ((pre++post++[last]).map Prod.fst) =
      (pre++(s,kept)::post++[last]).map Prod.fst := by
  simp only [files, Prod.mk.injEq] at hf
  have hi := insert_between s (pre.map Prod.fst) ((post++[last]).map Prod.fst)
    (by
      intro x hx
      obtain ⟨y,hy,rfl⟩ := mem_map.mp hx
      rw [hf.2.2, hb y (by simp [hy])]
      exact hpre y hy)
    (by
      intro x hx
      obtain ⟨z,hz,rfl⟩ := mem_map.mp hx
      rw [hf.2.2, hb z (by rw [append_assoc]; exact mem_append_right _ hz)]
      exact hpost z hz)
  rw [append_assoc, map_append, hi]
  simp

theorem base_lt_next (h : Rep cl held last)
    (hne : a.frames ≠ []) (hl : a.finish ≤ last.2.base) : a.base < cl.nextOffset := by
  have h1 := a.base_lt_finish hne
  have h2 := last.2.base_le_finish
  rw [h.next]
  omega

theorem swapSegment_replaced (h : Cleared cl cl.fs gone last old i j a es cl.fs (pre++gone++post))
    (hlisted : cl.segments = (pre++gone++post++[last]).map Prod.fst)
    (hsub : es.Sublist (marks a.base 0 a.frames)) (hsmall : (raw a.frames).length ≤ maxFileSize)
    (hne : a.frames ≠ []) (hpre : ∀ y ∈ pre, y.2.finish ≤ a.base ∧ y.2.base < a.base)
    (hpost : ∀ z ∈ post++[last], a.finish ≤ z.2.base)
    (hs : swapSegment lz4 env (gone.map Prod.fst) a.base cl = (cl',.ok ())) :
    ∃ fin kept, Replaced lz4 cl cl' pre gone post last a fin kept := by
  have hc := removeAll_rule env (fun fs pre y post hy => Cleared.remove env fs pre post hy)
    pre gone post cl.fs (fun y hy => hy) h
  have hkeep := filter_others h.rep.ptrs
  generalize hfs : (gone.map Prod.fst).foldl (fun fs s => s.remove env fs) cl.fs = fs2 at hc
  simp only [swapSegment, removeSegments, hlisted, hkeep, hfs] at hs
  rw [show ((fs2.rename ⟨.staging,a.base,.log⟩ ⟨.main,a.base,.log⟩).rename ⟨.staging,a.base,.idx⟩
    ⟨.main,a.base,.idx⟩) = moved a.base fs2 from rfl,
    removeStaging_none _ (moved_unstaged hc.beside)] at hs
  have hm := hc.beside
  have hlook := moved_lookup hm
  rcases ho : openSegment lz4 env .main a.base cl.nextPtr (moved a.base fs2) with ⟨fs3,e | s⟩
  · simp [ho] at hs
  simp only [ho, Prod.mk.injEq, and_true] at hs
  obtain ⟨kept,hre,hptr,hli,hii,hent,_⟩ := openSegment_reopened lz4 env cl.nextPtr i j
    (moved a.base fs2) fs3 s a es hm.apart (by rw [hlook]; simp) (by rw [hlook]; simp)
    (by rw [moved_data]; exact hm.logData) (by rw [moved_data]; exact hm.idxData) hsub hsmall ho
  have hbase := base_lt_next hc.rep hne (hpost last (by simp))
  have ht := hre.touches
  rw [hli, hii] at ht
  have hplace := placed_of_moved hm ht
  have hfiles : files (s.sealSegment env) = (i,j,a.base) := by
    rw [sealSegment_files, files, hli, hii, hre.keeps.base, hre.base]
  have hins : insertSegmentSorted (s.sealSegment env) ((pre++post++[last]).map Prod.fst) =
      (pre++(s.sealSegment env,kept)::post++[last]).map Prod.fst :=
    insert_held kept pre post last hfiles
      (fun y hy => (hc.rep.keeps_all y hy).base) (fun y hy => (hpre y hy).2)
      (fun z hz => le_trans (le_of_lt (a.base_lt_finish hne)) (hpost z hz))
  rw [hins] at hs
  subst hs
  refine ⟨s.sealSegment env,kept,rep_insert hc.rep hplace hc.handles
    (hre.keeps.sealed env) hfiles (by rw [sealSegment_ptr, hptr]) hbase
    (fun y hy => by rw [hre.base]; exact (hpre y hy).1)
    (fun z hz => le_trans hre.finish (hpost z hz)),?_,rfl,hre.base,hre.front,hre.finish,?_,?_,?_,?_,?_⟩
  · rintro p hp
    rw [ht.lookup]
    exact moved_unstaged hm p hp
  · rw [sealSegment_index, hent]
    exact hsub
  · rw [sealSegment_next]
    exact hre.whole
  · rw [hplace.logName]
    simpa [files] using congrArg (fun x => some x.1) hfiles.symm
  · rw [hplace.idxName]
    simpa [files] using congrArg (fun x => some x.2.1) hfiles.symm
  intro p hp hpb hg
  rw [ht.lookup, hlook, if_neg (by rintro rfl; exact hpb rfl), if_neg (by rintro rfl; exact hpb rfl),
    if_neg (by rw [hp]; simp)]
  exact hc.names p hp hg

/-! ## Staging arbitrary bytes -/

theorem close_staged {fs1 fs2 : Files}
    {s1 s2 : Segment} (env : Env) (h : Rep cl held last) (hu : Unstaged cl.fs.disk)
    (hbase : base < cl.nextOffset) (hst : Started .staging base cl.nextPtr cl.fs.disk fs1.disk s1)
    (hwr : Written .staging fs2.disk s2 log)
    (ht : Disk.Touches s1.logFile.ino s1.index.file.ino fs1.disk fs2.disk)
    (hf : files s2 = files s1) : Grown base cl.fs.disk (s2.close env fs2).disk ∧
      Rep { cl with fs := s2.close env fs2 } held last ∧
      Beside cl.fs.disk.fresh base s1.logFile.ino s1.index.file.ino log s2.index.entries
        (s2.close env fs2).disk ∧
      ∀ p, p.dir = .main → (s2.close env fs2).disk.lookup p = cl.fs.disk.lookup p := by
  have hf' : s2.logFile.ino = s1.logFile.ino ∧ s2.index.file.ino = s1.index.file.ino := by
    simp only [files, Prod.mk.injEq] at hf
    exact ⟨hf.1,hf.2.1⟩
  have htc : Disk.Touches s1.logFile.ino s1.index.file.ino fs1.disk (s2.close env fs2).disk :=
    ht.trans (hf'.2 ▸ close_touches env fs2 s2 s1.logFile.ino)
  have hg := staged_grown h.tidy.named h.tidy.single hu hst htc
  obtain ⟨hci,hcl,_⟩ := close_written env .staging fs2 s2 _ hwr
  rw [hf'.1] at hcl
  rw [hf'.2] at hci
  obtain ⟨hb1,hb2⟩ := started_fresh hu hst
  have hb3 := hst.handles
  refine ⟨hg,rep_grow h _ hg.fresh hg.data hg.named hg.single ?_,
    ⟨by rw [htc.lookup]; exact hst.logNamed,by rw [htc.lookup]; exact hst.idxNamed,?_,?_,hcl,hci,
      ⟨hb1,by rw [htc.fresh]; exact hb3.1⟩,⟨hb2,by rw [htc.fresh]; exact hb3.2⟩,
      hst.written.apart⟩,?_⟩
  · intro p i hp
    rcases hg.names p i hp with ⟨_,hl⟩ | ⟨_,hb,hl⟩
    · exact .inl hl
    · exact .inr ⟨hl,.inl (by omega)⟩
  · intro p k hp hd
    rcases hg.names p k hp with ⟨hm,_⟩ | ⟨_,hb,_⟩
    · rw [hm] at hd
      cases hd
    · exact hb
  · intro p k hp hd
    rcases hg.names p k hp with ⟨_,hl⟩ | ⟨hm,_⟩
    · exact h.tidy.named p k hl
    · rw [hm] at hd
      cases hd
  · intro p hp
    rw [htc.lookup, hst.others p (by rw [hp]; simp)]

theorem removeAll_beside (env : Env)
    (h : Rep cl (pre++gone++post) last) (hb : Beside old base i j log es cl.fs.disk)
    (hh : ∀ y ∈ pre++gone++post, y.1.index.file.ino < old) :
    Beside old base i j log es ((gone.map Prod.fst).foldl (fun fs s => s.remove env fs) cl.fs).disk := by
  have hstep : ∀ fs pre y post, True → (Rep (withFiles cl last fs (pre++y::post)) (pre++y::post) last ∧
      Beside old base i j log es fs.disk ∧ ∀ z ∈ pre++y::post, z.1.index.file.ino < old) →
      (Rep (withFiles cl last (y.1.remove env fs) (pre++post)) (pre++post) last ∧
      Beside old base i j log es (y.1.remove env fs).disk ∧
      ∀ z ∈ pre++post, z.1.index.file.ino < old) := by
    rintro fs pre y post _ ⟨h1,h2,h3⟩
    refine ⟨withFiles_step env cl h1,
      h2.remove (h1.keeps y (by simp)) (h3 y (by simp)),fun z hz => h3 z ?_⟩
    simp only [mem_append, mem_cons] at hz ⊢
    tauto
  have hrule := removeAll_rule (G := fun _ => True)
    (I := fun fs held => Rep (withFiles cl last fs held) held last ∧
      Beside old base i j log es fs.disk ∧ ∀ z ∈ held, z.1.index.file.ino < old)
    env hstep pre gone post cl.fs (fun _ _ => trivial)
    ⟨by rw [withFiles_self cl last h.listed]; exact h,hb,hh⟩
  exact hrule.2.1

/-- Whatever has been written to the staged segment is what the final segment
is opened over. -/
theorem stageAndSwap_opens (cl : CommitLog)
    (pre gone post : List Held) (last : Held) (base : ℕ) (ws : List (Except Stop Write))
    (fs1 fs2 : Files) (s1 s2 : Segment) (log : Bytes) (h : Rep cl (pre++gone++post) last)
    (hu : Unstaged cl.fs.disk) (hbase : base < cl.nextOffset)
    (ho : openSegment lz4 env .staging base cl.nextPtr cl.fs = (fs1,.ok s1))
    (hst : Started .staging base cl.nextPtr cl.fs.disk fs1.disk s1)
    (hw : writeAll cfg env ws fs1 s1 = (fs2,s2,.ok ()))
    (hwr : Written .staging fs2.disk s2 log)
    (ht : Disk.Touches s1.logFile.ino s1.index.file.ino fs1.disk fs2.disk)
    (hf : files s2 = files s1) : ∃ fs3 : Files,
      fs3.disk.lookup ⟨.main,base,.log⟩ = some s1.logFile.ino ∧
      fs3.disk.lookup ⟨.main,base,.idx⟩ = some s1.index.file.ino ∧
      fs3.disk.data s1.logFile.ino = log ∧
      fs3.disk.data s1.index.file.ino = putEntries s2.index.entries ∧
      stageAndSwapSegment lz4 cfg env (gone.map Prod.fst) base ws cl =
        match openSegment lz4 env .main base (cl.nextPtr+1) fs3 with
        | (fs,.error e) => ({ cl with
            fs := fs
            segments := (pre++post++[last]).map Prod.fst
            nextPtr := cl.nextPtr+1 },.error e)
        | (fs,.ok s) => ({ cl with
            fs := fs
            segments := insertSegmentSorted (s.sealSegment env) ((pre++post++[last]).map Prod.fst)
            nextPtr := cl.nextPtr+2 },.ok ()) := by
  obtain ⟨_,hrep,hbeside,_⟩ := close_staged env h hu hbase hst hwr ht hf
  have hgone := removeAll_beside env hrep hbeside
    (fun y hy => (h.tidy.handles y.1 (mem_map_of_mem (mem_append_left _ hy))).2)
  refine ⟨moved base ((gone.map Prod.fst).foldl (fun fs s => s.remove env fs) (s2.close env fs2)),
    ?_,?_,?_,?_,?_⟩
  · rw [moved_lookup hgone]
    simp
  · rw [moved_lookup hgone]
    simp
  · rw [moved_data]
    exact hgone.logData
  · rw [moved_data]
    exact hgone.idxData
  simp only [stageAndSwapSegment, ho, hw, swapSegment, removeSegments, h.listed,
    filter_others h.ptrs]
  rewrite [show ∀ fs : Files, ((fs.rename ⟨.staging,base,.log⟩ ⟨.main,base,.log⟩).rename
    ⟨.staging,base,.idx⟩ ⟨.main,base,.idx⟩) = moved base fs from fun _ => rfl,
    removeStaging_none _ (moved_unstaged hgone)]
  rfl

theorem stageAndSwap_rep (pre : List Held) (post : List Held) (last : Held)
    (h : Rep cl (pre++gone++post) last) (hu : Unstaged cl.fs.disk) (hne : a.frames ≠ [])
    (hpre : ∀ y ∈ pre, y.2.finish ≤ a.base ∧ y.2.base < a.base)
    (hpost : ∀ z ∈ post++[last], a.finish ≤ z.2.base)
    (hs : stageAndSwapSegment lz4 cfg env (gone.map Prod.fst) a.base (a.frames.map writeOf) cl =
      (cl',r)) :
    Ends r (∃ fin kept, Replaced lz4 cl cl' pre gone post last a fin kept)
      (Failed cl cl' (pre++gone++post) last) := by
  have hbase := base_lt_next h hne (hpost last (by simp))
  obtain ⟨fs1,s1,ho,hst⟩ := openSegment_started lz4 env .staging a.base cl.nextPtr cl.fs
    h.tidy.named (fun ext i hi => by rw [hu _ rfl] at hi; cases hi)
    (fun i hi => by rw [hu _ rfl] at hi; cases hi)
  rcases hw : writeAll cfg env (a.frames.map writeOf) fs1 s1 with ⟨fs2,s2,r2⟩
  obtain ⟨ht,hf,hout⟩ := writeAll_live cfg env .staging a a.frames (Extent.empty a.base) fs1 fs2
    s1 s2 r2 rfl rfl (started_live hst) hw
  simp only [stageAndSwapSegment, ho, hw] at hs
  rcases hout with ⟨rfl,hlive⟩ | ⟨e,c,rfl,hlive⟩
  · obtain ⟨_,hrep,hbeside,hmain⟩ := close_staged env h hu hbase hst hlive.written ht hf
    refine ⟨?_,fun e hr => (swapSegment_error lz4 env (hr ▸ hs)).elim⟩
    rintro rfl
    have hcl1 : Rep { cl with fs := s2.close env fs2, nextPtr := cl.nextPtr+1 }
        (pre++gone++post) last :=
      ⟨hrep.listed,hrep.current,hrep.next,hrep.opened,hrep.live,hrep.keeps,hrep.ordered,hrep.apart,
        hrep.ptrs,fun y hy => lt_trans (hrep.allocated y hy) (Nat.lt_succ_self _),hrep.tidy⟩
    have hcleared : Cleared { cl with fs := s2.close env fs2, nextPtr := cl.nextPtr+1 }
        (s2.close env fs2) gone last cl.fs.disk.fresh s1.logFile.ino s1.index.file.ino a
        s2.index.entries (s2.close env fs2) (pre++gone++post) := by
      refine ⟨?_,hbeside,fun y hy => h.tidy.handles y.1 (mem_map_of_mem hy),fun p _ _ => rfl⟩
      have := withFiles_self _ _ hcl1.listed
      rw [this]
      exact hcl1
    obtain ⟨fin,kept,hr⟩ := swapSegment_replaced lz4 env
      hcleared h.listed hlive.indexed hlive.written.small hne hpre hpost hs
    refine ⟨fin,kept,hr.rep,hr.unstaged,hr.next,hr.base,hr.front,hr.finish,hr.marked,hr.whole,
      hr.logName,hr.idxName,?_⟩
    intro p hp hb hgone
    rw [hr.names p hp hb hgone]
    exact hmain p hp
  obtain ⟨hg,_,_,hmain⟩ := close_staged env h hu hbase hst hlive.written ht hf
  simp only [Prod.mk.injEq] at hs
  obtain ⟨rfl,rfl⟩ := hs
  have hun : Unstaged (removeStaging (s2.close env fs2)).disk := by
    intro p hp
    rw [removeStaging_lookup, if_pos hp]
  have hsame := data_unlinkAll (stagedPaths (s2.close env fs2)) (s2.close env fs2)
  have hlook : ∀ p i, (removeStaging (s2.close env fs2)).disk.lookup p = some i →
      p.dir = .main ∧ cl.fs.disk.lookup p = some i := by
    intro p i hp
    rw [removeStaging_lookup] at hp
    split at hp
    · cases hp
    · rcases hg.names p i hp with hl | ⟨hd,_⟩
      · exact hl
      · contradiction
  have hdata : ∀ k, k < cl.fs.disk.fresh →
      (removeStaging (s2.close env fs2)).disk.data k = cl.fs.disk.data k := by
    intro k hk
    rw [removeStaging, Disk.data, hsame.1]
    exact hg.data k hk
  refine ⟨by simp,fun _ _ => ⟨rep_grow h (removeStaging (s2.close env fs2)) ?_ hdata
    ?_ ?_ ?_,hun,rfl,?_,hdata⟩⟩
  · rw [removeStaging, hsame.2]
    exact hg.fresh
  · intro p i hp
    rw [removeStaging, hsame.2]
    exact lt_of_lt_of_le (h.tidy.named p i (hlook p i hp).2) hg.fresh
  · exact fun p q i hp hq => h.tidy.single p q i (hlook p i hp).2 (hlook q i hq).2
  · exact fun p i hp => .inl (hlook p i hp).2
  intro p hp
  dsimp only
  rw [removeStaging_lookup, if_neg (by rw [hp]; simp)]
  exact hmain p hp

end GoCommon.ForgeLogSwap
