import GoCommon.ForgeSegment

/-!
# The files of a segment that is being written

The log file holds the bytes written so far and the index file holds the
entries up to the last flush. Appending, flushing and closing keep this and
touch no other file. Opening a segment over absent or empty files starts it.
-/

set_option autoImplicit false

namespace GoCommon.ForgeSegmentFiles
open List ByteWords FileDisk ForgeRecord ForgeIndex ForgeSegment

structure Flushed (d : Disk Path) (idx : Index Path) : Prop where
  data : d.data idx.file.ino = putEntries (idx.entries.take idx.dirtyFrom)
  dirty : idx.dirtyFrom ≤ idx.entries.length
  position : idx.file.pos = 12*idx.dirtyFrom

theorem sync_flushed (t : ℤ) (fs : Files) (idx : Index Path) (h : Flushed fs.disk idx) :
    (idx.sync t fs).2.entries = idx.entries ∧ (idx.sync t fs).2.baseOffset = idx.baseOffset ∧
    (idx.sync t fs).2.file.ino = idx.file.ino ∧ (idx.sync t fs).2.file.name = idx.file.name ∧
    (idx.sync t fs).2.dirtyFrom = idx.entries.length ∧
    Flushed (idx.sync t fs).1.disk (idx.sync t fs).2 ∧
    ∀ i, Disk.Touches i idx.file.ino fs.disk (idx.sync t fs).1.disk := by
  have hd := h.dirty
  unfold Index.sync
  split
  · rename_i hn
    have hl := drop_eq_nil_iff.mp hn
    exact ⟨rfl,rfl,rfl,rfl,by dsimp only; omega,h,fun i => Disk.Touches.refl⟩
  refine ⟨rfl,rfl,rfl,rfl,rfl,⟨?_,le_refl _,?_⟩,fun i => Disk.touches_put_right⟩
  · have hl : 12*idx.dirtyFrom = (putEntries (idx.entries.take idx.dirtyFrom)).length := by
      simp [hd]
    rw [Fs.disk_write, Disk.data_put_self, h.position, h.data, hl, overwrite_end,
      ← putEntries_append, take_append_drop, take_length]
  · simp only [putEntries_length, length_drop]
    rw [h.position]
    omega

structure Written (dir : Dir) (d : Disk Path) (s : Segment) (log : Bytes) : Prop where
  logName : s.logFile.name = ⟨dir,s.baseOffset,.log⟩
  idxName : s.index.file.name = ⟨dir,s.baseOffset,.idx⟩
  idxBase : s.index.baseOffset = s.baseOffset
  data : d.data s.logFile.ino = log
  size : s.size = log.length
  small : log.length ≤ maxFileSize
  apart : s.logFile.ino ≠ s.index.file.ino
  flushed : Flushed d s.index
  ranged : ∀ e ∈ s.index.entries, InRange e
  unmapped : s.mmapData = none

def indexedAfter (cfg : Config) (s : Segment) (baseOffset : ℕ) : List IndexEntry :=
  if s.indexDue cfg then s.index.entries++[entry s.baseOffset baseOffset s.size]
  else s.index.entries

structure Appended (cfg : Config) (s s' : Segment) (baseOffset recordCount : ℕ) : Prop where
  ptr : s'.ptr = s.ptr
  base : s'.baseOffset = s.baseOffset
  created : s'.created = s.created
  log : s'.logFile = s.logFile
  idx : s'.index.file.ino = s.index.file.ino
  entries : s'.index.entries = indexedAfter cfg s baseOffset
  next : s'.nextOffset = (baseOffset+recordCount)%2^64

theorem wrote_index (cfg : Config) {s : Segment} (n baseOffset recordCount : ℕ)
    (hb : s.index.baseOffset = s.baseOffset) :
    (s.wrote cfg n baseOffset recordCount).index =
      { s.index with entries := indexedAfter cfg s baseOffset } := by
  simp only [Segment.wrote, indexedAfter]
  split
  · simp [Index.append, hb]
  · rfl

theorem wrote_written (cfg : Config) (t : ℤ) {dir : Dir} {fs : Files} {s : Segment}
    {log : Bytes} (encoded : Bytes) (baseOffset recordCount : ℕ) (h : Written dir fs.disk s log)
    (hs : log.length+encoded.length ≤ maxFileSize) :
    Written dir (fs.append s.logFile.ino encoded t).disk
      (s.wrote cfg encoded.length baseOffset recordCount) (log++encoded) := by
  have hi := wrote_index cfg encoded.length baseOffset recordCount h.idxBase
  have hm : maxFileSize = 2^63-1 := rfl
  have hf := h.flushed.dirty
  have hlen : s.index.entries.length ≤ (indexedAfter cfg s baseOffset).length := by
    unfold indexedAfter
    split <;> simp
  refine ⟨h.logName,?_,?_,?_,?_,by simpa using hs,?_,⟨?_,?_,?_⟩,?_,h.unmapped⟩
  · rw [hi]
    exact h.idxName
  · rw [hi]
    exact h.idxBase
  · simp [Segment.wrote, h.data]
  · simp [Segment.wrote, h.size]
  · rw [hi]
    exact h.apart
  · rw [hi, Fs.disk_append, Disk.data_put_other _ _ (Ne.symm h.apart), h.flushed.data]
    unfold indexedAfter
    split
    · rw [take_append_of_le_length hf]
    · rfl
  · rw [hi]
    exact le_trans hf hlen
  · rw [hi]
    exact h.flushed.position
  rw [hi]
  intro e he
  simp only [indexedAfter] at he
  split at he
  · rcases mem_append.mp he with he | he
    · exact h.ranged e he
    · rw [mem_singleton.mp he]
      have hz := h.size
      exact ⟨Nat.mod_lt _ (by norm_num),by simp only [entry]; omega⟩
  · exact h.ranged e he

theorem syncDue_written (cfg : Config) (env : Env) {dir : Dir} {fs : Files} {s : Segment}
    {log : Bytes} (h : Written dir fs.disk s log) :
    Written dir (s.syncDue cfg env fs).1.disk (s.syncDue cfg env fs).2 log ∧
    Disk.Touches s.logFile.ino s.index.file.ino fs.disk (s.syncDue cfg env fs).1.disk ∧
    (s.syncDue cfg env fs).2.index.entries = s.index.entries ∧
    (s.syncDue cfg env fs).2.index.file.ino = s.index.file.ino := by
  unfold Segment.syncDue
  split
  · obtain ⟨he,hb,hi,hn,_,hf,ht⟩ := sync_flushed env.written fs s.index h.flushed
    refine ⟨⟨h.logName,hn.trans h.idxName,hb.trans h.idxBase,?_,h.size,h.small,?_,hf,?_,
      h.unmapped⟩,ht _,he,hi⟩
    · rw [(ht (s.index.file.ino)).data _ h.apart h.apart]
      exact h.data
    · rw [hi]
      exact h.apart
    · rw [he]
      exact h.ranged
  · exact ⟨h,Disk.Touches.refl,rfl,rfl⟩

theorem append_written {cfg : Config} {env : Env} {dir : Dir} {fs fs' : Files} {s s' : Segment}
    {log encoded : Bytes} {baseOffset recordCount : ℕ} (h : Written dir fs.disk s log)
    (ha : s.append cfg env encoded baseOffset recordCount fs = .ok (fs',s')) :
    Written dir fs'.disk s' (log++encoded) ∧
    Disk.Touches s.logFile.ino s.index.file.ino fs.disk fs'.disk ∧
    Appended cfg s s' baseOffset recordCount := by
  unfold Segment.append at ha
  split at ha
  · cases ha
  rename_i hs
  rw [h.size] at hs
  have hw := wrote_written cfg env.written encoded baseOffset recordCount h (by omega)
  have hi := wrote_index cfg encoded.length baseOffset recordCount h.idxBase
  obtain ⟨h1,h2,h3,h4⟩ := syncDue_written cfg env hw
  have hz := Except.ok.inj ha
  rw [hz] at h1 h2 h3 h4
  rw [hi] at h2 h3 h4
  refine ⟨h1,(Disk.touches_put_left).trans h2,?_⟩
  have hfields : ∀ r : Files × Segment, (s.wrote cfg encoded.length baseOffset recordCount).syncDue
      cfg env (fs.append s.logFile.ino encoded env.written) = r → r.2.ptr = s.ptr ∧
      r.2.baseOffset = s.baseOffset ∧ r.2.created = s.created ∧ r.2.logFile = s.logFile ∧
      r.2.nextOffset = (baseOffset+recordCount)%2^64 := by
    rintro r rfl
    unfold Segment.syncDue
    split <;> exact ⟨rfl,rfl,rfl,rfl,rfl⟩
  obtain ⟨f1,f2,f3,f4,f5⟩ := hfields _ hz
  exact ⟨f1,f2,f3,f4,h4,h3,f5⟩

theorem close_written (env : Env) (dir : Dir) (fs : Files) (s : Segment) (log : Bytes)
    (h : Written dir fs.disk s log) :
    (s.close env fs).disk.data s.index.file.ino = putEntries s.index.entries ∧
    (s.close env fs).disk.data s.logFile.ino = log ∧
    Disk.Touches s.logFile.ino s.index.file.ino fs.disk (s.close env fs).disk := by
  obtain ⟨he,_,hi,_,hd,hf,ht⟩ := sync_flushed env.written fs s.index h.flushed
  refine ⟨?_,?_,ht _⟩
  · have := hf.data
    rwa [hi, hd, he, take_length] at this
  · rw [Segment.close, Index.close, (ht (s.index.file.ino)).data _ h.apart h.apart, h.data]

/-! ## Opening -/

structure Started (dir : Dir) (baseOffset ptr : ℕ) (d d' : Disk Path) (s : Segment) : Prop where
  written : Written dir d' s []
  ptr : s.ptr = ptr
  base : s.baseOffset = baseOffset
  entries : s.index.entries = []
  next : s.nextOffset = baseOffset
  log : ∃ e, Fs.Opened ⟨dir,baseOffset,.log⟩ d e s.logFile.ino ∧
    Fs.Opened ⟨dir,baseOffset,.idx⟩ e d' s.index.file.ino

def Unused (dir : Dir) (baseOffset : ℕ) (d : Disk Path) : Prop :=
  ∀ ext i, d.lookup ⟨dir,baseOffset,ext⟩ = some i → d.data i = []

section Started
variable {dir : Dir} {baseOffset ptr : ℕ} {d d' : Disk Path} {s : Segment}
  (h : Started dir baseOffset ptr d d' s)
include h

theorem Started.data {k : ℕ} (hk : k < d.fresh) : d'.data k = d.data k := by
  obtain ⟨e,h1,h2⟩ := h.log
  rw [h2.data k (lt_of_lt_of_le hk h1.fresh), h1.data k hk]

theorem Started.fresh : d.fresh ≤ d'.fresh := by
  obtain ⟨e,h1,h2⟩ := h.log
  exact le_trans h1.fresh h2.fresh

theorem Started.logNamed : d'.lookup ⟨dir,baseOffset,.log⟩ = some s.logFile.ino := by
  obtain ⟨e,h1,h2⟩ := h.log
  exact (h2.others _ (by simp)).trans h1.named

theorem Started.idxNamed : d'.lookup ⟨dir,baseOffset,.idx⟩ = some s.index.file.ino := by
  obtain ⟨e,h1,h2⟩ := h.log
  exact h2.named

theorem Started.handles : s.logFile.ino < d'.fresh ∧ s.index.file.ino < d'.fresh := by
  obtain ⟨e,h1,h2⟩ := h.log
  exact ⟨lt_of_lt_of_le h1.bound h2.fresh,h2.bound⟩

theorem Started.others (p : Path) (hp : ¬ (p.dir = dir ∧ p.base = baseOffset)) :
    d'.lookup p = d.lookup p := by
  obtain ⟨e,h1,h2⟩ := h.log
  rw [h2.others p (by rintro rfl; exact hp ⟨rfl,rfl⟩), h1.others p (by rintro rfl; exact hp ⟨rfl,rfl⟩)]

theorem Started.back {p : Path} {i : ℕ} (hp : d'.lookup p = some i) (hi : i < d.fresh) :
    d.lookup p = some i := by
  obtain ⟨e,h1,h2⟩ := h.log
  exact h1.back (h2.back hp (lt_of_lt_of_le hi h1.fresh)) hi

theorem Started.named (hn : Fs.Named d) : Fs.Named d' := by
  obtain ⟨e,h1,h2⟩ := h.log
  exact h2.stays_named (h1.stays_named hn)

theorem Started.single (hn : Fs.Named d) (hs : Fs.Single d) : Fs.Single d' := by
  obtain ⟨e,h1,h2⟩ := h.log
  exact h2.stays_single (h1.stays_named hn) (h1.stays_single hn hs)

theorem Started.empty : d'.data s.logFile.ino = [] ∧ d'.data s.index.file.ino = [] := by
  refine ⟨h.written.data,?_⟩
  rw [h.written.flushed.data, h.entries, take_nil]
  rfl

end Started

theorem openSegment_started (lz4 : Lz4) (env : Env) (dir : Dir) (baseOffset ptr : ℕ) (fs : Files)
    (hn : Fs.Named fs.disk) (hu : Unused dir baseOffset fs.disk)
    (ha : ∀ i, fs.disk.lookup ⟨dir,baseOffset,.log⟩ = some i →
      fs.disk.lookup ⟨dir,baseOffset,.idx⟩ ≠ some i) :
    ∃ fs' s, openSegment lz4 env dir baseOffset ptr fs = (fs',.ok s) ∧
      Started dir baseOffset ptr fs.disk fs'.disk s := by
  have h1 := Fs.openFile_opened ⟨dir,baseOffset,.log⟩ env.opened hn
  rcases hx : fs.openFile ⟨dir,baseOffset,.log⟩ env.opened with ⟨e,i⟩
  rw [hx] at h1
  have h2 := Fs.openFile_opened ⟨dir,baseOffset,.idx⟩ env.opened (h1.stays_named hn)
  rcases hy : e.openFile ⟨dir,baseOffset,.idx⟩ env.opened with ⟨g,j⟩
  rw [hy] at h2
  have hi : e.disk.data i = [] := by
    rcases h1.origin with h | ⟨_,_,h⟩
    · rw [h1.data i (hn _ _ h)]
      exact hu _ _ h
    · exact h
  have hold : e.disk.lookup ⟨dir,baseOffset,.idx⟩ = fs.disk.lookup ⟨dir,baseOffset,.idx⟩ :=
    h1.others _ (by simp)
  have hj : g.disk.data j = [] := by
    rcases h2.origin with h | ⟨_,_,h⟩
    · rw [h2.data j (h1.stays_named hn _ _ h)]
      rw [hold] at h
      rw [h1.data j (hn _ _ h)]
      exact hu _ _ h
    · exact h
  have hij : i ≠ j := by
    rintro rfl
    rcases h2.origin with h | ⟨_,h,_⟩
    · rw [hold] at h
      rcases h1.origin with h' | ⟨_,h',_⟩
      · exact ha i h' h
      · exact absurd (hn _ _ h) (by omega)
    · exact absurd h1.bound (by omega)
  have hgi : g.disk.data i = [] := by rw [h2.data i h1.bound, hi]
  have hl : loadEntries (g.disk.data j) = [] := by rw [hj]; rfl
  refine ⟨g,⟨ptr,⟨⟨dir,baseOffset,.log⟩,i,0⟩,⟨⟨⟨dir,baseOffset,.idx⟩,j,0⟩,[],baseOffset,0⟩,
    baseOffset,0,env.opened,baseOffset,0,0,none⟩,?_,?_⟩
  · simp [ForgeSegment.openSegment, hx, hi, openIndex, hy, hl, Segment.recover]
  · exact ⟨⟨rfl,rfl,rfl,hgi,rfl,by simp,hij,⟨by rw [hj]; rfl,le_refl _,rfl⟩,by simp,rfl⟩,
      rfl,rfl,rfl,rfl,⟨e.disk,h1,h2⟩⟩

end GoCommon.ForgeSegmentFiles
