import GoCommon.ForgeRecord
import GoCommon.ForgeIndex

/-!
# Segments

A segment is a log file opened for appending, its index and the counters kept
beside them. The size counts the bytes of the log that belong to the segment.
A sealed segment is read through a mapping of its first bytes. Opening a
segment scans the log from the last index entry and cuts off what does not
decode.
-/

set_option autoImplicit false

namespace GoCommon.ForgeSegment
open ByteWords ByteStream FileDisk ForgeRecord ForgeIndex

inductive Dir where
  | main
  | staging
  deriving DecidableEq, Repr

inductive Ext where
  | log
  | idx
  deriving DecidableEq, Repr

structure Path where
  dir : Dir
  base : ℕ
  ext : Ext
  deriving DecidableEq, Repr

structure Config where
  maxSegmentBytes : ℤ
  maxSegmentAge : ℤ
  indexInterval : ℤ
  retentionTime : ℤ
  retentionBytes : ℤ
  fsyncEvery : ℤ
  minSegmentMergeAge : ℤ
  minMergeSegments : ℤ
  deriving DecidableEq, Repr

def defaultConfig : Config where
  maxSegmentBytes := 256*2^20
  maxSegmentAge := 3600*second
  indexInterval := 4096
  retentionTime := 7*24*3600*second
  retentionBytes := 2^30
  fsyncEvery := 0
  minSegmentMergeAge := 600*second
  minMergeSegments := 3

/-- What the system answers during one call: the clock when limits are
checked, when a file is opened and when it is written, and whether mapping a
file succeeds. -/
structure Env where
  now : ℤ
  opened : ℤ
  written : ℤ
  mmap : Bool
  deriving DecidableEq, Repr

structure Segment where
  ptr : ℕ
  logFile : File Path
  index : Index Path
  baseOffset : ℕ
  size : ℕ
  created : ℤ
  nextOffset : ℕ
  bytesSinceIndex : ℕ
  batchesSinceSync : ℕ
  mmapData : Option ℕ
  deriving DecidableEq, Repr

abbrev Files := Fs Path

def recoverChunkSize : ℕ := 256*1024

def maxFileSize : ℕ := 2^63-1

def scanBatches (lz4 : Lz4) (nextOffset : ℕ) (buf : Bytes) : Except Stop (ℕ × ℕ) :=
  match scanAll (nextBatch lz4) buf with
  | .error s => .error s
  | .ok (bs,consumed) => .ok (bs.foldl (fun n b => max n (endOffset b)) nextOffset,consumed)

/-- The loop over a large log. When the carried bytes fill the buffer nothing
is read, the position stays and the same round repeats for ever. -/
def recoverLoop (lz4 : Lz4) (data : Bytes) (size : ℕ) :
    ℕ → ℕ → Bytes → ℕ → ℕ → Except Stop (ℕ × ℕ)
  | 0, _, _, validEnd, nextOffset => .ok (validEnd,nextOffset)
  | fuel+1, pos, carry, validEnd, nextOffset =>
    if pos < size then
      let readSize := min (recoverChunkSize-carry.length) (size-pos)
      if readSize = 0 then .error .hang
      else
        let read := (data.drop pos).take readSize
        if read.length = 0 then .ok (validEnd,nextOffset)
        else match scanBatches lz4 nextOffset (carry++read) with
          | .error s => .error s
          | .ok (nextOffset,consumed) => recoverLoop lz4 data size fuel (pos+read.length)
              ((carry++read).drop consumed) (validEnd+consumed) nextOffset
    else .ok (validEnd,nextOffset)

def markedPosition (idx : Index Path) : ℕ := match idx.lastEntry with
  | some (_,p) => p
  | none => 0

def recoverFrom (lz4 : Lz4) (data : Bytes) (size scanStart nextOffset : ℕ) :
    Except Stop (ℕ × ℕ) :=
  if size-scanStart ≤ recoverChunkSize then
    match scanBatches lz4 nextOffset ((data.drop scanStart).take (size-scanStart)) with
    | .error s => .error s
    | .ok (nextOffset,consumed) => .ok (scanStart+consumed,nextOffset)
  else recoverLoop lz4 data size (size+1) scanStart [] scanStart nextOffset

namespace Segment

def recover (lz4 : Lz4) (env : Env) (fs : Files) (s : Segment) : Files × Except Stop Segment :=
  if s.size = 0 then (fs,.ok s)
  else
    let scanStart := markedPosition s.index
    if s.size ≤ scanStart then (fs,.ok s)
    else match recoverFrom lz4 (fs.disk.data s.logFile.ino) s.size scanStart s.nextOffset with
      | .error e => (fs,.error e)
      | .ok (validEnd,nextOffset) =>
        if validEnd < s.size then
          (fs.truncate s.logFile.ino validEnd env.written,
            .ok { s with size := validEnd, nextOffset := nextOffset })
        else (fs,.ok { s with nextOffset := nextOffset })

def sealSegment (env : Env) (s : Segment) : Segment :=
  if s.size = 0 ∨ s.mmapData ≠ none then s
  else if env.mmap then { s with mmapData := some s.size } else s

def indexDue (cfg : Config) (s : Segment) : Bool :=
  cfg.indexInterval ≤ s.bytesSinceIndex ∨ s.index.entries.length = 0

def wrote (cfg : Config) (n baseOffset recordCount : ℕ) (s : Segment) : Segment :=
  { s with
    index := if s.indexDue cfg then s.index.append baseOffset s.size else s.index
    size := s.size+n
    bytesSinceIndex := if s.indexDue cfg then n else s.bytesSinceIndex+n
    nextOffset := (baseOffset+recordCount)%2^64
    batchesSinceSync := s.batchesSinceSync+1 }

def syncDue (cfg : Config) (env : Env) (fs : Files) (s : Segment) : Files × Segment :=
  if 0 < cfg.fsyncEvery ∧ cfg.fsyncEvery ≤ s.batchesSinceSync then
    let (fs,idx) := s.index.sync env.written fs
    (fs,{ s with index := idx, batchesSinceSync := 0 })
  else (fs,s)

def append (cfg : Config) (env : Env) (encoded : Bytes) (baseOffset recordCount : ℕ)
    (fs : Files) (s : Segment) : Except Stop (Files × Segment) :=
  if maxFileSize < s.size+encoded.length then .error (.err .fileTooLarge)
  else .ok ((s.wrote cfg encoded.length baseOffset recordCount).syncDue cfg env
    (fs.append s.logFile.ino encoded env.written))

def window (fs : Files) (s : Segment) (pos : ℕ) (maxBytes : ℤ) : Except Stop (Option Bytes) :=
  let data := fs.disk.data s.logFile.ino
  match s.mmapData with
  | some len =>
    let stop := min (int64 (pos+maxBytes)) len
    if stop ≤ pos then .ok none else .ok (some ((data.take stop.toNat).drop pos))
  | none =>
    let remaining : ℤ := s.size-pos
    if remaining ≤ 0 then .ok none
    else
      let remaining := if maxBytes < remaining then maxBytes else remaining
      if remaining < 0 then .error .panic
      else
        let read := (data.drop pos).take remaining.toNat
        if read = [] ∧ 0 < remaining then .error (.err .eof) else .ok (some read)

def readFrom (lz4 : Lz4) (fs : Files) (s : Segment) (offset : ℕ) (maxBytes : ℤ) :
    Except Stop (List RecordBatch) :=
  match s.window fs (s.index.lookup offset).1 maxBytes with
  | .error e => .error e
  | .ok none => .ok []
  | .ok (some buf) => match scanAll (nextBatch lz4) buf with
    | .error e => .error e
    | .ok (bs,_) => .ok (bs.filter (fun b => offset < endOffset b))

def readRawBytes (fs : Files) (s : Segment) : Bytes :=
  if s.size = 0 then []
  else match s.mmapData with
    | some len => (fs.disk.data s.logFile.ino).take len
    | none => (fs.disk.data s.logFile.ino).take s.size

def isFull (cfg : Config) (env : Env) (s : Segment) : Bool :=
  cfg.maxSegmentBytes ≤ s.size ∨
    (0 < cfg.maxSegmentAge ∧ cfg.maxSegmentAge ≤ env.now-s.created)

def close (env : Env) (fs : Files) (s : Segment) : Files := s.index.close env.written fs

def remove (env : Env) (fs : Files) (s : Segment) : Files :=
  ((s.close env fs).unlink s.logFile.name).unlink s.index.file.name

end Segment

def openSegment (lz4 : Lz4) (env : Env) (dir : Dir) (baseOffset ptr : ℕ) (fs : Files) :
    Files × Except Stop Segment :=
  let (fs,ino) := fs.openFile ⟨dir,baseOffset,.log⟩ env.opened
  let size := (fs.disk.data ino).length
  let created := if size = 0 then env.opened else (fs.disk.inodes ino).mtime
  let (fs,idx) := openIndex ⟨dir,baseOffset,.idx⟩ baseOffset env.opened fs
  Segment.recover lz4 env fs
    ⟨ptr,⟨⟨dir,baseOffset,.log⟩,ino,0⟩,idx,baseOffset,size,created,baseOffset,0,0,none⟩

/-! ## Small inputs -/

def noLz4 : Lz4 := ⟨fun _ => none,fun _ _ => none⟩

def still (t : ℤ) : Env := ⟨t,t,t,true⟩

def smallBatch (base : ℕ) (v : UInt8) : RecordBatch :=
  ⟨base,1,compressionNone,0,0,[⟨0,0,none,some [v],none⟩]⟩

def smallFrame (base : ℕ) (v : UInt8) : Bytes :=
  frame (smallBatch base v) compressionNone (appendRecords (smallBatch base v).records)

example : (smallFrame 7 1).length = 42 ∧ batchSize (smallFrame 7 1) = .ok 42 ∧
    decodeBatch noLz4 (smallFrame 7 1) = .ok (smallBatch 7 1) := by decide +kernel

end GoCommon.ForgeSegment
