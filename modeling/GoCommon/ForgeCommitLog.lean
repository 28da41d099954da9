import GoCommon.ForgeSegment

/-!
# The commit log

A log is a list of segments, one of which is written. Segments are heap
objects in the source; the pointer of a segment is kept beside it, and the
active segment is the listed one that carries the active pointer. Opening a
log first moves staged files into place and then opens every segment file.
-/

set_option autoImplicit false

namespace GoCommon.ForgeCommitLog
open ByteWords BinarySearch ForgeRecord ForgeSegment

structure CommitLog where
  fs : Files
  segments : List Segment
  activeSegment : ℕ
  nextOffset : ℕ
  closed : Bool
  nextPtr : ℕ

def assignOffsets (base : ℕ) (b : RecordBatch) : RecordBatch :=
  { b with
    baseOffset := base
    recordCount := b.records.length
    records := b.records.mapIdx (fun i r => { r with offsetDelta := Int64.ofNat i }) }

def findSegment (segments : List Segment) (offset : ℕ) : Option Segment :=
  match search segments.length (fun j => (segments[j]?).all (fun s => offset < s.baseOffset)) with
  | 0 => segments.head?
  | i+1 => segments[i]?

def retain (env : Env) (gone : ℤ → Segment → Bool) : ℤ → List Segment → Files →
    Files × List Segment
  | _, [], fs => (fs,[])
  | total, s::rest, fs =>
    if gone total s then retain env gone (total-s.size) rest (s.remove env fs)
    else
      let (fs,keep) := retain env gone total rest fs
      (fs,s::keep)

def stagedPaths (fs : Files) : List Path := fs.disk.names.keys.filter (fun p => p.dir = .staging)

def removeStaging (fs : Files) : Files := fs.unlinkAll (stagedPaths fs)

def pathOrder (p q : Path) : Prop := 2*p.base+(if p.ext = .idx then 0 else 1) ≤
  2*q.base+(if q.ext = .idx then 0 else 1)

instance : DecidableRel pathOrder := fun _ _ => Nat.decLe _ _

def recoverStaging (fs : Files) : Files :=
  removeStaging (((stagedPaths fs).insertionSort pathOrder).foldl
    (fun fs p => fs.rename p { p with dir := .main }) fs)

def baseOffsets (fs : Files) : List ℕ :=
  ((fs.disk.names.keys.filter (fun p => p.dir = .main ∧ p.ext = .log)).map Path.base).insertionSort
    (· ≤ ·)

def loadSegments (lz4 : Lz4) (env : Env) : List ℕ → ℕ → Files → Files × Except Stop (List Segment)
  | [], _, fs => (fs,.ok [])
  | base::rest, ptr, fs => match openSegment lz4 env .main base ptr fs with
    | (fs,.error e) => (fs,.error e)
    | (fs,.ok s) => match loadSegments lz4 env rest (ptr+1) fs with
      | (fs,.error e) => (fs,.error e)
      | (fs,.ok ss) => (fs,.ok (s::ss))

def openedLog (env : Env) (fs : Files) (segments : List Segment) (last : Segment) : CommitLog where
  fs := fs
  segments := segments.map (Segment.sealSegment env)++[last]
  activeSegment := last.ptr
  nextOffset := last.nextOffset
  closed := false
  nextPtr := segments.length+1

def newCommitLog (lz4 : Lz4) (env : Env) (fs : Files) : Files × Except Stop CommitLog :=
  let fs := recoverStaging fs
  match loadSegments lz4 env (baseOffsets fs) 0 fs with
  | (fs,.error e) => (fs,.error e)
  | (fs,.ok segments) => match segments.getLast? with
    | some last => (fs,.ok (openedLog env fs segments.dropLast last))
    | none => match openSegment lz4 env .main 0 0 fs with
      | (fs,.error e) => (fs,.error e)
      | (fs,.ok s) => (fs,.ok (openedLog env fs [] s))

namespace CommitLog

def active (cl : CommitLog) : Option Segment :=
  cl.segments.find? (fun s => s.ptr = cl.activeSegment)

def update (s : Segment) (cl : CommitLog) : CommitLog :=
  { cl with segments := cl.segments.map (fun t => if t.ptr = s.ptr then s else t) }

def newSegment (lz4 : Lz4) (env : Env) (baseOffset : ℕ) (cl : CommitLog) :
    CommitLog × Except Stop Unit :=
  match openSegment lz4 env .main baseOffset cl.nextPtr cl.fs with
  | (fs,.error e) => ({ cl with fs := fs },.error e)
  | (fs,.ok s) => ({ cl with
      fs := fs
      segments := cl.segments++[s]
      activeSegment := s.ptr
      nextPtr := cl.nextPtr+1 },.ok ())

def rollIfFull (lz4 : Lz4) (cfg : Config) (env : Env) (cl : CommitLog) :
    CommitLog × Except Stop Unit :=
  match cl.active with
  | none => (cl,.error .panic)
  | some s =>
    if s.isFull cfg env then (cl.update (s.sealSegment env)).newSegment lz4 env cl.nextOffset
    else (cl,.ok ())

def appendEncoded (cfg : Config) (env : Env) (encoded : Bytes) (b : RecordBatch)
    (cl : CommitLog) : CommitLog × Except Stop ℕ :=
  match cl.active with
  | none => (cl,.error .panic)
  | some s => match s.append cfg env encoded b.baseOffset b.recordCount cl.fs with
    | .error e => (cl,.error e)
    | .ok (fs,s) => ({ cl.update s with
        fs := fs
        nextOffset := (cl.nextOffset+b.recordCount)%2^64 },.ok b.baseOffset)

def append (lz4 : Lz4) (cfg : Config) (env : Env) (batch : RecordBatch) (cl : CommitLog) :
    CommitLog × Except Stop ℕ :=
  if cl.closed then (cl,.error (.err .closed))
  else if maxRecordsPerBatch < batch.records.length then (cl,.error (.err .batchTooLarge))
  else match encodeBatch lz4 (assignOffsets cl.nextOffset batch) with
    | .error e => (cl,.error e)
    | .ok encoded => match cl.rollIfFull lz4 cfg env with
      | (cl,.error e) => (cl,.error e)
      | (cl',.ok ()) => cl'.appendEncoded cfg env encoded (assignOffsets cl.nextOffset batch)

def read (lz4 : Lz4) (cl : CommitLog) (offset : ℕ) (maxBytes : ℤ) :
    Except Stop (List RecordBatch) :=
  if cl.closed then .error (.err .closed)
  else if cl.segments = [] then .ok []
  else match findSegment cl.segments offset with
    | none => .error (.err .offsetNotFound)
    | some s => s.readFrom lz4 cl.fs offset maxBytes

def oldestOffset (cl : CommitLog) : ℕ := match cl.segments.head? with
  | none => 0
  | some s => s.baseOffset

def newestOffset (cl : CommitLog) : ℕ := cl.nextOffset

def below (cl : CommitLog) (offset : ℕ) (s : Segment) : Bool :=
  s.nextOffset ≤ offset ∧ s.ptr ≠ cl.activeSegment

def deleteBefore (env : Env) (offset : ℕ) (cl : CommitLog) : CommitLog :=
  let (fs,keep) := retain env (fun _ s => cl.below offset s) 0 cl.segments cl.fs
  { cl with fs := fs, segments := keep }

def outdated (cfg : Config) (env : Env) (cl : CommitLog) (total : ℤ) (s : Segment) : Bool :=
  s.ptr ≠ cl.activeSegment ∧
    (s.created < env.now-cfg.retentionTime ∨ cfg.retentionBytes < total)

def totalSize (cl : CommitLog) : ℤ := (cl.segments.map (fun s => (s.size:ℤ))).sum

def enforceRetention (cfg : Config) (env : Env) (cl : CommitLog) : CommitLog :=
  let (fs,keep) := retain env (cl.outdated cfg env) cl.totalSize cl.segments cl.fs
  { cl with fs := fs, segments := keep }

def close (env : Env) (cl : CommitLog) : CommitLog :=
  if cl.closed then cl
  else { cl with
    fs := cl.segments.foldl (fun fs s => s.close env fs) cl.fs
    closed := true }

end CommitLog

end GoCommon.ForgeCommitLog
