import GoCommon.ForgeCommitLog

/-!
# Merging and compaction

Both operations write a replacement segment in the staging directory, remove
the segments it replaces and move the staged files into the log directory.
Merging copies the encoded batches of old sealed segments. Compaction keeps
the last record of every key and every record without a key, and writes them
under new offsets.
-/

set_option autoImplicit false

namespace GoCommon.ForgeRewrite
open ByteWords ForgeRecord ForgeSegment ForgeCommitLog

structure Write where
  encoded : Bytes
  baseOffset : ℕ
  recordCount : ℕ

def writeAll (cfg : Config) (env : Env) : List (Except Stop Write) → Files → Segment →
    Files × Segment × Except Stop Unit
  | [], fs, s => (fs,s,.ok ())
  | .error e::_, fs, s => (fs,s,.error e)
  | .ok w::rest, fs, s => match s.append cfg env w.encoded w.baseOffset w.recordCount fs with
    | .error e => (fs,s,.error e)
    | .ok (fs,s) => writeAll cfg env rest fs s

def insertSegmentSorted (s : Segment) : List Segment → List Segment
  | [] => [s]
  | t::rest => if t.baseOffset < s.baseOffset then t::insertSegmentSorted s rest else s::t::rest

def removeSegments (env : Env) (toRemove : List Segment) (cl : CommitLog) : CommitLog :=
  { cl with
    fs := toRemove.foldl (fun fs s => s.remove env fs) cl.fs
    segments := cl.segments.filter (fun s => s.ptr ∉ toRemove.map Segment.ptr) }

def swapSegment (lz4 : Lz4) (env : Env) (toRemove : List Segment) (newBaseOffset : ℕ)
    (cl : CommitLog) : CommitLog × Except Stop Unit :=
  let cl := removeSegments env toRemove cl
  let fs := removeStaging ((cl.fs.rename ⟨.staging,newBaseOffset,.log⟩
    ⟨.main,newBaseOffset,.log⟩).rename ⟨.staging,newBaseOffset,.idx⟩ ⟨.main,newBaseOffset,.idx⟩)
  match openSegment lz4 env .main newBaseOffset cl.nextPtr fs with
  | (fs,.error e) => ({ cl with fs := fs },.error e)
  | (fs,.ok s) => ({ cl with
      fs := fs
      segments := insertSegmentSorted (s.sealSegment env) cl.segments
      nextPtr := cl.nextPtr+1 },.ok ())

def stageAndSwapSegment (lz4 : Lz4) (cfg : Config) (env : Env) (toRemove : List Segment)
    (newBaseOffset : ℕ) (writes : List (Except Stop Write)) (cl : CommitLog) :
    CommitLog × Except Stop Unit :=
  match openSegment lz4 env .staging newBaseOffset cl.nextPtr cl.fs with
  | (fs,.error e) => ({ cl with fs := fs },.error e)
  | (fs,.ok s) => match writeAll cfg env writes fs s with
    | (fs,s,.error e) => ({ cl with fs := removeStaging (s.close env fs) },.error e)
    | (fs,s,.ok ()) => swapSegment lz4 env toRemove newBaseOffset
        { cl with fs := s.close env fs, nextPtr := cl.nextPtr+1 }

/-! ## Merging -/

def rawWrites : ℕ → Bytes → List (Except Stop Write)
  | 0, _ => []
  | n+1, raw => match batchSize raw with
    | .error _ => []
    | .ok k => match parseBatchHeader (raw.take k) with
      | .error e => [.error e]
      | .ok (base,count) => .ok ⟨raw.take k,base,count⟩::rawWrites n (raw.drop k)

def mergeCandidates (cfg : Config) (env : Env) (cl : CommitLog) : List Segment :=
  cl.segments.filter (fun s => s.ptr ≠ cl.activeSegment ∧
    s.created ≤ env.now-cfg.minSegmentMergeAge)

def mergeSegments (lz4 : Lz4) (cfg : Config) (env : Env) (cl : CommitLog) :
    CommitLog × Except Stop Unit :=
  if cl.closed then (cl,.error (.err .closed))
  else
    let candidates := mergeCandidates cfg env cl
    if candidates.length < cfg.minMergeSegments then (cl,.ok ())
    else
      let rawChunks := candidates.map (Segment.readRawBytes cl.fs)
      if rawChunks.all List.isEmpty then (removeSegments env candidates cl,.ok ())
      else match candidates with
        | [] => (cl,.error .panic)
        | first::_ => stageAndSwapSegment lz4 cfg env candidates first.baseOffset
            (rawChunks.flatMap (fun raw => rawWrites raw.length raw)) cl

/-! ## Compaction -/

structure KeyRecord where
  offset : ℕ
  record : Record
  deriving DecidableEq, Repr

def absOffset (base : ℕ) (r : Record) : ℕ := (base+r.offsetDelta.toUInt64.toNat)%2^64

def keyOf (r : Record) : Bytes := r.key.getD []

def keyRecords (b : RecordBatch) : List KeyRecord :=
  b.records.map (fun r => ⟨absOffset b.baseOffset r,r⟩)

structure Latest where
  keyed : AList (fun _ : Bytes => KeyRecord)
  keyless : List KeyRecord

def Latest.note (l : Latest) (kr : KeyRecord) : Latest :=
  if (keyOf kr.record).length = 0 then { l with keyless := l.keyless++[kr] }
  else { l with keyed := l.keyed.insert (keyOf kr.record) kr }

def Latest.all (l : Latest) : List KeyRecord := l.keyed.entries.map Sigma.snd++l.keyless

structure Order where
  arrange : List KeyRecord → List KeyRecord
  perm : ∀ l, (arrange l).Perm l

def byOffset (a b : KeyRecord) : Prop := a.offset ≤ b.offset

instance : DecidableRel byOffset := fun _ _ => Nat.decLe _ _

def readAllBatches (lz4 : Lz4) (fs : Files) (s : Segment) : Except Stop (List RecordBatch) :=
  s.readFrom lz4 fs s.baseOffset s.size

def readAllRecords (lz4 : Lz4) (fs : Files) : List Segment → Except Stop (List KeyRecord)
  | [] => .ok []
  | s::rest => match readAllBatches lz4 fs s with
    | .error e => .error e
    | .ok bs => match readAllRecords lz4 fs rest with
      | .error e => .error e
      | .ok krs => .ok (bs.flatMap keyRecords++krs)

def survivors (order : Order) (krs : List KeyRecord) : List KeyRecord :=
  (order.arrange (krs.foldl Latest.note ⟨∅,[]⟩).all).insertionSort byOffset

def batchLimit : ℕ := 1000

def groupBatch (baseOffset : ℕ) (rs : List Record) : RecordBatch :=
  ⟨baseOffset%2^64,rs.length,compressionNone,0,0,
    rs.mapIdx (fun i r => { r with offsetDelta := Int64.ofNat i })⟩

def encodeGroup (lz4 : Lz4) (b : RecordBatch) : Except Stop Write :=
  match encodeBatch lz4 b with
  | .error e => .error e
  | .ok encoded => .ok ⟨encoded,b.baseOffset,b.recordCount⟩

def groups : ℕ → ℕ → List Record → List RecordBatch
  | 0, _, _ => []
  | n+1, base, rs => if rs = [] then []
      else groupBatch base (rs.take batchLimit)::groups n (base+batchLimit) (rs.drop batchLimit)

def writeBatches (lz4 : Lz4) (baseOffset : ℕ) (rs : List Record) : List (Except Stop Write) :=
  (groups rs.length baseOffset rs).map (encodeGroup lz4)

def sealedSegments (cl : CommitLog) : List Segment :=
  if cl.segments.length ≤ 1 then [] else cl.segments.filter (fun s => s.ptr ≠ cl.activeSegment)

def compact (lz4 : Lz4) (cfg : Config) (env : Env) (order : Order) (cl : CommitLog) :
    CommitLog × Except Stop Unit :=
  if cl.closed then (cl,.error (.err .closed))
  else match sealedSegments cl with
    | [] => (cl,.ok ())
    | first::rest => match readAllRecords lz4 cl.fs (first::rest) with
      | .error e => (cl,.error e)
      | .ok krs => match survivors order krs with
        | [] => (removeSegments env (first::rest) cl,.ok ())
        | kr::krs => stageAndSwapSegment lz4 cfg env (first::rest) first.baseOffset
            (writeBatches lz4 first.baseOffset ((kr::krs).map KeyRecord.record)) cl

end GoCommon.ForgeRewrite
