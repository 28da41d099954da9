import GoCommon.ByteVarint
import GoCommon.ByteStream

/-!
# Record batches and their wire format

A batch is a fixed header followed by its records. The header stores the
length of what follows it in 32 bits; the checksum covers everything after
it. Decoding works on arbitrary bytes: a bound that is exceeded is an error,
a slice expression with crossed bounds is a panic. Byte slices distinguish nil
from empty. The LZ4 block functions are a parameter.
-/

set_option autoImplicit false

namespace GoCommon.ForgeRecord
open ByteWords ByteVarint

inductive Err where
  | corruptBatch
  | corruptRecord
  | checksumMismatch
  | offsetNotFound
  | closed
  | emptyBatch
  | batchTooLarge
  | lz4
  | eof
  | fileTooLarge
  | io
  deriving DecidableEq, Repr

inductive Stop where
  | err (e : Err)
  | panic
  | hang
  deriving DecidableEq, Repr

def batchHeaderSize : ℕ := 35
def compressionNone : UInt8 := 0
def compressionLZ4 : UInt8 := 1
def maxRecordsPerBatch : ℕ := 65535
def maxHeadersPerRecord : ℕ := 10000
def decompressInitMultiplier : ℕ := 4
def decompressGrowthFactor : ℕ := 2
def maxDecompressSize : ℕ := 16*2^20

structure Header where
  key : Option Bytes
  value : Option Bytes
  deriving DecidableEq, Repr

structure Record where
  timestampDelta : Int64
  offsetDelta : Int64
  key : Option Bytes
  value : Option Bytes
  headers : Option (List Header)
  deriving DecidableEq, Repr

def content (r : Record) : Record := { r with offsetDelta := 0 }

structure RecordBatch where
  baseOffset : ℕ
  recordCount : ℕ
  compression : UInt8
  timestamp : Int64
  maxTimestamp : Int64
  records : List Record
  deriving DecidableEq, Repr

/-- The block functions of the LZ4 package. Compression reports the bytes it
produced, none of them when the input is incompressible; decompression is
given the size of its output buffer. -/
structure Lz4 where
  compressBlock : Bytes → Option Bytes
  uncompressBlock : Bytes → ℕ → Option Bytes

def headerList (r : Record) : List Header := r.headers.getD []

/-! ## Encoding -/

def varIntSize (v : ℤ) : ℕ := uvarintSizeLoop 9 (zigzag v) 1

def varintBytesSize : Option Bytes → ℕ
  | none => varIntSize (-1)
  | some b => varIntSize b.length+b.length

def appendVarintBytes : Option Bytes → Bytes
  | none => putVarint (-1)
  | some b => putVarint b.length++b

def headersSize (hs : List Header) : ℕ :=
  (hs.map (fun h => varintBytesSize h.key+varintBytesSize h.value)).sum

def bodySize (r : Record) : ℕ :=
  varIntSize r.timestampDelta.toInt+varIntSize r.offsetDelta.toInt+varintBytesSize r.key+
    varintBytesSize r.value+varIntSize (headerList r).length+headersSize (headerList r)

def appendHeaders (hs : List Header) : Bytes :=
  hs.flatMap (fun h => appendVarintBytes h.key++appendVarintBytes h.value)

def appendBody (r : Record) : Bytes :=
  putVarint r.timestampDelta.toInt++putVarint r.offsetDelta.toInt++appendVarintBytes r.key++
    appendVarintBytes r.value++putVarint (headerList r).length++appendHeaders (headerList r)

def appendRecord (r : Record) : Bytes := putVarint (bodySize r)++appendBody r

def appendRecords (rs : List Record) : Bytes := rs.flatMap appendRecord

inductive Compressed where
  | bytes (b : Bytes)
  | incompressible
  | failed

def compress (lz4 : Lz4) (ct : UInt8) (src : Bytes) : Compressed :=
  if ct = compressionLZ4 then match lz4.compressBlock src with
    | none => .failed
    | some [] => .incompressible
    | some out => .bytes out
  else .bytes src

def payload (lz4 : Lz4) (b : RecordBatch) : Except Stop (UInt8 × Bytes) :=
  if b.compression ≠ compressionNone then
    match compress lz4 b.compression (appendRecords b.records) with
    | .bytes out => .ok (b.compression,out)
    | .incompressible => .ok (compressionNone,appendRecords b.records)
    | .failed => .error (.err .lz4)
  else .ok (b.compression,appendRecords b.records)

def checksummed (b : RecordBatch) (body : Bytes) : Bytes :=
  putUint 8 b.timestamp.toUInt64.toNat++putUint 8 b.maxTimestamp.toUInt64.toNat++body

def frame (b : RecordBatch) (ct : UInt8) (body : Bytes) : Bytes :=
  putUint 8 b.baseOffset++putUint 4 (2+1+4+8+8+body.length)++putUint 2 b.recordCount++[ct]++
    putUint 4 (crc32c (checksummed b body))++checksummed b body

def encodeBatch (lz4 : Lz4) (b : RecordBatch) : Except Stop Bytes :=
  if b.recordCount = 0 then .error (.err .emptyBatch)
  else match payload lz4 b with
    | .error e => .error e
    | .ok (ct,body) => .ok (frame b ct body)

/-! ## Decoding -/

def slice (data : Bytes) (lo hi : ℤ) : Except Stop Bytes :=
  if 0 ≤ lo ∧ lo ≤ hi ∧ hi ≤ data.length then .ok ((data.take hi.toNat).drop lo.toNat)
  else .error .panic

def corruptRecord : Stop := .err .corruptRecord

def check (p : Prop) [Decidable p] (s : Stop) : Except Stop Unit :=
  if p then .ok () else .error s

def readVarint (data : Bytes) (off : ℕ) : Except Stop (ℤ × ℕ) :=
  if data.length ≤ off then .error corruptRecord
  else
    let (v,n) := varint (data.drop off)
    if n ≤ 0 then .error corruptRecord else .ok (v,off+n.toNat)

def readUpTo (data : Bytes) (newOff : ℕ) (stop : ℤ) : Except Stop (Option Bytes × ℕ) :=
  if data.length < stop then .error corruptRecord
  else do
    let b ← slice data newOff stop
    return (some b,stop.toNat)

def readBytesAt (data : Bytes) (length : ℤ) (newOff : ℕ) : Except Stop (Option Bytes × ℕ) :=
  if length < 0 then .ok (none,newOff) else readUpTo data newOff (int64 (newOff+length))

def readVarintBytes (data : Bytes) (off : ℕ) : Except Stop (Option Bytes × ℕ) := do
  let (length,newOff) ← readVarint data off
  readBytesAt data length newOff

def readHeaders (data : Bytes) : ℕ → ℕ → Except Stop (List Header × ℕ)
  | 0, off => .ok ([],off)
  | n+1, off => do
    let (key,off) ← readVarintBytes data off
    let (value,off) ← readVarintBytes data off
    let (hs,off) ← readHeaders data n off
    return (⟨key,value⟩::hs,off)

def headersAt (buf : Bytes) (headerCount : ℤ) (off : ℕ) : Except Stop (Option (List Header)) :=
  if headerCount < 0 ∨ maxHeadersPerRecord < headerCount then .error corruptRecord
  else do
    let (headers,_) ← readHeaders buf headerCount.toNat off
    return if 0 < headerCount then some headers else none

def decodeBody (buf : Bytes) : Except Stop Record := do
  let (timestampDelta,off) ← readVarint buf 0
  let (offsetDelta,off) ← readVarint buf off
  let (key,off) ← readVarintBytes buf off
  let (value,off) ← readVarintBytes buf off
  let (headerCount,off) ← readVarint buf off
  let headers ← headersAt buf headerCount off
  return ⟨Int64.ofInt timestampDelta,Int64.ofInt offsetDelta,key,value,headers⟩

def decodeUpTo (data : Bytes) (n totalConsumed : ℤ) : Except Stop (Record × ℕ) :=
  if data.length < totalConsumed then .error corruptRecord
  else do
    let buf ← slice data n totalConsumed
    let r ← decodeBody buf
    return (r,totalConsumed.toNat)

def decodeRecord (data : Bytes) : Except Stop (Record × ℕ) :=
  let (recLen,n) := varint data
  if n ≤ 0 ∨ recLen < 0 then .error corruptRecord else decodeUpTo data n (int64 (n+recLen))

def decodeRecords : ℕ → Bytes → Except Stop (List Record)
  | 0, _ => .ok []
  | n+1, data => do
    let (r,k) ← decodeRecord data
    let rs ← decodeRecords n (data.drop k)
    return r::rs

def decompressLoop (lz4 : Lz4) (src : Bytes) : ℕ → ℕ → Except Stop Bytes
  | 0, _ => .error .hang
  | n+1, size => match lz4.uncompressBlock src size with
    | some out => .ok out
    | none => if maxDecompressSize < size*decompressGrowthFactor then .error (.err .lz4)
        else decompressLoop lz4 src n (size*decompressGrowthFactor)

def decompress (lz4 : Lz4) (ct : UInt8) (src : Bytes) : Except Stop Bytes :=
  if ct = compressionLZ4 then
    decompressLoop lz4 src 26 (min (src.length*decompressInitMultiplier) maxDecompressSize)
  else .ok src

def recordData (lz4 : Lz4) (ct : UInt8) (src : Bytes) : Except Stop Bytes :=
  if ct ≠ compressionNone then decompress lz4 ct src else .ok src

def headerField (data : Bytes) (off width : ℕ) : ℕ := uint ((data.drop off).take width)

def decodeBatch (lz4 : Lz4) (data : Bytes) : Except Stop RecordBatch :=
  if data.length < batchHeaderSize then .error (.err .corruptBatch)
  else
    let totalLen := 12+headerField data 8 4
    let recordCount := headerField data 12 2
    let compression := UInt8.ofNat (headerField data 14 1)
    if data.length < totalLen then .error (.err .corruptBatch)
    else do
      let covered ← slice data 19 totalLen
      let _ ← check (crc32c covered = headerField data 15 4) (.err .checksumMismatch)
      let stored ← slice data 35 totalLen
      let recData ← recordData lz4 compression stored
      let records ← decodeRecords recordCount recData
      return ⟨headerField data 0 8,recordCount,compression,
        (UInt64.ofNat (headerField data 19 8)).toInt64,
        (UInt64.ofNat (headerField data 27 8)).toInt64,records⟩

def parseBatchHeader (data : Bytes) : Except Stop (ℕ × ℕ) :=
  if data.length < batchHeaderSize then .error (.err .corruptBatch)
  else .ok (headerField data 0 8,headerField data 12 2)

def batchSize (data : Bytes) : Except Stop ℕ :=
  if data.length < 12 then .error (.err .corruptBatch)
  else if data.length < 12+headerField data 8 4 then .error (.err .corruptBatch)
  else .ok (12+headerField data 8 4)

def accepted (n : ℕ) : Except Stop RecordBatch → Except Stop (Option (RecordBatch × ℕ))
  | .ok b => .ok (some (b,n))
  | .error (.err _) => .ok none
  | .error .panic => .error .panic
  | .error .hang => .error .hang

def nextBatch (lz4 : Lz4) (buf : Bytes) : Except Stop (Option (RecordBatch × ℕ)) :=
  match batchSize buf with
  | .error _ => .ok none
  | .ok n => accepted n (decodeBatch lz4 (buf.take n))

def endOffset (b : RecordBatch) : ℕ := (b.baseOffset+b.recordCount)%2^64

end GoCommon.ForgeRecord
