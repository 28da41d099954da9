import GoCommon.ForgeRewrite

/-!
# Polling

A poll reads one window of batches from the current offset, skips the records
before it and returns as soon as enough records have been collected. The slice for
them is made before, and that panics for a capacity of more than 2^48 bytes.
-/

set_option autoImplicit false

namespace GoCommon.ForgeConsumer
open ByteWords ForgeRecord ForgeCommitLog ForgeRewrite

def estimatedBytesPerRecord : ℤ := 256
def minReadBytes : ℤ := 4096
def maxAlloc : ℤ := 2^48
def recordSize : ℤ := 88

def pollBytes (maxRecords : ℤ) : ℤ := max (int64 (maxRecords*estimatedBytesPerRecord)) minReadBytes

def pollRecords (maxRecords : ℤ) (base offset : ℕ) : List Record → List Record →
    List Record × Option ℕ
  | records, [] => (records,none)
  | records, r::rs =>
    if absOffset base r < offset then pollRecords maxRecords base offset records rs
    else if maxRecords ≤ (records++[r]).length then
      (records++[r],some ((absOffset base r+1)%2^64))
    else pollRecords maxRecords base offset (records++[r]) rs

def pollBatches (maxRecords : ℤ) : ℕ → List Record → List RecordBatch → List Record × ℕ
  | offset, records, [] => (records,offset)
  | offset, records, b::bs => match pollRecords maxRecords b.baseOffset offset records b.records with
    | (records,some o) => (records,o)
    | (records,none) => pollBatches maxRecords (endOffset b) records bs

def poll (lz4 : Lz4) (cl : CommitLog) (maxRecords : ℤ) (offset : ℕ) :
    Except Stop (List Record × ℕ) :=
  match cl.read lz4 offset (pollBytes maxRecords) with
  | .error e => .error e
  | .ok bs =>
    if maxRecords < 0 ∨ maxAlloc < maxRecords*recordSize then .error .panic
    else .ok (pollBatches maxRecords offset [] bs)

theorem poll_allocates {lz4 : Lz4} {cl : CommitLog} {maxRecords : ℤ} {offset : ℕ}
    {x : List Record × ℕ} (h : poll lz4 cl maxRecords offset = .ok x) :
    maxRecords*recordSize ≤ maxAlloc := by
  rw [poll] at h
  split at h
  · cases h
  · split at h
    · cases h
    · rename_i hno
      exact not_lt.mp (fun hlt => hno (.inr hlt))

end GoCommon.ForgeConsumer
