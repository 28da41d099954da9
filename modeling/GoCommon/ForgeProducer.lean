import GoCommon.SliceHeap
import GoCommon.ForgeCommitLog

/-!
# The producer

Records are collected in a buffer and written to the log as batches. A flush
takes the buffer under the lock, appends it to the log without the lock and
gives the array back under the lock. Any goroutine may flush; the linger
goroutine does so some time after it has been signalled. A step of the model
is one of the sections that are atomic in the source. Every record that is
enqueued gets a number, which the source does not have, so that the same
record can be followed through the buffers.
-/

set_option autoImplicit false

namespace GoCommon.ForgeProducer
open ByteWords SliceHeap ForgeRecord ForgeSegment ForgeCommitLog

structure ProducerConfig where
  batchSize : ℤ
  compression : UInt8
  maxPendingBytes : ℤ
  maxMessageSize : ℤ
  onError : Bool
  shutdownTimeout : ℤ

def estimatedRecordOverhead : ℕ := 16
def estimatedRecordsPerBatch : ℕ := 64

structure Entry where
  id : ℕ
  record : Record
  deriving DecidableEq, Repr

def recordOf : Option Entry → Record
  | some e => e.record
  | none => ⟨0,0,none,none,none⟩

inductive Who where
  | caller (n : ℕ)
  | linger
  | shutdown
  deriving DecidableEq, Repr

inductive Call where
  | send (id : ℕ)
  | flush
  | linger
  | close (promised : List ℕ)
  | shutdown
  deriving DecidableEq, Repr

inductive Pc where
  | idle
  | signalling (id : ℕ)
  | flushing (c : Call)
  | appending (c : Call) (records : Slice)
  | reclaiming (c : Call) (records : Slice) (err : Option Stop)
  | stopping (promised : List ℕ)
  | waiting (promised : List ℕ)
  | repeated (promised : List ℕ)
  | armed
  | exited
  deriving DecidableEq, Repr

inductive Once where
  | unused
  | running
  | finished
  deriving DecidableEq, Repr

abbrev Threads := AList (fun _ : Who => Pc)

def pcOf (ts : Threads) (w : Who) : Pc := (ts.lookup w).getD .idle

theorem pcOf_insert {ts : Threads} {w v : Who} {x : Pc} :
    pcOf (ts.insert w x) v = if v = w then x else pcOf ts v := by
  by_cases h : v = w
  · rw [h, pcOf, AList.lookup_insert, if_pos rfl]
    rfl
  · rw [pcOf, AList.lookup_insert_ne h, if_neg h, pcOf]

/-- The producer, its log and its goroutines. The last four fields record what
has happened: the entries in the order of enqueuing and in the order of the
log, the sends that have returned nil, and for every close that has returned
nil the sends it had promised. -/
structure Producer where
  log : CommitLog
  heap : Heap (Option Entry)
  pending : Slice
  backBuf : Option ℕ
  bufSize : ℤ
  closed : Bool
  signalled : Bool
  stopped : Bool
  once : Once
  done : Option (Option Stop)
  threads : Threads
  sent : List Entry
  stored : List Entry
  acked : List ℕ
  closes : List (List ℕ)

namespace Producer

def pc (p : Producer) (w : Who) : Pc := pcOf p.threads w

def goto (w : Who) (x : Pc) (p : Producer) : Producer := { p with threads := p.threads.insert w x }

def entries (p : Producer) (s : Slice) : List (Option Entry) := p.heap.contents s

end Producer

def emptyRoom : List (Option Entry) := List.replicate estimatedRecordsPerBatch none

def newProducer (log : CommitLog) : Producer where
  log := log
  heap := ⟨fun a => if a < 2 then emptyRoom else [],2⟩
  pending := ⟨some 0,0⟩
  backBuf := some 1
  bufSize := 0
  closed := false
  signalled := false
  stopped := false
  once := .unused
  done := none
  threads := ∅
  sent := []
  stored := []
  acked := []
  closes := []

def recSize (key value : Option Bytes) : ℤ :=
  varintBytesSize key+varintBytesSize value+estimatedRecordOverhead

def enqueue (cfg : ProducerConfig) (n : ℕ) (key value : Option Bytes)
    (headers : Option (List Header)) (room : ℕ) (p : Producer) : Producer :=
  if 0 < cfg.maxMessageSize ∧ cfg.maxMessageSize < (value.getD []).length then p
  else if p.closed then p
  else if 0 < cfg.maxPendingBytes ∧ cfg.maxPendingBytes < p.bufSize+recSize key value then p
  else
    let e : Entry := ⟨p.sent.length,⟨0,0,key,value,headers⟩⟩
    let pushed := p.heap.push (some e) (List.replicate room none) p.pending
    let bufSize := p.bufSize+recSize key value
    { p with heap := pushed.1, pending := pushed.2, bufSize := bufSize, sent := p.sent++[e] }.goto
      (.caller n) (if cfg.batchSize ≤ bufSize then .flushing (.send e.id) else .signalling e.id)

def finish (w : Who) (c : Call) (err : Option Stop) (p : Producer) : Producer :=
  match c with
  | .send id => { p with acked := if err = none then id::p.acked else p.acked }.goto w .idle
  | .close promised => { p with
      once := .finished
      closes := if err = none then promised::p.closes else p.closes }.goto w .idle
  | .shutdown => { p with done := some err }.goto w .idle
  | _ => p.goto w .idle

def swap (w : Who) (c : Call) (p : Producer) : Producer :=
  if p.pending.len = 0 then finish w c none p
  else { p with pending := ⟨p.backBuf,0⟩, backBuf := none, bufSize := 0 }.goto w
    (.appending c p.pending)

def batchOf (cfg : ProducerConfig) (now : Int64) (xs : List (Option Entry)) : RecordBatch :=
  ⟨0,0,cfg.compression,now,now,xs.map recordOf⟩

def appendTaken (lz4 : Lz4) (lcfg : Config) (cfg : ProducerConfig) (w : Who) (c : Call)
    (records : Slice) (env : Env) (now : Int64) (p : Producer) : Option Producer :=
  match p.log.append lz4 lcfg env (batchOf cfg now (p.entries records)) with
  | (log,.ok _) => some ({ p with
      log := log
      stored := p.stored++(p.entries records).reduceOption }.goto w (.reclaiming c records none))
  | (log,.error (.err e)) =>
    some ({ p with log := log }.goto w (.reclaiming c records (some (.err e))))
  | (_,.error _) => none

def reclaim (cfg : ProducerConfig) (w : Who) (c : Call) (records : Slice) (err : Option Stop)
    (p : Producer) : Producer :=
  finish w c (if cfg.onError then none else err) { p with
    heap := p.heap.fill none records
    backBuf := if p.backBuf = none then records.arr else p.backBuf }

def beginClose (n : ℕ) (p : Producer) : Producer :=
  if p.once = .unused then
    { p with stopped := true, once := .running }.goto (.caller n) (.stopping p.acked)
  else p.goto (.caller n) (.repeated p.acked)

def markClosed (cfg : ProducerConfig) (n : ℕ) (promised : List ℕ) (p : Producer) : Producer :=
  if cfg.shutdownTimeout ≤ 0 then
    { p with closed := true }.goto (.caller n) (.flushing (.close promised))
  else ({ p with closed := true }.goto (.caller n) (.waiting promised)).goto .shutdown
    (.flushing .shutdown)

inductive Step where
  | send (n : ℕ) (key value : Option Bytes) (headers : Option (List Header)) (room : ℕ)
  | signal (n : ℕ)
  | flush (n : ℕ)
  | close (n : ℕ)
  | mark (n : ℕ)
  | result (n : ℕ)
  | timeout (n : ℕ)
  | again (n : ℕ)
  | arm
  | fire
  | stop
  | swap (w : Who)
  | append (w : Who) (env : Env) (now : Int64)
  | reclaim (w : Who)

def step (lz4 : Lz4) (lcfg : Config) (cfg : ProducerConfig) : Step → Producer → Option Producer
  | .send n key value headers room, p => match p.pc (.caller n) with
    | .idle => some (enqueue cfg n key value headers room p)
    | _ => none
  | .signal n, p => match p.pc (.caller n) with
    | .signalling id =>
      some ({ p with signalled := true, acked := id::p.acked }.goto (.caller n) .idle)
    | _ => none
  | .flush n, p => match p.pc (.caller n) with
    | .idle => some (p.goto (.caller n) (.flushing .flush))
    | _ => none
  | .close n, p => match p.pc (.caller n) with
    | .idle => some (beginClose n p)
    | _ => none
  | .mark n, p => match p.pc (.caller n), p.pc .linger with
    | .stopping promised, .exited => some (markClosed cfg n promised p)
    | _, _ => none
  | .result n, p => match p.pc (.caller n), p.done with
    | .waiting promised, some err => some ({ p with
        once := .finished
        closes := if err = none then promised::p.closes else p.closes }.goto (.caller n) .idle)
    | _, _ => none
  | .timeout n, p => match p.pc (.caller n) with
    | .waiting _ => some ({ p with once := .finished }.goto (.caller n) .idle)
    | _ => none
  | .again n, p => match p.pc (.caller n), p.once with
    | .repeated promised, .finished =>
      some ({ p with closes := promised::p.closes }.goto (.caller n) .idle)
    | _, _ => none
  | .arm, p => match p.pc .linger with
    | .idle => if p.signalled then some ({ p with signalled := false }.goto .linger .armed) else none
    | _ => none
  | .fire, p => match p.pc .linger with
    | .armed => some (p.goto .linger (.flushing .linger))
    | _ => none
  | .stop, p => if p.stopped then match p.pc .linger with
      | .idle | .armed => some (p.goto .linger .exited)
      | _ => none
    else none
  | .swap w, p => match p.pc w with
    | .flushing c => some (ForgeProducer.swap w c p)
    | _ => none
  | .append w env now, p => match p.pc w with
    | .appending c records => appendTaken lz4 lcfg cfg w c records env now p
    | _ => none
  | .reclaim w, p => match p.pc w with
    | .reclaiming c records err => some (ForgeProducer.reclaim cfg w c records err p)
    | _ => none

end GoCommon.ForgeProducer
