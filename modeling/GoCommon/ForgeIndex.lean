import GoCommon.FileDisk
import GoCommon.BinarySearch

/-!
# The sparse offset index

Entries live in memory and are written to the file on a sync. The file is not
opened for appending: its position starts at zero in every session and moves
only with the writes of that session, while loading reads by absolute position.
-/

set_option autoImplicit false

namespace GoCommon.ForgeIndex
open List ByteWords FileDisk BinarySearch

def indexEntrySize : ℕ := 12

structure IndexEntry where
  relativeOffset : ℕ
  position : ℕ
  deriving DecidableEq, Repr

structure Index (P : Type) where
  file : File P
  entries : List IndexEntry
  baseOffset : ℕ
  dirtyFrom : ℕ
  deriving DecidableEq, Repr

def sub64 (a b : ℕ) : ℕ := (a+2^64-b)%2^64

def entry (baseOffset offset position : ℕ) : IndexEntry :=
  ⟨sub64 offset baseOffset%2^32,position⟩

def putEntry (e : IndexEntry) : Bytes := putUint 4 e.relativeOffset++putUint 8 e.position

def putEntries (es : List IndexEntry) : Bytes := es.flatMap putEntry

def getEntries : ℕ → Bytes → List IndexEntry
  | 0, _ => []
  | n+1, bs => ⟨uint (bs.take 4),uint ((bs.drop 4).take 8)⟩::getEntries n (bs.drop indexEntrySize)

def loadEntries (data : Bytes) : List IndexEntry := getEntries (data.length/indexEntrySize) data

section
variable {P : Type} [DecidableEq P]

def openIndex (path : P) (baseOffset : ℕ) (t : ℤ) (fs : Fs P) : Fs P × Index P :=
  let (fs,ino) := fs.openFile path t
  let entries := loadEntries (fs.disk.data ino)
  (fs,⟨⟨path,ino,0⟩,entries,baseOffset,entries.length⟩)

end

variable {P : Type}

namespace Index

def append (idx : Index P) (offset position : ℕ) : Index P :=
  { idx with entries := idx.entries++[entry idx.baseOffset offset position] }

def lookup (idx : Index P) (targetOffset : ℕ) : ℕ × ℕ :=
  if idx.entries.length = 0 then (0,idx.baseOffset)
  else if targetOffset < idx.baseOffset then (0,idx.baseOffset)
  else
    let rel := (targetOffset-idx.baseOffset)%2^32
    match search idx.entries.length (fun j => rel < (idx.entries.getD j ⟨0,0⟩).relativeOffset) with
    | 0 => (0,idx.baseOffset)
    | i+1 =>
      let e := idx.entries.getD i ⟨0,0⟩
      (e.position,idx.baseOffset+e.relativeOffset)

def lastEntry (idx : Index P) : Option (ℕ × ℕ) := match idx.entries.getLast? with
  | none => none
  | some e => some (idx.baseOffset+e.relativeOffset,e.position)

def sync (t : ℤ) (fs : Fs P) (idx : Index P) : Fs P × Index P :=
  if idx.entries.drop idx.dirtyFrom = [] then (fs,idx)
  else
    let buf := putEntries (idx.entries.drop idx.dirtyFrom)
    (fs.write idx.file.ino idx.file.pos buf t,
      { idx with
        file := { idx.file with pos := idx.file.pos+buf.length }
        dirtyFrom := idx.entries.length })

def close (t : ℤ) (fs : Fs P) (idx : Index P) : Fs P := (idx.sync t fs).1

end Index

/-! ## The file format -/

def InRange (e : IndexEntry) : Prop := e.relativeOffset < 2^32 ∧ e.position < 2^64

@[simp] theorem putEntry_length {e : IndexEntry} : (putEntry e).length = 12 := by simp [putEntry]

@[simp] theorem putEntries_length {es : List IndexEntry} :
    (putEntries es).length = 12*es.length := by
  induction es with
  | nil => rfl
  | cons e es ih =>
    have h : putEntries (e::es) = putEntry e++putEntries es := rfl
    rw [h, length_append, putEntry_length, length_cons]
    omega

theorem putEntries_append {es fs : List IndexEntry} :
    putEntries (es++fs) = putEntries es++putEntries fs := by simp [putEntries]

theorem putEntries_drop (es : List IndexEntry) (n : ℕ) :
    (putEntries es).drop (12*n) = putEntries (es.drop n) := by
  induction es generalizing n with
  | nil => simp [putEntries]
  | cons e es ih =>
    cases n with
    | zero => simp
    | succ n =>
      have h : putEntries (e::es) = putEntry e++putEntries es := rfl
      rw [h, drop_succ_cons, ← ih n, show 12*(n+1) = (putEntry e).length+12*n by simp; omega,
        ← drop_drop, drop_left]

theorem getEntries_put (es : List IndexEntry) (rest : Bytes) (h : ∀ e ∈ es, InRange e) :
    getEntries es.length (putEntries es++rest) = es := by
  induction es with
  | nil => rfl
  | cons e es ih =>
    obtain ⟨hr,hp⟩ := h e (by simp)
    have hc : putEntries (e::es)++rest = putUint 4 e.relativeOffset++(putUint 8 e.position++
        (putEntries es++rest)) := by simp [putEntries, putEntry]
    have hd : (putEntries (e::es)++rest).drop indexEntrySize = putEntries es++rest := by
      have hs : putEntries (e::es)++rest = putEntry e++(putEntries es++rest) := by
        simp [putEntries]
      rw [hs, show indexEntrySize = (putEntry e).length by rfl, drop_left]
    rw [length_cons, getEntries, hd, ih (fun x hx => h x (by simp [hx])), hc]
    have h4 : (putUint 4 e.relativeOffset++(putUint 8 e.position++(putEntries es++rest))).take 4 =
        putUint 4 e.relativeOffset := take_left' (by simp)
    have h8 : ((putUint 4 e.relativeOffset++(putUint 8 e.position++
        (putEntries es++rest))).drop 4).take 8 = putUint 8 e.position := by
      rw [drop_left' (by simp), take_left' (by simp)]
    rw [h4, h8, uint_putUint_of_lt 4 (by omega), uint_putUint_of_lt 8 (by omega)]

theorem loadEntries_put (es : List IndexEntry) (h : ∀ e ∈ es, InRange e) :
    loadEntries (putEntries es) = es := by
  have hl : (putEntries es).length/indexEntrySize = es.length := by
    rw [putEntries_length, indexEntrySize]
    omega
  have hg := getEntries_put es [] h
  rw [append_nil] at hg
  rw [loadEntries, hl, hg]

end GoCommon.ForgeIndex
