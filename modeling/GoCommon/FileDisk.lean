import GoCommon.ByteWords
import Mathlib.Data.List.AList

/-!
# A disk with names, files and a record of every state passed through

A name leads to a file and a file outlives its name as long as a handle is
open. Every operation records the states in which a crash can leave the disk:
the state before it and, for an append, the state after each prefix of the
bytes. Completed operations are durable.
-/

set_option autoImplicit false

namespace GoCommon.FileDisk
open List Function ByteWords

structure Inode where
  data : Bytes
  mtime : ℤ

structure Disk (P : Type) where
  names : AList (fun _ : P => ℕ)
  inodes : ℕ → Inode
  fresh : ℕ

structure Fs (P : Type) where
  disk : Disk P
  past : List (Disk P)

structure File (P : Type) where
  name : P
  ino : ℕ
  pos : ℕ
  deriving DecidableEq, Repr

def overwrite (data : Bytes) (pos : ℕ) (bs : Bytes) : Bytes :=
  data.take pos++List.replicate (pos-data.length) 0++bs++data.drop (pos+bs.length)

variable {i j : ℕ} {bs : Bytes} {t : ℤ}

theorem overwrite_end {data : Bytes} : overwrite data data.length bs = data++bs := by
  simp [overwrite]

variable {P : Type}

variable {n : Inode}

namespace Disk

def data (d : Disk P) (i : ℕ) : Bytes := (d.inodes i).data

def put (d : Disk P) (i : ℕ) (n : Inode) : Disk P :=
  { d with inodes := update d.inodes i n }

@[simp] theorem fresh_put (d : Disk P) (i : ℕ) (n : Inode) : (d.put i n).fresh = d.fresh := rfl

theorem data_put {d : Disk P} : (d.put i n).data j = if j = i then n.data else d.data j := by
  by_cases h : j = i <;> simp [data, put, update, h]

@[simp] theorem data_put_self {d : Disk P} : (d.put i n).data i = n.data := by
  simp [data_put]

theorem data_put_other (d : Disk P) (n : Inode) (h : j ≠ i) :
    (d.put i n).data j = d.data j := by simp [data_put, h]

structure Touches (i j : ℕ) (d d' : Disk P) : Prop where
  names : d'.names = d.names
  fresh : d'.fresh = d.fresh
  data : ∀ k, k ≠ i → k ≠ j → d'.data k = d.data k

theorem Touches.refl {d : Disk P} : Touches i j d d := ⟨rfl,rfl,fun _ _ _ => rfl⟩

theorem Touches.trans {a b c : Disk P} (h : Touches i j a b) (h' : Touches i j b c) :
    Touches i j a c :=
  ⟨h'.names.trans h.names,h'.fresh.trans h.fresh,
    fun k hi hj => (h'.data k hi hj).trans (h.data k hi hj)⟩

theorem touches_put_left {d : Disk P} : Touches i j d (d.put i n) :=
  ⟨rfl,rfl,fun _ hi _ => data_put_other d n hi⟩

theorem touches_put_right {d : Disk P} : Touches i j d (d.put j n) :=
  ⟨rfl,rfl,fun _ _ hj => data_put_other d n hj⟩

end Disk

namespace Fs

def boot (d : Disk P) : Fs P := ⟨d,[]⟩

def step (f : Disk P → Disk P) (fs : Fs P) : Fs P := ⟨f fs.disk,fs.disk::fs.past⟩

def append (i : ℕ) (bs : Bytes) (t : ℤ) (fs : Fs P) : Fs P where
  disk := fs.disk.put i ⟨fs.disk.data i++bs,t⟩
  past := (List.range bs.length).map
    (fun k => fs.disk.put i ⟨fs.disk.data i++bs.take k,t⟩)++fs.past

def write (i pos : ℕ) (bs : Bytes) (t : ℤ) (fs : Fs P) : Fs P :=
  fs.step (fun d => d.put i ⟨overwrite (d.data i) pos bs,t⟩)

def truncate (i n : ℕ) (t : ℤ) (fs : Fs P) : Fs P :=
  fs.step (fun d => d.put i ⟨(d.data i).take n,t⟩)

@[simp] theorem disk_append {fs : Fs P} :
    (fs.append i bs t).disk = fs.disk.put i ⟨fs.disk.data i++bs,t⟩ := rfl

@[simp] theorem disk_write {pos : ℕ} {fs : Fs P} :
    (fs.write i pos bs t).disk = fs.disk.put i ⟨overwrite (fs.disk.data i) pos bs,t⟩ := rfl

@[simp] theorem disk_truncate {n : ℕ} {fs : Fs P} :
    (fs.truncate i n t).disk = fs.disk.put i ⟨(fs.disk.data i).take n,t⟩ := rfl

end Fs

variable [DecidableEq P]

namespace Disk

def empty : Disk P := ⟨∅,fun _ => ⟨[],0⟩,0⟩

def lookup (d : Disk P) (p : P) : Option ℕ := d.names.lookup p

def create (d : Disk P) (p : P) (t : ℤ) : Disk P where
  names := d.names.insert p d.fresh
  inodes := update d.inodes d.fresh ⟨[],t⟩
  fresh := d.fresh+1

def unlink (d : Disk P) (p : P) : Disk P := { d with names := d.names.erase p }

def rename (d : Disk P) (p q : P) : Disk P := match d.lookup p with
  | none => d
  | some i => { d with names := (d.names.erase p).insert q i }

@[simp] theorem lookup_put (d : Disk P) (i : ℕ) (n : Inode) (p : P) :
    (d.put i n).lookup p = d.lookup p := rfl

theorem Touches.lookup {d d' : Disk P} (h : Touches i j d d') (p : P) :
    d'.lookup p = d.lookup p := by rw [Disk.lookup, h.names, Disk.lookup]

theorem lookup_create (d : Disk P) (p q : P) (t : ℤ) :
    (d.create p t).lookup q = if q = p then some d.fresh else d.lookup q := by
  by_cases h : q = p
  · subst h
    simp [lookup, create]
  · simp [lookup, create, h, AList.lookup_insert_ne]

theorem data_create {d : Disk P} {p : P} :
    (d.create p t).data j = if j = d.fresh then [] else d.data j := by
  by_cases h : j = d.fresh <;> simp [data, create, update, h]

@[simp] theorem fresh_create {d : Disk P} {p : P} : (d.create p t).fresh = d.fresh+1 := rfl

theorem lookup_unlink {d : Disk P} {p q : P} :
    (d.unlink p).lookup q = if q = p then none else d.lookup q := by
  by_cases h : q = p
  · subst h
    simp [lookup, unlink]
  · simp [lookup, unlink, h, AList.lookup_erase_ne]

@[simp] theorem data_unlink {d : Disk P} {p : P} : (d.unlink p).data j = d.data j := rfl

@[simp] theorem fresh_unlink {d : Disk P} {p : P} : (d.unlink p).fresh = d.fresh := rfl

theorem lookup_rename (d : Disk P) (p q r : P) (i : ℕ) (h : d.lookup p = some i) :
    (d.rename p q).lookup r = if r = q then some i else if r = p then none else d.lookup r := by
  simp only [rename, h]
  by_cases hq : r = q
  · subst hq
    simp [lookup]
  by_cases hp : r = p
  · subst hp
    simp [lookup, hq, AList.lookup_insert_ne]
  · simp [lookup, hq, hp, AList.lookup_insert_ne, AList.lookup_erase_ne]

@[simp] theorem data_rename {d : Disk P} {p q : P} : (d.rename p q).data j = d.data j := by
  unfold rename
  split <;> rfl

@[simp] theorem fresh_rename (d : Disk P) (p q : P) : (d.rename p q).fresh = d.fresh := by
  unfold rename
  split <;> rfl

end Disk

namespace Fs

def openFile (p : P) (t : ℤ) (fs : Fs P) : Fs P × ℕ := match fs.disk.lookup p with
  | some i => (fs,i)
  | none => (fs.step (fun d => d.create p t),fs.disk.fresh)

def unlink (p : P) (fs : Fs P) : Fs P := fs.step (fun d => d.unlink p)

def rename (p q : P) (fs : Fs P) : Fs P := fs.step (fun d => d.rename p q)

def unlinkAll (ps : List P) (fs : Fs P) : Fs P := ps.foldl (fun f p => f.unlink p) fs

@[simp] theorem disk_unlink {p : P} {fs : Fs P} : (fs.unlink p).disk = fs.disk.unlink p := rfl

@[simp] theorem disk_rename {p q : P} {fs : Fs P} : (fs.rename p q).disk = fs.disk.rename p q := rfl

theorem openFile_present {p : P} (t : ℤ) {fs : Fs P} (h : fs.disk.lookup p = some i) :
    fs.openFile p t = (fs,i) := by simp [openFile, h]

def Named (d : Disk P) : Prop := ∀ p i, d.lookup p = some i → i < d.fresh

structure Opened (p : P) (d d' : Disk P) (i : ℕ) : Prop where
  named : d'.lookup p = some i
  others : ∀ q, q ≠ p → d'.lookup q = d.lookup q
  fresh : d.fresh ≤ d'.fresh
  bound : i < d'.fresh
  data : ∀ k, k < d.fresh → d'.data k = d.data k
  origin : d.lookup p = some i ∨ d.lookup p = none ∧ i = d.fresh ∧ d'.data i = []

theorem openFile_opened (p : P) (t : ℤ) {fs : Fs P} (h : Named fs.disk) :
    Opened p fs.disk (fs.openFile p t).1.disk (fs.openFile p t).2 := by
  unfold openFile
  rcases hl : fs.disk.lookup p with _ | i
  · refine ⟨?_,?_,by simp [step],by simp [step],?_,.inr ⟨hl,rfl,?_⟩⟩
    · simp [step, Disk.lookup_create]
    · intro q hq
      simp [step, Disk.lookup_create, hq]
    · intro k hk
      simp [step, Disk.data_create, Nat.ne_of_lt hk]
    · simp [step, Disk.data_create]
  · exact ⟨hl,fun _ _ => rfl,le_refl _,h p i hl,fun _ _ => rfl,.inl hl⟩

theorem Opened.stays_named {p : P} {d d' : Disk P} (h : Opened p d d' i)
    (hn : Named d) : Named d' := by
  intro q j hq
  by_cases hp : q = p
  · rw [hp, h.named] at hq
    rw [← Option.some.inj hq]
    exact h.bound
  · rw [h.others q hp] at hq
    exact lt_of_lt_of_le (hn q j hq) h.fresh

def Single (d : Disk P) : Prop := ∀ p q i, d.lookup p = some i → d.lookup q = some i → p = q

theorem Opened.back {p : P} {d d' : Disk P} (h : Opened p d d' i) {q : P}
    (hq : d'.lookup q = some j) (hj : j < d.fresh) : d.lookup q = some j := by
  by_cases hp : q = p
  · rw [hp, h.named] at hq
    rw [← Option.some.inj hq] at hj ⊢
    rcases h.origin with ho | ⟨_,ho,_⟩
    · rw [hp, ho]
    · omega
  · rw [← h.others q hp, hq]

theorem Opened.stays_single {p : P} {d d' : Disk P} (h : Opened p d d' i)
    (hn : Named d) (hs : Single d) : Single d' := by
  have hother : ∀ q, q ≠ p → d'.lookup q ≠ some i := by
    intro q hq hl
    rw [h.others q hq] at hl
    rcases h.origin with ho | ⟨_,ho,_⟩
    · exact hq (hs q p i hl ho)
    · exact absurd (hn q i hl) (by omega)
  intro q r j hq hr
  by_cases hqp : q = p
  · by_cases hrp : r = p
    · rw [hqp, hrp]
    · rw [hqp, h.named] at hq
      rw [← Option.some.inj hq] at hr
      exact absurd hr (hother r hrp)
  by_cases hrp : r = p
  · rw [hrp, h.named] at hr
    rw [← Option.some.inj hr] at hq
    exact absurd hq (hother q hqp)
  · rw [h.others q hqp] at hq
    rw [h.others r hrp] at hr
    exact hs q r j hq hr

theorem openFile_absent {p : P} (t : ℤ) {fs : Fs P} (h : fs.disk.lookup p = none) :
    fs.openFile p t = (fs.step (fun d => d.create p t),fs.disk.fresh) := by simp [openFile, h]

end Fs

end GoCommon.FileDisk
