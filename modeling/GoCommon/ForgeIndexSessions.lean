import GoCommon.ForgeIndex

/-!
# Index files over several sessions

A session opens the file, appends and syncs in any order and closes. What it
leaves behind is computed for an arbitrary earlier content: the entries of the
session replace the first entries of the file instead of following them.
-/

set_option autoImplicit false

namespace GoCommon.ForgeIndexSessions
open List FileDisk ForgeIndex

variable {P : Type} [DecidableEq P]

inductive Op where
  | append (offset position : UInt64)
  | sync
  deriving DecidableEq, Repr

def stepOp (t : ℤ) : Op → Fs P × Index P → Fs P × Index P
  | .append o p, (fs,idx) => (fs,idx.append o.toNat p.toNat)
  | .sync, (fs,idx) => idx.sync t fs

def runOps (t : ℤ) (ops : List Op) (s : Fs P × Index P) : Fs P × Index P :=
  ops.foldl (fun s op => stepOp t op s) s

structure Session where
  time : ℤ
  ops : List Op

def added (base : ℕ) : List Op → List IndexEntry
  | [] => []
  | .append o p::ops => entry base o.toNat p.toNat::added base ops
  | .sync::ops => added base ops

def session (path : P) (base : ℕ) (s : Session) (fs : Fs P) : Fs P × List IndexEntry :=
  let (fs,idx) := runOps s.time s.ops (openIndex path base s.time fs)
  (idx.close s.time fs,idx.entries)

def reload (path : P) (base : ℕ) (t : ℤ) (fs : Fs P) : List IndexEntry :=
  (openIndex path base t fs).2.entries

def Persistent (path : P) (base : ℕ) : List IndexEntry → List Session → Fs P → Prop
  | _, [], _ => True
  | before, s::ss, fs =>
    (session path base s fs).2 = before++added base s.ops ∧
    (∀ t, reload path base t (session path base s fs).1 = (session path base s fs).2) ∧
    Persistent path base (before++added base s.ops) ss (session path base s fs).1

def OnFile (path : P) (es : List IndexEntry) (fs : Fs P) : Prop :=
  ∃ i, fs.disk.lookup path = some i ∧ fs.disk.data i = putEntries es

variable (path : P) (base : ℕ) (t : ℤ) (fs : Fs P)

theorem entry_inRange (o p : UInt64) : InRange (entry base o.toNat p.toNat) :=
  ⟨Nat.mod_lt _ (by norm_num),p.toNat_lt⟩

theorem added_inRange (ops : List Op) : ∀ e ∈ added base ops, InRange e := by
  induction ops with
  | nil => simp [added]
  | cons op ops ih =>
    cases op with
    | append o p =>
      intro e he
      rcases mem_cons.mp he with rfl | he
      · exact entry_inRange base o p
      · exact ih e he
    | sync => exact ih

theorem reload_onFile {es : List IndexEntry}
    (h : OnFile path es fs) (hr : ∀ e ∈ es, InRange e) : reload path base t fs = es := by
  obtain ⟨i,hl,hd⟩ := h
  simp [reload, openIndex, Fs.openFile_present t hl, hd, loadEntries_put es hr]

structure During (path : P) (base i : ℕ) (old new : List IndexEntry) (k : ℕ)
    (s : Fs P × Index P) : Prop where
  linked : s.1.disk.lookup path = some i
  ino : s.2.file.ino = i
  base : s.2.baseOffset = base
  entries : s.2.entries = old++new
  dirty : s.2.dirtyFrom = old.length+k
  pos : s.2.file.pos = 12*k
  bound : k ≤ new.length
  data : s.1.disk.data i = putEntries (new.take k++old.drop k)

theorem during_open (base : ℕ) {i : ℕ} (t : ℤ) {fs : Fs P} {old : List IndexEntry}
    (hl : fs.disk.lookup path = some i) (hd : fs.disk.data i = putEntries old)
    (hr : ∀ e ∈ old, InRange e) : During path base i old [] 0 (openIndex path base t fs) := by
  simp only [openIndex, Fs.openFile_present t hl, hd, loadEntries_put old hr]
  exact ⟨hl,rfl,rfl,by simp,by simp,rfl,le_refl _,by simpa using hd⟩

theorem during_append (base i : ℕ) (old new : List IndexEntry) (k : ℕ) (t : ℤ)
    (o p : UInt64) (s : Fs P × Index P) (h : During path base i old new k s) :
    During path base i old (new++[entry base o.toNat p.toNat]) k (stepOp t (.append o p) s) where
  linked := h.linked
  ino := h.ino
  base := h.base
  entries := by simp [stepOp, Index.append, h.entries, h.base]
  dirty := h.dirty
  pos := h.pos
  bound := by
    have := h.bound
    simp only [length_append]
    omega
  data := by
    rw [take_append_of_le_length h.bound]
    exact h.data

theorem during_sync (base i : ℕ) (old new : List IndexEntry) (k : ℕ) (t : ℤ)
    (s : Fs P × Index P) (h : During path base i old new k s) :
    During path base i old new new.length (s.2.sync t s.1) := by
  have hdrop : s.2.entries.drop s.2.dirtyFrom = new.drop k := by
    rw [h.entries, h.dirty, ← drop_drop, drop_left]
  by_cases hk : new.drop k = []
  · have he : k = new.length := by
      have := drop_eq_nil_iff.mp hk
      have := h.bound
      omega
    rw [Index.sync, hdrop, if_pos hk, ← he]
    exact h
  have hw : overwrite (putEntries (new.take k++old.drop k)) (12*k) (putEntries (new.drop k)) =
      putEntries (new++old.drop new.length) := by
    have hlen : (new.take k).length = k := by simp [h.bound]
    have ht : (putEntries (new.take k++old.drop k)).take (12*k) = putEntries (new.take k) := by
      rw [putEntries_append, take_left' (by simp [h.bound])]
    have hd : (putEntries (new.take k++old.drop k)).drop
        (12*k+(putEntries (new.drop k)).length) = putEntries (old.drop new.length) := by
      have hb := h.bound
      have hn : 12*k+(putEntries (new.drop k)).length = 12*new.length := by
        rw [putEntries_length, length_drop]
        omega
      rw [hn, putEntries_drop, drop_append, hlen, drop_drop,
        drop_of_length_le (by omega), show k+(new.length-k) = new.length by omega,
        nil_append]
    have hz : 12*k-(putEntries (new.take k++old.drop k)).length = 0 := by
      rw [putEntries_length, length_append]
      omega
    rw [overwrite, ht, hd, hz, replicate_zero, append_nil, ← putEntries_append,
      take_append_drop, ← putEntries_append]
  rw [Index.sync, hdrop, if_neg hk]
  refine ⟨h.linked,h.ino,h.base,h.entries,?_,?_,le_refl _,?_⟩
  · simp [h.entries]
  · have hb := h.bound
    simp only [h.pos, putEntries_length, length_drop]
    omega
  · rw [take_length, ← hw]
    simp [h.ino, h.pos, h.data]

theorem during_run (base i : ℕ) (old : List IndexEntry) (t : ℤ) (ops : List Op)
    (new : List IndexEntry) (k : ℕ) (s : Fs P × Index P) (h : During path base i old new k s) :
    ∃ j, During path base i old (new++added base ops) j (runOps t ops s) := by
  induction ops generalizing new k s with
  | nil => exact ⟨k,by simpa [runOps, added] using h⟩
  | cons op ops ih =>
    cases op with
    | append o p =>
      obtain ⟨j,hj⟩ := ih _ k _ (during_append path base i old new k t o p s h)
      rw [append_assoc] at hj
      exact ⟨j,hj⟩
    | sync => exact ih _ _ _ (during_sync path base i old new k t s h)

/-- One session over a file that holds `old`: memory ends with `old` followed
by the new entries, the file with the new entries over the start of `old`. -/
theorem session_result (s : Session) (fs : Fs P) (old : List IndexEntry)
    (h : OnFile path old fs) (hr : ∀ e ∈ old, InRange e) :
    (session path base s fs).2 = old++added base s.ops ∧
    OnFile path (added base s.ops++old.drop (added base s.ops).length)
      (session path base s fs).1 := by
  obtain ⟨i,hl,hd⟩ := h
  obtain ⟨j,hj⟩ := during_run path base i old s.time s.ops [] 0 _
    (during_open path base s.time hl hd hr)
  have hc := during_sync path base i old _ j s.time _ hj
  refine ⟨hj.entries,i,hc.linked,?_⟩
  have hdata := hc.data
  rwa [take_length] at hdata

theorem session_reload (s : Session) (fs : Fs P) (old : List IndexEntry)
    (h : OnFile path old fs) (hr : ∀ e ∈ old, InRange e) (t : ℤ) :
    reload path base t (session path base s fs).1 =
      added base s.ops++old.drop (added base s.ops).length := by
  refine reload_onFile path base t _ (session_result path base s fs old h hr).2 ?_
  intro e he
  rcases mem_append.mp he with he | he
  · exact added_inRange base s.ops e he
  · exact hr e (mem_of_mem_drop he)

theorem overlap_iff {α : Type} {old new : List α} :
    new++old.drop new.length = old++new ↔ old = [] ∨ new = [] := by
  constructor
  · intro h
    have hl := congrArg List.length h
    simp only [length_append, length_drop] at hl
    rcases Nat.eq_zero_or_pos old.length with ho | ho
    · exact Or.inl (length_eq_zero_iff.mp ho)
    · exact Or.inr (length_eq_zero_iff.mp (by omega))
  · rintro (rfl | rfl) <;> simp

def appending (base : ℕ) (ss : List Session) : List Session :=
  ss.filter (fun s => added base s.ops ≠ [])

theorem persistent_from (ss : List Session) (fs : Fs P)
    (old : List IndexEntry) (h : OnFile path old fs) (hr : ∀ e ∈ old, InRange e) :
    Persistent path base old ss fs ↔
      if old = [] then (appending base ss).length ≤ 1 else appending base ss = [] := by
  induction ss generalizing fs old with
  | nil => simp [Persistent, appending]
  | cons s ss ih =>
    obtain ⟨hmem,hfile⟩ := session_result path base s fs old h hr
    have hload := session_reload path base s fs old h hr
    simp only [Persistent, hmem, hload, true_and, forall_const, overlap_iff]
    by_cases hn : added base s.ops = []
    · have hf : OnFile path old (session path base s fs).1 := by simpa [hn] using hfile
      have hsame : appending base (s::ss) = appending base ss := by simp [appending, hn]
      rw [hn, append_nil, ih _ old hf hr, hsame]
      simp
    have happ : appending base (s::ss) = s::appending base ss := by simp [appending, hn]
    by_cases ho : old = []
    · subst ho
      have hf : OnFile path (added base s.ops) (session path base s fs).1 := by simpa using hfile
      rw [nil_append, ih _ _ hf (added_inRange base s.ops), happ]
      simp [hn, length_eq_zero_iff]
    · simp [ho, hn, happ]

theorem openIndex_created :
    openIndex path base t (fs.openFile path t).1 = openIndex path base t fs := by
  rcases h : fs.disk.lookup path with _ | i
  · have hl : (fs.step (fun d => d.create path t)).disk.lookup path = some fs.disk.fresh := by
      simp [Fs.step, Disk.lookup_create]
    simp [openIndex, Fs.openFile_absent t h, Fs.openFile_present t hl]
  · simp [openIndex, Fs.openFile_present t h]

theorem created_onFile (h : fs.disk.lookup path = none) : OnFile path [] (fs.openFile path t).1 := by
  rw [Fs.openFile_absent t h]
  exact ⟨fs.disk.fresh,by simp [Fs.step, Disk.lookup_create],
    by simp [Fs.step, Disk.data_create, putEntries]⟩

/-- Over any number of sessions on a new file, every reopening finds the
entries of the previous close exactly when at most one session appends. -/
theorem index_persistent_iff (path : P) (base : ℕ) (ss : List Session) (fs : Fs P)
    (h : fs.disk.lookup path = none) :
    Persistent path base [] ss fs ↔ (appending base ss).length ≤ 1 := by
  cases ss with
  | nil => simp [Persistent, appending]
  | cons s ss =>
    have hf := persistent_from path base (s::ss) (fs.openFile path s.time).1 []
      (created_onFile path s.time fs h) (by simp)
    have he : session path base s (fs.openFile path s.time).1 = session path base s fs := by
      simp only [session, openIndex_created path base s.time fs]
    rw [if_pos rfl] at hf
    rw [← hf]
    simp only [Persistent, he]

/-- The second session appends nothing. -/
theorem single_writer_persists :
    Persistent () 7 [] [⟨0,[.append 7 0,.sync,.append 9 80]⟩,⟨5,[.sync]⟩] (Fs.boot Disk.empty) :=
  (index_persistent_iff () 7 _ (Fs.boot Disk.empty) rfl).mpr (by decide)

/-- Two sessions of one append each: the second entry replaces the first. -/
theorem second_writer_overwrites :
    ¬ Persistent () 0 [] [⟨0,[.append 0 0]⟩,⟨1,[.append 1 100]⟩] (Fs.boot Disk.empty) := by
  intro h
  have hr := h.2.2.2.1 2
  exact absurd hr (by decide +kernel)

end GoCommon.ForgeIndexSessions
