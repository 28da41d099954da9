import GoCommon.ForgeLogState
import GoCommon.ForgeRewrite

/-!
# Removing segments

Removing a segment flushes its index, which concerns no other segment with
frames, and frees its two names. The log that is left over represents the
remaining extents.
-/

set_option autoImplicit false

namespace GoCommon.ForgeLogRemoval
open List FileDisk ForgeIndex ForgeSegment ForgeExtents ForgeCommitLog ForgeLogState

variable (env : Env) (cl : CommitLog) (fs : Files) (s : Segment)

theorem close_touches (i : ℕ) : Disk.Touches i s.index.file.ino fs.disk (s.close env fs).disk := by
  unfold Segment.close Index.close Index.sync
  split
  · exact Disk.Touches.refl
  · exact Disk.touches_put_right

theorem close_clean (h : s.index.entries.drop s.index.dirtyFrom = []) : s.close env fs = fs := by
  simp [Segment.close, Index.close, Index.sync, h]

theorem remove_fresh : (s.remove env fs).disk.fresh = fs.disk.fresh := by
  exact (close_touches env fs s 0).fresh

section Removal
variable {env : Env} {fs : Files} {s : Segment} {a : Extent} (h : Keeps fs.disk s a)
include h

theorem remove_lookup (p : Path) : (s.remove env fs).disk.lookup p =
    if p.dir = .main ∧ p.base = a.base then none else fs.disk.lookup p := by
  have hc := (close_touches env fs s 0).lookup p
  rw [Segment.remove, Fs.disk_unlink, Fs.disk_unlink, Disk.lookup_unlink, Disk.lookup_unlink, hc,
    h.logName, h.idxName]
  obtain ⟨dir,base,ext⟩ := p
  cases ext <;> simp

theorem remove_data (k : ℕ) (hk : a.frames ≠ [] → k ≠ s.index.file.ino) :
    (s.remove env fs).disk.data k = fs.disk.data k := by
  rw [Segment.remove, Fs.disk_unlink, Fs.disk_unlink, Disk.data_unlink, Disk.data_unlink]
  by_cases hf : a.frames = []
  · rw [close_clean env fs s (h.unmarked hf)]
  · exact (close_touches env fs s s.index.file.ino).data k (hk hf) (hk hf)

end Removal

theorem live_transport {dir : Dir} {d d' : Disk Path} {s : Segment} {a : Extent}
    (h : Live dir d s a) (hl : d'.data s.logFile.ino = d.data s.logFile.ino)
    (hi : d'.data s.index.file.ino = d.data s.index.file.ino) : Live dir d' s a :=
  ⟨⟨h.written.logName,h.written.idxName,h.written.idxBase,by rw [hl]; exact h.written.data,
    h.written.size,h.written.small,h.written.apart,⟨by rw [hi]; exact h.written.flushed.data,
    h.written.flushed.dirty,h.written.flushed.position⟩,h.written.ranged,h.written.unmapped⟩,
    h.base,h.indexed,h.next⟩

theorem pairwise_middle {α : Type} {R : α → α → Prop} {xs zs : List α} {y : α}
    (h : (xs++y::zs).Pairwise R) :
    (xs++zs).Pairwise R ∧ (∀ x ∈ xs, R x y) ∧ ∀ z ∈ zs, R y z := by
  rw [pairwise_append, pairwise_cons] at h
  obtain ⟨h1,⟨h2,h3⟩,h4⟩ := h
  exact ⟨pairwise_append.mpr ⟨h1,h3,fun x hx z hz => h4 x hx z (by simp [hz])⟩,
    fun x hx => h4 x hx y (by simp),h2⟩

theorem remove_rep {pre post : List Held} {y last : Held}
    (h : Rep cl (pre++y::post) last) :
    Rep { cl with
      fs := y.1.remove env cl.fs
      segments := (pre++post++[last]).map Prod.fst } (pre++post) last := by
  have hy := h.keeps y (by simp)
  have hsub : ∀ z, z ∈ pre++post++[last] → z ∈ pre++y::post++[last] := by
    intro z hz
    simp only [mem_append, mem_cons] at hz ⊢
    tauto
  have hmem : ∀ z ∈ pre++y::post++[last], z.1 ∈ (pre++y::post++[last]).map Prod.fst :=
    fun z hz => mem_map_of_mem hz
  have hym : y ∈ pre++y::post++[last] := by simp
  have hord : (pre++y::(post++[last])).Pairwise (fun y z => y.2.finish ≤ z.2.base) := by
    simpa using h.ordered
  have hap : (pre++y::(post++[last])).Pairwise (fun y z => y.2.frames ≠ [] → Apart y.1 z.1) := by
    simpa using h.apart
  obtain ⟨ho,_,_⟩ := pairwise_middle hord
  obtain ⟨ha,hbefore,hafter⟩ := pairwise_middle hap
  have hdata : ∀ z ∈ pre++post++[last], (z ∈ pre → z.2.frames ≠ []) →
      (y.1.remove env cl.fs).disk.data z.1.logFile.ino = cl.fs.disk.data z.1.logFile.ino ∧
      (y.1.remove env cl.fs).disk.data z.1.index.file.ino = cl.fs.disk.data z.1.index.file.ino := by
    intro z hz hne
    refine ⟨remove_data hy _ (fun _ => h.tidy.kinds _ (hmem z (hsub z hz)) _ (hmem y hym)),
      remove_data hy _ (fun hyne => ?_)⟩
    rw [append_assoc] at hz
    rcases mem_append.mp hz with hz | hz
    · exact (hbefore z hz (hne hz)).2
    · exact Ne.symm (hafter z hz hyne).2
  have hlook : ∀ p i, (y.1.remove env cl.fs).disk.lookup p = some i →
      cl.fs.disk.lookup p = some i := by
    intro p i hp
    rw [remove_lookup hy] at hp
    split at hp
    · cases hp
    · exact hp
  refine ⟨rfl,h.current,h.next,h.opened,?_,?_,by simpa using ho,by simpa using ha,?_,?_,?_⟩
  · have hl := hdata last (by simp) (fun hm => (h.ptr_ne last (by simp [hm]) rfl).elim)
    exact live_transport h.live hl.1 hl.2
  · intro z hz
    have hz' : z ∈ pre++post++[last] := mem_append_left _ hz
    refine (h.keeps z ?_).transport (fun hne => hdata z hz' (fun _ => hne))
    simp only [mem_append, mem_cons] at hz ⊢
    tauto
  · refine h.ptrs.sublist (List.Sublist.map _ ?_)
    exact List.Sublist.append (List.Sublist.append (List.Sublist.refl _) (by simp)) (by simp)
  · exact fun z hz => h.allocated z (hsub z hz)
  have ht : Tidy cl.fs.disk ((pre++post++[last]).map Prod.fst) cl.nextOffset := by
    refine h.tidy.subset (fun s hs => ?_)
    obtain ⟨z,hz,rfl⟩ := mem_map.mp hs
    exact hmem z (hsub z hz)
  refine ⟨?_,?_,?_,?_,?_,?_,ht.kinds⟩
  · intro p i hp
    rw [remove_fresh]
    exact ht.named p i (hlook p i hp)
  · exact fun p q i hp hq => ht.single p q i (hlook p i hp) (hlook q i hq)
  · intro p i hp hl
    have hl' := hlook p i hl
    rw [remove_data hy i ?_]
    · exact ht.spare p i hp hl'
    rintro hne rfl
    have hb := h.tidy.idxs y.1 (hmem y hym) p hl'
    have hlt := lt_of_lt_of_le (y.2.base_lt_finish hne) (h.finish_le_next y hym)
    rw [← hy.base] at hlt
    rw [hb] at hp
    dsimp only at hp
    omega
  · intro s hs
    rw [remove_fresh]
    exact ht.handles s hs
  · exact fun s hs p hp => ht.logs s hs p (hlook p _ hp)
  · exact fun s hs p hp => ht.idxs s hs p (hlook p _ hp)

/-! ## Removing several segments -/

section Rules
variable (env : Env) {I : Files → List Held → Prop} {G : Held → Prop}
  (hstep : ∀ fs pre y post, G y → I fs (pre++y::post) → I (y.1.remove env fs) (pre++post))
include hstep

theorem retain_rule (gone : ℤ → Segment → Bool) (last : Held)
    (hg : ∀ t, gone t last.1 = false) (rest kept : List Held) (total : ℤ) (fs fs' : Files)
    (keep : List Segment) (hG : ∀ y ∈ rest, G y) (h : I fs (kept++rest))
    (hr : retain env gone total ((rest++[last]).map Prod.fst) fs = (fs',keep)) :
    ∃ left, left.Sublist rest ∧ keep = (left++[last]).map Prod.fst ∧ I fs' (kept++left) := by
  induction rest generalizing kept total fs fs' keep with
  | nil =>
    simp only [nil_append, map_cons, map_nil, retain, hg, Bool.false_eq_true,
      if_false, Prod.mk.injEq] at hr
    obtain ⟨rfl,rfl⟩ := hr
    exact ⟨[],List.Sublist.refl _,rfl,h⟩
  | cons y rest ih =>
    rw [cons_append, map_cons, retain] at hr
    split at hr
    · obtain ⟨left,hs,hk,hi⟩ := ih kept _ _ _ _ (fun z hz => hG z (by simp [hz]))
        (hstep fs kept y rest (hG y (by simp)) h) hr
      exact ⟨left,hs.cons y,hk,hi⟩
    rcases hx : retain env gone total ((rest++[last]).map Prod.fst) fs with ⟨fs1,keep1⟩
    simp only [hx, Prod.mk.injEq] at hr
    obtain ⟨rfl,rfl⟩ := hr
    obtain ⟨left,hs,hk,hi⟩ := ih (kept++[y]) _ _ _ _ (fun z hz => hG z (by simp [hz]))
      (by simpa using h) hx
    exact ⟨y::left,hs.cons_cons y,by simp [hk],by simpa using hi⟩

theorem removeAll_rule (pre gone post : List Held) (fs : Files) (hG : ∀ y ∈ gone, G y)
    (h : I fs (pre++gone++post)) :
    I ((gone.map Prod.fst).foldl (fun fs s => s.remove env fs) fs) (pre++post) := by
  induction gone generalizing fs with
  | nil => simpa using h
  | cons y gone ih =>
    refine ih _ (fun z hz => hG z (by simp [hz])) ?_
    have := hstep fs pre y (gone++post) (hG y (by simp)) (by simpa using h)
    simpa using this

end Rules

def withFiles (cl : CommitLog) (last : Held) (fs : Files) (held : List Held) : CommitLog :=
  { cl with fs := fs, segments := (held++[last]).map Prod.fst }

theorem withFiles_self {held : List Held} (last : Held)
    (h : cl.segments = (held++[last]).map Prod.fst) : withFiles cl last cl.fs held = cl := by
  rw [withFiles, ← h]

theorem withFiles_step {last : Held} {fs : Files} {pre : List Held} {y : Held} {post : List Held}
    (h : Rep (withFiles cl last fs (pre++y::post)) (pre++y::post) last) :
    Rep (withFiles cl last (y.1.remove env fs) (pre++post)) (pre++post) last :=
  remove_rep env _ h

theorem filter_others {pre gone post : List Held} {last : Held}
    (hp : ((pre++gone++post++[last]).map (fun y => y.1.ptr)).Nodup) :
    ((pre++gone++post++[last]).map Prod.fst).filter
      (fun s => s.ptr ∉ (gone.map Prod.fst).map Segment.ptr) =
    (pre++post++[last]).map Prod.fst := by
  simp only [append_assoc, map_append, nodup_append] at hp
  have hin : ∀ xs : List Held, (∀ x ∈ xs, ∀ g ∈ gone, x.1.ptr ≠ g.1.ptr) →
      (xs.map Prod.fst).filter (fun s => s.ptr ∉ (gone.map Prod.fst).map Segment.ptr) =
      xs.map Prod.fst := by
    intro xs hx
    rw [filter_eq_self]
    intro s hs
    obtain ⟨x,hxm,rfl⟩ := mem_map.mp hs
    simp only [map_map, mem_map, Function.comp_apply, not_exists, not_and,
      decide_eq_true_eq]
    exact fun g hg he => hx x hxm g hg he.symm
  have hout : (gone.map Prod.fst).filter
      (fun s => s.ptr ∉ (gone.map Prod.fst).map Segment.ptr) = [] := by
    rw [filter_eq_nil_iff]
    intro s hs
    simpa using ⟨s,by simpa using hs,rfl⟩
  obtain ⟨_,⟨_,hpost,hgp⟩,hpg⟩ := hp
  have hpre : ∀ x ∈ pre, ∀ g ∈ gone, x.1.ptr ≠ g.1.ptr := fun x hx g hg =>
    hpg _ (mem_map_of_mem hx) _ (mem_append_left _ (mem_map_of_mem hg))
  have htail : ∀ x ∈ post++[last], ∀ g ∈ gone, x.1.ptr ≠ g.1.ptr := fun x hx g hg => by
    refine Ne.symm (hgp _ (mem_map_of_mem hg) _ ?_)
    rw [← map_append]
    exact mem_map_of_mem hx
  rw [append_assoc, append_assoc, map_append, filter_append, hin pre hpre,
    map_append, filter_append, hout, hin _ htail]
  simp

end GoCommon.ForgeLogRemoval
