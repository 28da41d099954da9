import GoCommon.ForgeUpkeep
import GoCommon.ForgeLogInvariant

/-!
# Opening a log over its files

A directory holds an extent when the files of its base offset hold its frames
and marks of them. Opening a log over such files whose batches all decode and
fit the recovery window finds every frame again and changes no file. Staged
files are moved into place first, and bytes after the last batch are cut off.
-/

set_option autoImplicit false

namespace GoCommon.ForgeReopen
open List FileDisk ForgeRecord ForgeIndex ForgeSegment ForgeFrames ForgeRecovery ForgeExtents
open ForgeCommitLog ForgeLogState ForgeLogSwap ForgeLogRewrites ForgeLogInvariant ForgeLogView
open ForgeUpkeep

structure Shelved (d : Disk Path) (a : Extent) : Prop where
  files : ∃ i j entries, i ≠ j ∧ d.lookup ⟨.main,a.base,.log⟩ = some i ∧
    d.lookup ⟨.main,a.base,.idx⟩ = some j ∧ d.data i = raw a.frames ∧
    d.data j = putEntries entries ∧ entries.Sublist (marks a.base 0 a.frames)
  small : (raw a.frames).length ≤ maxFileSize

def Scannable (lz4 : Lz4) (a : Extent) : Prop :=
  ∀ f ∈ a.frames, f.Readable lz4 ∧ f.bytes.length ≤ recoverChunkSize

structure Loaded (d : Disk Path) (s : Segment) (a : Extent) : Prop where
  keeps : Keeps d s a
  next : s.nextOffset = a.finish
  indexed : s.index.entries.Sublist (marks a.base 0 a.frames)

def Frayed (lz4 : Lz4) (d : Disk Path) (a : Extent) : Prop := ∃ i j rest es, i ≠ j ∧
  d.lookup ⟨.main,a.base,.log⟩ = some i ∧ d.lookup ⟨.main,a.base,.idx⟩ = some j ∧
  d.data i = raw a.frames++rest ∧ d.data j = putEntries es ∧
  nextBatch lz4 rest = .ok none ∧ rest.length ≤ recoverChunkSize ∧
  (raw a.frames++rest).length ≤ maxFileSize ∧
  (es.Sublist (marks a.base 0 a.frames) ∨ raw a.frames++rest = [] ∧
    ∃ fs, es.Sublist (marks a.base 0 fs) ∧ (raw fs).length ≤ maxFileSize)

structure Mended (d : Disk Path) (s : Segment) (a : Extent) : Prop where
  keeps : Keeps d s a
  next : s.nextOffset = a.finish
  indexed : a.frames ≠ [] → s.index.entries.Sublist (marks a.base 0 a.frames)

variable {s : Segment} {a : Extent}

variable (lz4 : Lz4) {d : Disk Path} {cl : CommitLog} (fs : Files) (env : Env) {ys : List Held}

theorem shelved_frayed (h : Shelved d a) : Frayed lz4 d a := by
  obtain ⟨⟨i,j,es,hij,hi,hj,hdi,hdj,hsub⟩,hsmall⟩ := h
  exact ⟨i,j,[],es,hij,hi,hj,by simpa using hdi,hdj,rfl,Nat.zero_le _,by simpa using hsmall,.inl hsub⟩

theorem Loaded.sealed {d : Disk Path} (h : Loaded d s a) (env : Env) :
    Loaded d (s.sealSegment env) a :=
  ⟨h.keeps.sealed env,by rw [sealSegment_next]; exact h.next,
    by rw [sealSegment_index]; exact h.indexed⟩

theorem advance_finish {pre post : List Frame} (h : a.frames = pre++post)
    (hp : a.frames ≠ [] → post ≠ []) (hr : ∀ f ∈ post, f.Readable lz4) :
    advance a.base (post.map (Frame.batch lz4)) = a.finish := by
  have hend : ∀ f ∈ post, endOffset (f.batch lz4) = f.stop := fun f hf => Frame.batch_end (hr f hf)
  refine le_antisymm (advance_le _ _ _ a.base_le_finish ?_) ?_
  · intro b hb
    obtain ⟨f,hf,rfl⟩ := mem_map.mp hb
    rw [hend f hf]
    exact a.stop_le_finish f (by simp [h, hf])
  rcases eq_nil_or_concat post with hn | ⟨gs,g,hg⟩
  · have hz : a.frames = [] := by
      by_contra hne
      exact hp hne hn
    rw [a.finish_nil hz]
    exact le_advance _ _
  · rw [concat_eq_append] at hg
    rw [a.finish_last (pre++gs) g (by rw [h, hg, append_assoc]), ← hend g (by simp [hg])]
    exact end_le_advance (mem_map_of_mem (by simp [hg]))

theorem marked_boundary (idx : Index Path) (base : ℕ) (fs : List Frame)
    (h : idx.entries.Sublist (marks base 0 fs)) : ∃ pre post, fs = pre++post ∧
      (fs ≠ [] → post ≠ []) ∧ markedPosition idx = (raw pre).length := by
  by_cases hn : fs = []
  · rw [hn, marks, sublist_nil] at h
    exact ⟨[],[],hn,fun hne => absurd hn hne,by simp [markedPosition, Index.lastEntry, h]⟩
  · obtain ⟨pre,post,hs,hp,hm⟩ := marked_split idx base fs hn h
    exact ⟨pre,post,hs,fun _ => hp,hm⟩

/-- Opening the files of an extent finds its frames and cuts off what follows them. -/
theorem openSegment_mends (ptr : ℕ) {fs : Files}
    (h : Frayed lz4 fs.disk a) (hc : Scannable lz4 a) : ∃ fs' s,
      openSegment lz4 env .main a.base ptr fs = (fs',.ok s) ∧ Linked fs.disk s ∧
      Disk.Touches s.logFile.ino s.logFile.ino fs.disk fs'.disk ∧ Mended fs'.disk s a ∧
      s.index.entries = loadEntries (fs.disk.data s.index.file.ino) ∧
      (Shelved fs.disk a → fs' = fs) := by
  obtain ⟨i,j,rest,es,hij,hi,hj,hdi,hdj,hnone,hrest,hsmall,hmark⟩ := h
  have hrange : ∀ e ∈ es, InRange e := by
    intro e he
    rcases hmark with hsub | ⟨_,gs,hsub,hgs⟩
    · exact mark_inRange (hsub.subset he) (by rw [length_append] at hsmall; omega)
    · exact mark_inRange (hsub.subset he) hgs
  have hload : loadEntries (fs.disk.data j) = es := by rw [hdj, loadEntries_put es hrange]
  have hlost : ∃ lost, es.Sublist (marks a.base 0 (a.frames++lost)) := by
    rcases hmark with hsub | ⟨hz,gs,hsub,_⟩
    · exact ⟨[],by simpa using hsub⟩
    · rw [(raw_eq_nil _).mp (append_eq_nil_iff.mp hz).1]
      exact ⟨gs,hsub⟩
  rw [openSegment_existing lz4 env ptr hi hj, hload, hdi]
  by_cases hz : raw a.frames++rest = []
  · -- an empty log: nothing is scanned
    have hf : a.frames = [] := (raw_eq_nil _).mp (append_eq_nil_iff.mp hz).1
    rw [hz]
    refine ⟨fs,_,rfl,⟨hi,hj⟩,Disk.Touches.refl,⟨⟨rfl,rfl,rfl,rfl,by simp [hf],Nat.zero_le _,
      by simp [hf],by simp,hlost,le_of_eq (a.finish_nil hf).symm,by simp,fun hne => absurd hf hne⟩,
      (a.finish_nil hf).symm,fun hne => absurd hf hne⟩,hload.symm,fun _ => rfl⟩
  have hsub : es.Sublist (marks a.base 0 a.frames) := hmark.resolve_right (fun hm => hz hm.1)
  obtain ⟨pre,post,hsplit,hpost,hpos⟩ := marked_boundary
    ⟨⟨⟨.main,a.base,.idx⟩,j,0⟩,es,a.base,es.length⟩ a.base a.frames hsub
  have hlt : (raw pre).length < (raw a.frames++rest).length := by
    rw [length_append, hsplit, raw_append, length_append]
    by_cases hf : a.frames = []
    · rw [hf, raw_nil, nil_append] at hz
      have := length_pos_iff.mpr hz
      omega
    · have := raw_length_pos (hpost hf)
      omega
  have hmem : ∀ f ∈ post, f ∈ a.frames := fun f hf => by rw [hsplit]; simp [hf]
  have hw := windowed_batches lz4 (raw a.frames++rest) (raw pre).length a.base (le_of_lt hlt)
    (pieces lz4 post) rest (pieces_piece lz4 post (fun f hf => (hc f (hmem f hf)).1))
    (by
      intro q hq
      obtain ⟨f,hf,rfl⟩ := mem_map.mp hq
      exact (hc f (hmem f hf)).2)
    (by rw [flat_pieces, hsplit, raw_append, append_assoc, drop_left]) hnone hrest
  rw [pieces_snd, advance_finish lz4 hsplit hpost (fun f hf => (hc f (hmem f hf)).1),
    length_append, Nat.add_sub_cancel] at hw
  rw [recover_scans lz4 env fs _ (by rw [hdi]) (by rw [hpos]; exact hlt)]
  rw [hpos, hdi, hw]
  refine ⟨_,_,rfl,⟨hi,hj⟩,?_,?_,hload.symm,?_⟩
  · dsimp only
    split
    · exact Disk.touches_put_left
    · exact Disk.Touches.refl
  · have hdata : ∀ d' : Files, d' = (if (raw a.frames).length < (raw a.frames++rest).length then
        fs.truncate i (raw a.frames).length env.written else fs) →
        raw a.frames <+: d'.disk.data i ∧ d'.disk.data j = putEntries es := by
      rintro d' rfl
      split
      · rw [Fs.disk_truncate, Disk.data_put_self, Disk.data_put_other _ _ (Ne.symm hij), hdi,
          take_left]
        exact ⟨prefix_refl _,hdj⟩
      · rw [hdi]
        exact ⟨prefix_append _ _,hdj⟩
    obtain ⟨h1,h2⟩ := hdata _ rfl
    refine ⟨⟨rfl,rfl,rfl,rfl,rfl,?_,h1,by simp,hlost,le_refl _,by simp,fun _ =>
      ⟨?_,le_refl _,.inr rfl⟩⟩,rfl,fun _ => hsub⟩
    · rw [length_append] at hsmall
      dsimp only
      omega
    · rw [h2, take_length]
  rintro ⟨⟨i',j',es',_,hi',_,hdi',_⟩,_⟩
  rw [hi] at hi'
  cases hi'
  rw [hdi] at hdi'
  rw [hdi', if_neg (lt_irrefl _)]

theorem openSegment_loads (ptr : ℕ) {fs : Files}
    (hs : Shelved fs.disk a) (hc : Scannable lz4 a) : ∃ s,
      openSegment lz4 env .main a.base ptr fs = (fs,.ok s) ∧ Loaded fs.disk s a := by
  obtain ⟨fs',s,ho,hl,_,hm,he,hsame⟩ := openSegment_mends lz4 env ptr (shelved_frayed lz4 hs) hc
  obtain rfl := hsame hs
  obtain ⟨⟨i,j,es,_,_,hj,_,hdj,hsub⟩,hsmall⟩ := hs
  have hino := hl.2
  rw [hm.keeps.base, hj, Option.some.injEq] at hino
  rw [← hino, hdj, loadEntries_put es (fun e h => mark_inRange (hsub.subset h) hsmall)] at he
  exact ⟨s,ho,hm.keeps,hm.next,by rw [he]; exact hsub⟩

theorem loadSegments_loads (fs : Files) (as : List Extent)
    (h : ∀ a ∈ as, Shelved fs.disk a ∧ Scannable lz4 a) (ptr : ℕ) : ∃ ss,
      loadSegments lz4 env (as.map Extent.base) ptr fs = (fs,.ok ss) ∧
      List.Forall₂ (Loaded fs.disk) ss as := by
  induction as generalizing ptr with
  | nil => exact ⟨[],rfl,.nil⟩
  | cons a as ih =>
    obtain ⟨hs,hc⟩ := h a (by simp)
    obtain ⟨s,ho,hl⟩ := openSegment_loads lz4 env ptr hs hc
    obtain ⟨ss,hss,hall⟩ := ih (fun b hb => h b (by simp [hb])) (ptr+1)
    refine ⟨s::ss,?_,.cons hl hall⟩
    rw [map_cons, loadSegments, ho]
    dsimp only
    rw [hss]

/-! ## The directory -/

theorem recoverStaging_unstaged (h : Unstaged fs.disk) : recoverStaging fs = fs := by
  have hn : stagedPaths fs = [] := by
    rw [stagedPaths, filter_eq_nil_iff]
    intro p hp hd
    have hl := h p (by simpa using hd)
    rw [Disk.lookup, AList.lookup_eq_none] at hl
    exact hl hp
  rw [recoverStaging]
  simp [removeStaging, hn, Fs.unlinkAll]

theorem baseOffsets_eq {bs : List ℕ} (hs : bs.Pairwise (· < ·))
    (h : ∀ b, (∃ i, fs.disk.lookup ⟨.main,b,.log⟩ = some i) ↔ b ∈ bs) : baseOffsets fs = bs := by
  have hmem : ∀ b, b ∈ (fs.disk.names.keys.filter (fun p => p.dir = .main ∧ p.ext = .log)).map
      Path.base ↔ b ∈ bs := by
    intro b
    rw [← h b]
    constructor
    · intro hb
      obtain ⟨⟨dir,base,ext⟩,hp,rfl⟩ := mem_map.mp hb
      obtain ⟨hk,hd⟩ := mem_filter.mp hp
      simp only [decide_eq_true_eq] at hd
      obtain ⟨rfl,rfl⟩ := hd
      exact Option.isSome_iff_exists.mp (AList.lookup_isSome.mpr hk)
    · rintro ⟨i,hi⟩
      refine mem_map.mpr ⟨⟨.main,b,.log⟩,mem_filter.mpr ⟨?_,by simp⟩,rfl⟩
      exact AList.lookup_isSome.mp (Option.isSome_iff_exists.mpr ⟨i,hi⟩)
  have hnodup : ((fs.disk.names.keys.filter (fun p => p.dir = .main ∧ p.ext = .log)).map
      Path.base).Nodup := by
    refine List.Nodup.map_on ?_ (fs.disk.names.keys_nodup.filter _)
    rintro ⟨d1,b1,e1⟩ h1 ⟨d2,b2,e2⟩ h2 hb
    have h1' := (mem_filter.mp h1).2
    have h2' := (mem_filter.mp h2).2
    simp only [decide_eq_true_eq] at h1' h2' hb
    simp [h1'.1, h1'.2, h2'.1, h2'.2, hb]
  have hperm := (perm_ext_iff_of_nodup hnodup (hs.imp (fun h => Nat.ne_of_lt h))).mpr hmem
  exact List.Perm.eq_of_pairwise (fun a b _ _ h1 h2 => le_antisymm h1 h2)
    (pairwise_insertionSort _ _) (hs.imp (fun h => le_of_lt h))
    ((perm_insertionSort _ _).trans hperm)

theorem columns {α β : Type} {R : α → β → Prop} {xs : List α} {ys : List β}
    (h : List.Forall₂ R xs ys) : ∃ zs : List (α × β), zs.map Prod.fst = xs ∧
      zs.map Prod.snd = ys ∧ ∀ z ∈ zs, R z.1 z.2 := by
  induction h with
  | nil => exact ⟨[],rfl,rfl,by simp⟩
  | cons hr _ ih =>
    obtain ⟨zs,h1,h2,h3⟩ := ih
    refine ⟨(_,_)::zs,by rw [map_cons, h1],by rw [map_cons, h2],?_⟩
    intro z hz
    rcases mem_cons.mp hz with rfl | hz
    · exact hr
    · exact h3 z hz

theorem openedLog_listing (fs : Files) {ss : List Segment} {as : List Extent}
    {R : Segment → Extent → Prop} (hk : ∀ s x, R s x → Keeps fs.disk s x)
    (hR : ∀ s x, R s x → R (s.sealSegment env) x)
    (hs : (as++[a]).Pairwise (fun x y => x.base < y.base)) (h : List.Forall₂ R ss (as++[a])) :
    ∃ s ys, ss.getLast? = some s ∧ Listing (openedLog env fs ss.dropLast s) ys ∧
      ys.map Prod.snd = as++[a] ∧ (∀ y ∈ ys, R y.1 y.2) ∧ R s a := by
  have hback := forall₂_drop_append ss as [a] h
  obtain ⟨s,rest,hl,hrest,hdrop⟩ := forall₂_cons_right_iff.mp hback
  obtain rfl := forall₂_nil_right_iff.mp hrest
  have hss : ss = ss.take as.length++[s] := by rw [← hdrop, take_append_drop]
  obtain ⟨zs,hz1,hz2,hz3⟩ := columns (forall₂_take_append ss as [a] h)
  have hsnd : (zs.map (fun z => (z.1.sealSegment env,z.2))++[(s,a)]).map Prod.snd = as++[a] := by
    rw [map_append, map_map, ← hz2]
    rfl
  have hmem : ∀ y ∈ zs.map (fun z => (z.1.sealSegment env,z.2))++[(s,a)], R y.1 y.2 := by
    intro y hy
    rcases mem_append.mp hy with hy | hy
    · obtain ⟨z,hz,rfl⟩ := mem_map.mp hy
      exact hR _ _ (hz3 z hz)
    · rw [mem_singleton.mp hy]
      exact hl
  refine ⟨s,_,by rw [hss, List.getLast?_concat],⟨?_,rfl,fun y hy => hk _ _ (hmem y hy),?_⟩,hsnd,
    hmem,hl⟩
  · rw [openedLog, hss, ← hz1]
    simp [Function.comp_def]
  · rw [← pairwise_map (f := Prod.snd) (R := fun x y : Extent => x.base ≤ y.base), hsnd]
    exact hs.imp (fun hlt => le_of_lt hlt)

structure Reloaded (cl : CommitLog) (ys : List Held) : Prop where
  listing : Listing cl ys
  next : ∀ y ∈ ys, y.1.nextOffset = y.2.finish
  indexed : ∀ y ∈ ys, y.1.index.entries.Sublist (marks y.2.base 0 y.2.frames)
  newest : ∀ y ∈ ys.getLast?, cl.nextOffset = y.2.finish

/-- Opening a directory that holds exactly some extents in order changes no
file and loads every extent. -/
theorem newCommitLog_loads {fs : Files} {as : List Extent}
    (hu : Unstaged fs.disk) (hs : (as++[a]).Pairwise (fun x y => x.base < y.base))
    (hb : ∀ b, (∃ i, fs.disk.lookup ⟨.main,b,.log⟩ = some i) ↔ b ∈ (as++[a]).map Extent.base)
    (h : ∀ x ∈ as++[a], Shelved fs.disk x ∧ Scannable lz4 x) : ∃ cl ys,
      newCommitLog lz4 env fs = (fs,.ok cl) ∧ cl.fs = fs ∧ ys.map Prod.snd = as++[a] ∧
      Reloaded cl ys := by
  have hbase := baseOffsets_eq fs (pairwise_map.mpr hs) hb
  obtain ⟨ss,hload,hall⟩ := loadSegments_loads lz4 env fs (as++[a]) h 0
  obtain ⟨s,ys,hlast,hlist,hys,hmem,hsa⟩ := openedLog_listing env fs
    (fun _ _ hl => hl.keeps) (fun _ _ hl => hl.sealed env) hs hall
  refine ⟨_,ys,?_,rfl,hys,hlist,fun y hy => (hmem y hy).next,fun y hy => (hmem y hy).indexed,?_⟩
  · simp only [newCommitLog, recoverStaging_unstaged fs hu, hbase, hload, hlast]
  intro y hy
  have hlasty := congrArg List.getLast? hys
  rw [List.getLast?_map, Option.mem_def.mp hy, List.getLast?_concat, Option.map_some,
    Option.some.injEq] at hlasty
  rw [hlasty]
  exact hsa.next

/-! ## Reading -/

theorem listing_batches (h : Listing cl ys)
    (hr : ∀ y ∈ ys, ∀ f ∈ y.2.frames, f.Readable lz4) : storedBatches lz4 cl =
      (framesOf ys).map (Frame.batch lz4) := by
  rw [storedBatches, h.listed, flatMap_map, framesOf, map_flatMap]
  refine flatMap_congr (fun y hy => ?_)
  rw [segmentBatches, (h.keeps y hy).take, scan_whole lz4 (hr y hy)]

def ReadsBack (lz4 : Lz4) (cl : CommitLog) : Prop :=
  ∀ m, (∀ s ∈ cl.segments, Unbounded m s) → ∀ s ∈ cl.segments, ∀ pre b post,
    segmentBatches lz4 cl.fs s = pre++b::post → cl.read lz4 b.baseOffset m = .ok (b::post)

theorem read_at (h : Listing cl ys) {y : Held} (hy : y ∈ ys) {o : ℕ} (m : ℤ) (hle : y.2.base ≤ o)
    (hafter : ∀ lo z hi, ys = lo++z::hi → y ∈ lo → o < z.2.base) :
    cl.read lz4 o m = y.1.readFrom lz4 cl.fs o m := by
  obtain ⟨lo,z,hi,hp,_,hz⟩ := h.picked lz4 (ne_nil_of_mem hy) o
  have hyz : y = z := by
    have hin := hy
    rw [hp.parts, mem_append, mem_cons] at hin
    rcases hin with hin | hin | hin
    · have hlt := hafter lo z hi hp.parts hin
      rcases hp.upTo with hu | hu
      · omega
      · rw [hu] at hin
        cases hin
    · exact hin
    · have := hp.after y hin
      omega
  rw [hz m, hyz]

theorem pending_at (o : ℕ) (pre post : List Frame) (f : Frame)
    (hs : (pre++f::post).Pairwise (fun f g => f.stop ≤ g.base)) (hle : f.base ≤ o)
    (hlt : o < f.stop) : pending o (pre++f::post) = f::post := by
  rw [pairwise_append, pairwise_cons] at hs
  have hrest : ∀ g ∈ f::post, o < g.stop := by
    intro g hg
    rcases mem_cons.mp hg with rfl | hg
    · exact hlt
    · have := hs.2.1.1 g hg
      have := g.base_lt_stop
      omega
  rw [pending_append, pending_nil o pre (fun g hg => le_trans (hs.2.2 g hg f (by simp)) hle),
    pending_all o _ hrest, nil_append]

theorem listing_readsBack (h : Listing cl ys)
    (hs : ∀ y ∈ ys, Sound lz4 y) (ho : ys.Pairwise (fun y z => y.2.finish ≤ z.2.base)) :
    ReadsBack lz4 cl := by
  intro m hm s hmem pre b post hb
  rw [h.listed] at hmem
  obtain ⟨y,hy,rfl⟩ := mem_map.mp hmem
  rw [segmentBatches_clean lz4 (h.keeps y hy) (hs y hy).clean] at hb
  obtain ⟨fpre,rest,hframes,rfl,hrest⟩ := map_eq_append_iff.mp hb
  obtain ⟨f,fpost,rfl,rfl,rfl⟩ := map_eq_cons_iff.mp hrest
  have hread := ((hs y hy).clean f (by simp [hframes])).readable
  have hfin := y.2.stop_le_finish f (by simp [hframes])
  have hsorted := y.2.sorted
  rw [hframes] at hsorted
  rw [(Frame.batch_base hread).1, read_at lz4 h hy m (y.2.above f (by simp [hframes])) ?_,
    readFrom_unbounded lz4 cl.fs y f.base m (h.keeps y hy) (hs y hy)
      (hm y.1 (by rw [h.listed]; exact mem_map_of_mem hy)), hframes,
    pending_at f.base fpre fpost f hsorted (le_refl _) f.base_lt_stop]
  · rfl
  · intro lo z hi hsplit hlo
    rw [hsplit, pairwise_append] at ho
    exact lt_of_lt_of_le f.base_lt_stop (le_trans hfin (ho.2.2 y hlo z (by simp)))

end GoCommon.ForgeReopen
