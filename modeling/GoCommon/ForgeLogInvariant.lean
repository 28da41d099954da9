import GoCommon.ForgeLogRuns

/-!
# Order of the segments

In a log whose segments have strictly increasing base offsets no two segments
share a file. Every call preserves this order as long as an append never rolls
an empty active segment, merge candidates are adjacent and written batches fit
their length field. Rolling an empty segment opens its own files again.
-/

set_option autoImplicit false

namespace GoCommon.ForgeLogInvariant
open List FileDisk StepRuns ForgeRecord ForgeSegment ForgeExtents ForgeCommitLog ForgeLogState
open ForgeLogRemoval ForgeRewrite ForgeLogSwap ForgeLogRewrites ForgeLogRuns

def Linked (d : Disk Path) (s : Segment) : Prop :=
  d.lookup ⟨.main,s.baseOffset,.log⟩ = some s.logFile.ino ∧
    d.lookup ⟨.main,s.baseOffset,.idx⟩ = some s.index.file.ino

structure Ordered (cl : CommitLog) : Prop where
  bases : cl.segments.Pairwise (fun s t => s.baseOffset < t.baseOffset)
  active : ∃ s, cl.segments.getLast? = some s ∧ cl.active = some s ∧ cl.nextOffset = s.nextOffset
  chained : cl.segments.IsChain (fun s t => s.nextOffset ≤ t.baseOffset)

structure Separate (cl : CommitLog) : Prop where
  linked : ∀ s ∈ cl.segments, Linked cl.fs.disk s
  apart : cl.segments.Pairwise Apart
  spared : ∀ env, ∀ s ∈ cl.segments, s.ptr ≠ cl.activeSegment → ∀ t ∈ cl.active,
    Linked (s.remove env cl.fs).disk t

/-! ## The invariant -/

structure Neat (d : Disk Path) (ys : List Held) : Prop where
  unstaged : Unstaged d
  bases : ys.Pairwise (fun y z => y.2.base < z.2.base)
  linked : ∀ y ∈ ys, Linked d y.1

structure Sorted (cl : CommitLog) (held : List Held) (last : Held) : Prop where
  rep : Rep cl held last
  neat : Neat cl.fs.disk (held++[last])
  bounded : cl.nextOffset < 2^64

variable {cl cl' : CommitLog} {held pre gone post : List Held} {last : Held} {d d' : Disk Path}

theorem linked_congr {s t : Segment} (h : Linked d s)
    (hs : files t = files s) (hd : ∀ p, p.dir = .main → p.base = s.baseOffset →
      d'.lookup p = d.lookup p) : Linked d' t := by
  simp only [files, Prod.mk.injEq] at hs
  rw [Linked, hs.1, hs.2.1, hs.2.2, hd _ rfl rfl, hd _ rfl rfl]
  exact h

variable (lz4 : Lz4) (cfg : Config) (env : Env)

theorem Sorted.ordered (h : Sorted cl held last) : Ordered cl := by
  have hk := h.rep.keeps_all
  refine ⟨?_,⟨last.1,?_,h.rep.active,?_⟩,?_⟩
  · rw [h.rep.listed, pairwise_map]
    refine h.neat.bases.imp_of_mem (fun {y z} hy hz hlt => ?_)
    rw [(hk y hy).base, (hk z hz).base]
    exact hlt
  · simp [h.rep.listed]
  · rw [h.rep.next, h.rep.live.next]
  rw [h.rep.listed]
  refine List.Pairwise.isChain (pairwise_map.mpr ?_)
  refine h.rep.ordered.imp_of_mem (fun {y z} hy hz hle => ?_)
  rw [(hk z hz).base]
  exact le_trans (hk y hy).reach hle

theorem Sorted.separate (h : Sorted cl held last) : Separate cl := by
  have hk := h.rep.keeps_all
  have hb := h.neat.bases
  refine ⟨?_,?_,?_⟩
  · intro s hs
    rw [h.rep.listed] at hs
    obtain ⟨y,hy,rfl⟩ := mem_map.mp hs
    exact h.neat.linked y hy
  · rw [h.rep.listed, pairwise_map]
    refine hb.imp_of_mem (fun {y z} hy hz hlt => ?_)
    rw [← (hk y hy).base, ← (hk z hz).base] at hlt
    have h1 := h.neat.linked y hy
    have h2 := h.neat.linked z hz
    constructor
    · intro he
      have := h.rep.tidy.single _ _ _ h1.1 (he ▸ h2.1)
      simp only [ForgeSegment.Path.mk.injEq] at this
      omega
    intro he
    have := h.rep.tidy.single _ _ _ h1.2 (he ▸ h2.2)
    simp only [ForgeSegment.Path.mk.injEq] at this
    omega
  intro env s hs hne t ht
  rw [h.rep.active, Option.mem_some_iff] at ht
  subst ht
  rw [h.rep.listed] at hs
  obtain ⟨y,hy,rfl⟩ := mem_map.mp hs
  have hym : y ∈ held := by
    rcases mem_append.mp hy with hy | hy
    · exact hy
    · rw [mem_singleton.mp hy, h.rep.current] at hne
      exact absurd rfl hne
  have hlt := ((pairwise_last).mp hb).2 y hym
  refine linked_congr (h.neat.linked last (by simp)) rfl (fun p _ hpb => ?_)
  rw [remove_lookup (hk y hy), if_neg]
  rw [hpb, h.rep.live.base]
  omega

/-! ## Steps -/

theorem neat_last (h : Neat d (held++[last]))
    (s : Segment) (a : Extent) (hs : files s = files last.1) (ha : a.base = last.2.base)
    (hd : ∀ p, d'.lookup p = d.lookup p) : Neat d' (held++[(s,a)]) := by
  obtain ⟨h1,h2⟩ := (pairwise_last).mp h.bases
  refine ⟨fun p hp => by rw [hd]; exact h.unstaged p hp,?_,?_⟩
  · exact (pairwise_last).mpr ⟨h1,fun y hy => by rw [ha]; exact h2 y hy⟩
  intro y hy
  rcases mem_append.mp hy with hy | hy
  · exact linked_congr (h.linked y (by simp [hy])) rfl (fun p _ _ => hd p)
  · rw [mem_singleton.mp hy]
    exact linked_congr (h.linked last (by simp)) hs (fun p _ _ => hd p)

theorem neat_rolled {cfg : Config} {env : Env} {cl : CommitLog} {held held' : List Held}
    {last last' : Held} {d : Disk Path} (h : Sorted cl held last)
    (hf : last.1.isFull cfg env = true → last.1.size ≠ 0)
    (hr : Rolled cfg env cl held last d held' last') : Neat d (held'++[last']) := by
  cases hr with
  | stay _ hd =>
    rw [hd]
    exact h.neat
  | roll s hfull hs =>
    have hne : last.2.frames ≠ [] := by
      intro hn
      refine hf hfull ?_
      rw [h.rep.live.keeps.size, hn]
      rfl
    have hlast : last.2.base < cl.nextOffset := by
      rw [h.rep.next]
      exact last.2.base_lt_finish hne
    obtain ⟨h1,h2⟩ := (pairwise_last).mp h.neat.bases
    have hlt : ∀ y ∈ held++[last], y.2.base < cl.nextOffset := by
      intro y hy
      rcases mem_append.mp hy with hy | hy
      · exact lt_trans (h2 y hy) hlast
      · rw [mem_singleton.mp hy]
        exact hlast
    have hold : ∀ y ∈ held++[last], Linked d y.1 := by
      intro y hy
      refine linked_congr (h.neat.linked y hy) rfl (fun p _ hp => hs.others p ?_)
      have := hlt y hy
      rw [hp, (h.rep.keeps_all y hy).base]
      omega
    refine ⟨started_unstaged hs h.neat.unstaged,?_,?_⟩
    · refine (pairwise_last).mpr ⟨(pairwise_last).mpr ⟨h1,h2⟩,?_⟩
      intro y hy
      rcases mem_append.mp hy with hy | hy
      · exact hlt y (by simp [hy])
      · rw [mem_singleton.mp hy]
        exact hlast
    intro y hy
    rcases mem_append.mp hy with hy | hy
    · rcases mem_append.mp hy with hy | hy
      · exact hold y (by simp [hy])
      · rw [mem_singleton.mp hy]
        exact linked_congr (hold last (by simp)) (sealSegment_files env last.1) (fun _ _ _ => rfl)
    · rw [mem_singleton.mp hy, Linked, hs.base]
      exact ⟨hs.logNamed,hs.idxNamed⟩

theorem lookup_of_names (h : d'.names = d.names) (p : Path) : d'.lookup p = d.lookup p := by
  rw [Disk.lookup, Disk.lookup, h]

theorem append_sorted {batch : RecordBatch} {r : Except Stop ℕ}
    (h : Sorted cl held last) (hb : Appends lz4 cl batch)
    (hf : last.1.isFull cfg env = true → last.1.size ≠ 0)
    (ha : cl.append lz4 cfg env batch = (cl',r)) : ∃ held' last', Sorted cl' held' last' := by
  rcases append_outcome lz4 cfg env h.rep hb ha with
    ⟨rfl,_⟩ | ⟨d,held1,last1,hr,hn,⟨e,_,hrep⟩ | ⟨f,_,s,hle,hp⟩⟩
  · exact ⟨held,last,h⟩
  · have hneat := neat_last (neat_rolled h hf hr) last1.1 last1.2 rfl rfl (lookup_of_names hn.names)
    refine ⟨held1,last1,hrep,hneat,?_⟩
    rw [hrep.next]
    cases hr with
    | stay => rw [← h.rep.next]; exact h.bounded
    | roll => exact h.bounded
  have hneat := neat_last (neat_rolled h hf hr) s (last1.2.push f hle) hp.files rfl
    (lookup_of_names hn.names)
  refine ⟨held1,_,hp.rep,hneat,?_⟩
  rw [hp.rep.next, Extent.push_finish]
  exact f.bounded

theorem neat_remove {fs : Files} (pre : List Held) {y : Held} (post : List Held)
    (hk : Keeps fs.disk y.1 y.2) (hall : ∀ z ∈ pre++post, z.1.baseOffset = z.2.base)
    (h : Neat fs.disk (pre++y::post)) : Neat (y.1.remove env fs).disk (pre++post) := by
  obtain ⟨h1,h2,h3⟩ := pairwise_middle h.bases
  refine ⟨?_,h1,?_⟩
  · intro p hp
    rw [remove_lookup hk, if_neg (by rw [hp]; simp)]
    exact h.unstaged p hp
  intro z hz
  have hne : z.2.base ≠ y.2.base := by
    rcases mem_append.mp hz with hz | hz
    · exact ne_of_lt (h2 z hz)
    · exact Ne.symm (ne_of_lt (h3 z hz))
  have hm : z ∈ pre++y::post := by
    simp only [mem_append, mem_cons] at hz ⊢
    tauto
  refine linked_congr (h.linked z hm) rfl (fun p _ hp => ?_)
  rw [remove_lookup hk, if_neg]
  rw [hp, hall z hz]
  exact fun hx => hne hx.2

theorem thinned_sorted (env : Env) (h : Sorted cl held last)
    (ht : ∀ I : Files → List Held → Prop, I cl.fs held →
      (∀ fs pre y post, (∀ z ∈ pre++y::post, Keeps fs.disk z.1 z.2) → I fs (pre++y::post) →
        I (y.1.remove env fs) (pre++post)) →
      ∃ left, Thinned cl cl' held left last ∧ I cl'.fs left) :
    ∃ held' last', Sorted cl' held' last' := by
  have hout := ht (fun fs ys => Neat fs.disk (ys++[last])) h.neat ?_
  · obtain ⟨left,hl,hn⟩ := hout
    exact ⟨left,last,hl.rep,hn,by rw [hl.next]; exact h.bounded⟩
  intro fs pre y post hk hn
  have := neat_remove env pre (post++[last]) (hk y (by simp)) ?_ (by simpa using hn)
  · simpa using this
  intro z hz
  rw [← append_assoc] at hz
  rcases mem_append.mp hz with hz | hz
  · refine (hk z ?_).base
    simp only [mem_append, mem_cons] at hz ⊢
    tauto
  · rw [mem_singleton.mp hz]
    exact h.rep.live.base

theorem bases_apart (h : (pre++gone++post).Pairwise (fun y z => y.2.base < z.2.base)) :
    (pre++post).Pairwise (fun y z => y.2.base < z.2.base) ∧
      (∀ y ∈ pre, ∀ z ∈ gone, y.2.base < z.2.base) ∧
      ∀ y ∈ gone, ∀ z ∈ post, y.2.base < z.2.base := by
  rw [append_assoc, pairwise_append, pairwise_append] at h
  obtain ⟨h1,⟨h2,h3,h4⟩,h5⟩ := h
  exact ⟨pairwise_append.mpr ⟨h1,h3,fun x hx z hz => h5 x hx z (by simp [hz])⟩,
    fun x hx z hz => h5 x hx z (by simp [hz]),h4⟩

theorem linked_besides (d d' : Disk Path)
    (h : (pre++gone++post).Pairwise (fun y z => y.2.base < z.2.base))
    (hb : ∀ z ∈ pre++post, z.1.baseOffset = z.2.base) (hl : ∀ z ∈ pre++post, Linked d z.1)
    (hd : ∀ p, p.dir = .main → (∀ y ∈ gone, p.base ≠ y.2.base) → d'.lookup p = d.lookup p) :
    ∀ z ∈ pre++post, Linked d' z.1 := by
  obtain ⟨_,h1,h2⟩ := bases_apart h
  intro z hz
  refine linked_congr (hl z hz) rfl (fun p hp hpb => hd p hp (fun y hy => ?_))
  rw [hpb, hb z hz]
  rcases mem_append.mp hz with hz | hz
  · exact ne_of_lt (h1 z hz y hy)
  · exact Ne.symm (ne_of_lt (h2 y hy z hz))

theorem dropped_sorted
    (h : Sorted cl (pre++gone++post) last) (hd : Dropped cl cl' pre gone post last) :
    Sorted cl' (pre++post) last := by
  have hb : (pre++gone++(post++[last])).Pairwise (fun y z => y.2.base < z.2.base) := by
    simpa using h.neat.bases
  have hsub : ∀ z ∈ pre++(post++[last]), z ∈ pre++gone++post++[last] := by
    intro z hz
    simp only [mem_append] at hz ⊢
    tauto
  have hl := linked_besides cl.fs.disk cl'.fs.disk hb
    (fun z hz => (h.rep.keeps_all z (hsub z hz)).base) (fun z hz => h.neat.linked z (hsub z hz))
    (fun p _ hg => hd.names p hg)
  refine ⟨hd.rep,⟨hd.unstaged,?_,?_⟩,by rw [hd.next]; exact h.bounded⟩
  · simpa using (bases_apart hb).1
  · simpa using hl

theorem replaced_sorted {lz4 : Lz4} {pre ys post : List Held} {y last : Held}
    {a kept : Extent} {fin : Segment} (h : Sorted cl (pre++(y::ys)++post) last)
    (ha : a.base = y.2.base) (hr : Replaced lz4 cl cl' pre (y::ys) post last a fin kept) :
    Sorted cl' (pre++(fin,kept)::post) last := by
  have hb : (pre++(y::ys)++(post++[last])).Pairwise (fun y z => y.2.base < z.2.base) := by
    simpa using h.neat.bases
  obtain ⟨h1,h2,h3⟩ := bases_apart hb
  have hsub : ∀ z ∈ pre++(post++[last]), z ∈ pre++(y::ys)++post++[last] := by
    intro z hz
    simp only [mem_append, mem_cons] at hz ⊢
    tauto
  have hl := linked_besides cl.fs.disk cl'.fs.disk hb
    (fun z hz => (h.rep.keeps_all z (hsub z hz)).base) (fun z hz => h.neat.linked z (hsub z hz))
    (fun p hp hg => hr.names p hp (by rw [ha]; exact hg y (by simp)) hg)
  have hfin : fin.baseOffset = a.base := by
    rw [(hr.rep.keeps (fin,kept) (by simp)).base, hr.base]
  have hall : (pre++(fin,kept)::(post++[last])).Pairwise (fun y z => y.2.base < z.2.base) := by
    refine pairwise_insert h1 ?_ ?_
    · intro x hx
      rw [hr.base, ha]
      exact h2 x hx y (by simp)
    · intro z hz
      rw [hr.base, ha]
      exact h3 y (by simp) z hz
  refine ⟨hr.rep,⟨hr.unstaged,by simpa using hall,?_⟩,by rw [hr.next]; exact h.bounded⟩
  intro z hz
  by_cases hzf : z = (fin,kept)
  · rw [hzf, Linked, hfin]
    exact ⟨hr.logName,hr.idxName⟩
  · refine hl z ?_
    simp only [mem_append, mem_cons] at hz ⊢
    tauto

theorem failed_sorted
    (h : Sorted cl held last) (hf : Failed cl cl' held last) : Sorted cl' held last :=
  ⟨hf.rep,⟨hf.unstaged,h.neat.bases,fun y hy =>
    linked_congr (h.neat.linked y hy) rfl (fun p hd _ => hf.names p hd)⟩,by rw [hf.next]; exact h.bounded⟩

theorem adjacent_of_contiguous
    (h : Sorted cl held last) {cs : List Segment} (hc : cs <:+: cl.segments) :
    Adjacent cs cl.segments := by
  obtain ⟨xs,ys,hs⟩ := hc
  refine ⟨xs,ys,hs.symm,?_⟩
  have hb := h.ordered.bases
  rw [← hs, append_assoc, pairwise_append] at hb
  exact fun x hx c hcm => hb.2.2 x hx c (by simp [hcm])

theorem merge_sorted {r : Except Stop Unit} (h : Sorted cl held last)
    (ha : Enough cfg env cl → mergeCandidates cfg env cl <:+: cl.segments)
    (hm : mergeSegments lz4 cfg env cl = (cl',r)) (hr : Returns r) :
    ∃ held' last', Sorted cl' held' last' := by
  rcases (merge_rep lz4 cfg env h.rep h.neat.unstaged (adjacent_of_contiguous h ∘ ha) hm).cases hr with
    (rfl | ⟨pre,gone,post,hc,_,hd⟩ | ⟨pre,y,ys,post,a,fin,kept,hc,hb,_,hr⟩) | hf
  · exact ⟨held,last,h⟩
  · exact ⟨_,last,dropped_sorted (hc.parts ▸ h) hd⟩
  · exact ⟨_,last,replaced_sorted (hc.parts ▸ h) hb hr⟩
  · exact ⟨held,last,failed_sorted h hf⟩

theorem compact_sorted {order : Order} {r : Except Stop Unit} (h : Sorted cl held last)
    (hf : CompactFits lz4 order cl) (hm : compact lz4 cfg env order cl = (cl',r))
    (hr : Returns r) : ∃ held' last', Sorted cl' held' last' := by
  rcases (compact_rep lz4 cfg env order h.rep h.neat.unstaged h.bounded hf hm).cases hr with
    (⟨_,rfl⟩ | ⟨krs,_,_,hd⟩ | ⟨y,ys,krs,a,fin,kept,rfl,_,hb,_,_,_,hr⟩) | hfail
  · exact ⟨held,last,h⟩
  · exact ⟨_,last,dropped_sorted (by simpa using h) hd⟩
  · exact ⟨_,last,replaced_sorted (by simpa using h) hb hr⟩
  · exact ⟨held,last,failed_sorted h hfail⟩

/-! ## Runs -/

/-- What a call must not do: roll an empty active segment, merge segments that
are not adjacent, or write a batch that does not fit. -/
def Orderly (lz4 : Lz4) (cfg : Config) : LogOp → CommitLog → Prop
  | .append env batch, cl => batch.records.length ≤ maxRecordsPerBatch → Appends lz4 cl batch ∧
      ∀ s ∈ cl.active, s.isFull cfg env = true → s.size ≠ 0
  | .mergeSegments env, cl => Enough cfg env cl → mergeCandidates cfg env cl <:+: cl.segments
  | .compact _ order, cl => CompactFits lz4 order cl
  | .deleteBefore _ _, _ => True
  | .enforceRetention _, _ => True

instance (lz4 : Lz4) (cfg : Config) : ∀ op cl, Decidable (Orderly lz4 cfg op cl)
  | .append _ _, _ => inferInstanceAs (Decidable (_ → _ ∧ _))
  | .mergeSegments _, _ => inferInstanceAs (Decidable (_ → _ <:+: _))
  | .compact _ order, cl => inferInstanceAs (Decidable (CompactFits lz4 order cl))
  | .deleteBefore _ _, _ => isTrue trivial
  | .enforceRetention _, _ => isTrue trivial

theorem step_sorted {op : LogOp} (h : ∃ held last, Sorted cl held last) (hg : Orderly lz4 cfg op cl)
    (hs : Step lz4 cfg op cl cl') : ∃ held last, Sorted cl' held last := by
  obtain ⟨held,last,h⟩ := h
  cases op with
  | append env batch =>
    obtain ⟨r,hr,_,_⟩ := returned_some hs
    by_cases hlen : batch.records.length ≤ maxRecordsPerBatch
    · obtain ⟨hb,hf⟩ := hg hlen
      exact append_sorted lz4 cfg env h hb (hf last.1 (by rw [h.rep.active]; rfl)) hr
    · rw [CommitLog.append, h.rep.opened, if_neg (by simp), if_pos (by omega)] at hr
      cases hr
      exact ⟨held,last,h⟩
  | deleteBefore env offset =>
    cases hs
    exact thinned_sorted env h (fun I hI hstep =>
      deleteBefore_thinned env offset h.rep I hI hstep)
  | enforceRetention env =>
    cases hs
    exact thinned_sorted env h (fun I hI hstep =>
      enforceRetention_thinned cfg env cl h.rep I hI hstep)
  | mergeSegments env =>
    obtain ⟨r,hm,hr⟩ := returned_some hs
    exact merge_sorted lz4 cfg env h hg hm hr
  | compact env order =>
    obtain ⟨r,hm,hr⟩ := returned_some hs
    exact compact_sorted lz4 cfg env h hg hm hr

theorem fresh_sorted {cl : CommitLog} (h : Fresh lz4 cl) : ∃ held last, Sorted cl held last := by
  obtain ⟨s,hs,hrep,hu⟩ := fresh_rep lz4 cl h
  refine ⟨[],_,hrep,⟨hu,by simp,?_⟩,?_⟩
  · intro y hy
    rw [mem_singleton.mp hy, Linked, hs.base]
    exact ⟨hs.logNamed,hs.idxNamed⟩
  · rw [hrep.next]
    exact Nat.two_pow_pos 64

/-- In every run of orderly calls the segments are ordered and own their files. -/
theorem orderly_run_ordered (lz4 : Lz4) (cfg : Config) (cl0 cl : CommitLog) (h0 : Fresh lz4 cl0)
    (h : Reaches (Step lz4 cfg) (Orderly lz4 cfg) cl0 cl) : Ordered cl ∧ Separate cl := by
  obtain ⟨held,last,hs⟩ := h.invariant _ (fresh_sorted lz4 h0)
    (fun op t u ht hg hu => step_sorted lz4 cfg ht hg hu)
  exact ⟨hs.ordered,hs.separate⟩

def hourly : List LogOp :=
  [.append (still 0) (smallBatch 0 1),.append (still hour) (smallBatch 0 2),
    .append (still (2*hour)) (smallBatch 0 3),.append (still (3*hour)) (smallBatch 0 4),
    .mergeSegments (still (4*hour)),.append (still (4*hour)) (smallBatch 0 5),
    .compact (still (4*hour)) keepOrder,.enforceRetention (still (4*hour)),
    .deleteBefore (still (4*hour)) 1]

/-- Appends an hour apart, a merge, a compaction, retention and a deletion. -/
theorem hourly_run_ordered : ∃ cl, runAll (exec noLz4 defaultConfig) hourly (smallLog 0) = some cl ∧
    cl.segments.map Segment.baseOffset = [0,4] ∧ Ordered cl ∧ Separate cl := by
  obtain ⟨cl,hcl,hbases⟩ : ∃ c ∈ runAll (exec noLz4 defaultConfig) hourly (smallLog 0),
      c.segments.map Segment.baseOffset = [0,4] := by decide +kernel
  refine ⟨cl,hcl,hbases,orderly_run_ordered noLz4 defaultConfig (smallLog 0) cl
    (smallLog_fresh 0) (reaches_of_runAll _ _ ?_ hcl)⟩
  decide +kernel

/-- The first append comes when the empty segment is an hour old and rolls to a
second segment over the same files. Deleting the first one then deletes the
files of the active segment, which holds a batch. -/
theorem empty_roll_shares_files : ∃ cl, Fresh noLz4 (smallLog 0) ∧
    exec noLz4 defaultConfig (.append (still hour) (smallBatch 0 1)) (smallLog 0) = some cl ∧
    ¬ Ordered cl ∧ cl.segments.map (fun s => (s.baseOffset,s.logFile.ino)) = [(0,0),(0,0)] ∧
    (cl.deleteBefore (still hour) 0).active.map Segment.size = some 42 ∧
    (cl.deleteBefore (still hour) 0).fs.disk.lookup ⟨.main,0,.log⟩ = none := by
  obtain ⟨cl,hcl,h1,h2,h3⟩ : ∃ c ∈ exec noLz4 defaultConfig (.append (still hour) (smallBatch 0 1)) (smallLog 0),
      c.segments.map Segment.baseOffset = [0,0] ∧
      c.segments.map (fun s => (s.baseOffset,s.logFile.ino)) = [(0,0),(0,0)] ∧
      (c.deleteBefore (still hour) 0).active.map Segment.size = some 42 ∧
      (c.deleteBefore (still hour) 0).fs.disk.lookup ⟨.main,0,.log⟩ = none := by decide +kernel
  refine ⟨cl,smallLog_fresh 0,hcl,fun ho => ?_,h2,h3⟩
  have hb := ho.bases
  rw [← pairwise_map (R := fun a b : ℕ => a < b), h1] at hb
  simp at hb

end GoCommon.ForgeLogInvariant
