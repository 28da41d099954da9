import GoCommon.LastWins
import GoCommon.ForgeDrain

/-!
# Compaction of an exact log

Compaction reads every record of the sealed segments, keeps the last one of
every key and all those without a key, and writes them in groups under
consecutive offsets from the first sealed base offset on.
-/

set_option autoImplicit false

namespace GoCommon.ForgeCompaction
open List ByteWords LastWins ForgeRecord ForgeRecordCodec ForgeSegment ForgeFrames ForgeExtents
open ForgeCommitLog ForgeLogState ForgeRewrite ForgeLogSwap ForgeLogRewrites ForgeLogView
open ForgeDrain

/-! ## Reading the sealed segments -/

theorem readAllBatches_sound {lz4 : Lz4} {fs : Files} {y : Held} (hk : Keeps fs.disk y.1 y.2)
    (hs : Sound lz4 y) : readAllBatches lz4 fs y.1 = .ok (y.2.frames.map (Frame.batch lz4)) := by
  have hsmall := hk.small
  have hmax : maxFileSize = 2^63-1 := rfl
  obtain ⟨skip,rest,hsplit,hskip,_,hr⟩ := readFrom_sound lz4 fs y.1.baseOffset y.1.size hk hs
    (by omega) (by omega)
  have hafter : ∀ f ∈ y.2.frames, y.1.baseOffset < f.stop := by
    intro f hf
    rw [hk.base]
    exact lt_of_le_of_lt (y.2.above f hf) f.base_lt_stop
  have hnil : skip = [] := by
    rcases skip with _ | ⟨f,skip⟩
    · rfl
    · have h1 := hskip f (by simp)
      have h2 := hafter f (by simp [hsplit])
      omega
  subst hnil
  have hrest : rest = y.2.frames := hsplit.symm
  have hw : windowSize y.1 (raw []).length y.1.size = y.1.size := by
    rw [raw_nil, length_nil, windowSize, if_neg (by omega), Int.toNat_natCast]
  rw [readAllBatches, hr, hw, hrest, fits_all _ _ (le_of_eq hk.size.symm),
    pending_all _ _ hafter]

theorem readAllRecords_sound (lz4 : Lz4) (fs : Files) (held : List Held)
    (hk : ∀ y ∈ held, Keeps fs.disk y.1 y.2) (hs : ∀ y ∈ held, Sound lz4 y) :
    readAllRecords lz4 fs (held.map Prod.fst) = .ok (recordsOf lz4 (framesOf held)) := by
  induction held with
  | nil => rfl
  | cons y held ih =>
    have h1 := readAllBatches_sound (hk y (by simp)) (hs y (by simp))
    have h2 := ih (fun z hz => hk z (by simp [hz])) (fun z hz => hs z (by simp [hz]))
    rw [map_cons, readAllRecords, h1, h2, framesOf_cons, recordsOf_append,
      ← recordsOf_batches lz4 y.2.frames]

theorem keyRecords_offsets (lz4 : Lz4) (f : Frame) (h : Clean lz4 f) :
    (keyRecords (f.batch lz4)).map KeyRecord.offset = List.range' f.base f.count := by
  rw [← h.numbered, keyRecords, map_map, (Frame.batch_base h.readable).1]
  rfl

theorem keyRecords_within {lz4 : Lz4} {f : Frame} (h : Clean lz4 f) {kr : KeyRecord}
    (hk : kr ∈ keyRecords (f.batch lz4)) : f.base ≤ kr.offset ∧ kr.offset < f.stop := by
  have hm : kr.offset ∈ List.range' f.base f.count := by
    rw [← keyRecords_offsets lz4 f h]
    exact mem_map_of_mem hk
  exact mem_range'_1.mp hm

theorem recordsOf_increasing (lz4 : Lz4) {fs : List Frame} (hc : ∀ f ∈ fs, Clean lz4 f)
    (hs : fs.Pairwise (fun f g => f.stop ≤ g.base)) :
    (recordsOf lz4 fs).Pairwise (fun a b => a.offset < b.offset) := by
  induction fs with
  | nil => exact List.Pairwise.nil
  | cons f fs ih =>
    rw [pairwise_cons] at hs
    have hf := hc f (by simp)
    rw [recordsOf, flatMap_cons, pairwise_append]
    refine ⟨?_,ih (fun g hg => hc g (by simp [hg])) hs.2,?_⟩
    · rw [← pairwise_map (f := KeyRecord.offset) (R := (· < ·)), keyRecords_offsets lz4 f hf]
      exact pairwise_lt_range'
    intro a ha b hb
    obtain ⟨g,hg,hbg⟩ := mem_flatMap.mp hb
    have h1 := keyRecords_within hf ha
    have h2 := keyRecords_within (hc g (by simp [hg])) hbg
    have h3 := hs.1 g hg
    omega

theorem recordsOf_settled {lz4 : Lz4} {fs : List Frame} (hc : ∀ f ∈ fs, f.Readable lz4) :
    ∀ kr ∈ recordsOf lz4 fs, Settled kr.record := by
  intro kr hkr
  obtain ⟨f,hf,hk⟩ := mem_flatMap.mp hkr
  obtain ⟨r,hr,rfl⟩ := mem_map.mp hk
  exact decodeBatch_settled lz4 f.bytes _ (hc f hf) r hr

/-! ## The survivors -/

def recordKey (r : Record) : Option Bytes :=
  if (keyOf r).length = 0 then none else some (keyOf r)

structure Noted (l : Latest) (krs : List KeyRecord) : Prop where
  keys : ∀ e ∈ l.keyed.entries, recordKey e.2.record = some e.1
  keyed : (l.keyed.entries.map Sigma.snd).Perm
    ((keepLast (fun kr => recordKey kr.record) krs).filter (fun kr => recordKey kr.record ≠ none))
  keyless : l.keyless = krs.filter (fun kr => recordKey kr.record = none)

theorem kerase_values {k : Bytes} {es : List (Sigma fun _ : Bytes => KeyRecord)}
    (hn : es.NodupKeys) (hk : ∀ e ∈ es, recordKey e.2.record = some e.1) :
    (es.kerase k).map Sigma.snd =
      (es.map Sigma.snd).filter (fun kr => recordKey kr.record ≠ some k) := by
  induction es with
  | nil => rfl
  | cons e es ih =>
    have hn' := nodupKeys_cons.mp hn
    have he := hk e (by simp)
    have htail := ih hn'.2 (fun x hx => hk x (by simp [hx]))
    by_cases h : e.1 = k
    · have hall : ∀ kr ∈ es.map Sigma.snd, recordKey kr.record ≠ some k := by
        intro kr hkr heq
        obtain ⟨x,hx,rfl⟩ := mem_map.mp hkr
        rw [hk x (by simp [hx]), Option.some.injEq] at heq
        exact hn'.1 (by rw [h, ← heq]; exact mem_map_of_mem hx)
      rw [kerase_cons_eq h.symm, map_cons, filter_cons_of_neg (by simp [he, h]),
        filter_eq_self.mpr (by simpa using hall)]
    · rw [kerase_cons_ne (Ne.symm h), map_cons, map_cons, htail,
        filter_cons_of_pos (by simp [he, h])]

theorem noted_note {l : Latest} {krs : List KeyRecord} (kr : KeyRecord) (h : Noted l krs) :
    Noted (l.note kr) (krs++[kr]) := by
  unfold Latest.note
  by_cases hk : (keyOf kr.record).length = 0
  · have hnone : recordKey kr.record = none := if_pos hk
    rw [if_pos hk]
    refine ⟨h.keys,?_,?_⟩
    · rw [keepLast_concat]
      simpa [hnone] using h.keyed
    · rw [filter_append, filter_cons_of_pos (by simp [hnone]), h.keyless]
      rfl
  have hsome : recordKey kr.record = some (keyOf kr.record) := if_neg hk
  rw [if_neg hk]
  refine ⟨?_,?_,?_⟩
  · intro e he
    rcases mem_cons.mp he with rfl | he
    · exact hsome
    · exact h.keys e ((kerase_sublist _ _).subset he)
  · rw [AList.entries_insert, map_cons, kerase_values l.keyed.nodupKeys h.keys,
      keepLast_concat, filter_append, filter_cons_of_pos (by simp [hsome]),
      filter_filter]
    refine (List.Perm.cons kr (h.keyed.filter _)).trans ?_
    refine (perm_append_singleton kr _).symm.trans (List.Perm.append_right [kr] ?_)
    simp [hsome, Bool.and_comm]
  · rw [filter_append, filter_cons_of_neg (by simp [hsome]), h.keyless]
    simp

theorem fold_noted (krs : List KeyRecord) : Noted (krs.foldl Latest.note ⟨∅,[]⟩) krs := by
  induction krs using List.reverseRecOn with
  | nil => exact ⟨by simp,List.Perm.refl _,rfl⟩
  | append_singleton krs kr ih =>
    rw [foldl_append]
    exact noted_note kr ih

instance : Std.Total byOffset := ⟨fun a b => Nat.le_total a.offset b.offset⟩

instance : IsTrans KeyRecord byOffset := ⟨fun _ _ _ => Nat.le_trans⟩

theorem survivors_eq (order : Order) {krs : List KeyRecord}
    (hi : krs.Pairwise (fun a b => a.offset < b.offset)) :
    survivors order krs = keepLast (fun kr => recordKey kr.record) krs := by
  have hn := fold_noted krs
  have hperm : (krs.foldl Latest.note ⟨∅,[]⟩).all.Perm
      (keepLast (fun kr => recordKey kr.record) krs) := by
    rw [Latest.all, hn.keyless, ← keepLast_keyless]
    refine (hn.keyed.append_right _).trans ?_
    simpa using filter_append_perm (fun kr : KeyRecord => recordKey kr.record ≠ none)
      (keepLast (fun kr => recordKey kr.record) krs)
  refine eq_of_increasing KeyRecord.offset ?_ (pairwise_insertionSort byOffset _)
    (hi.sublist (keepLast_sublist _ krs))
  exact (perm_insertionSort byOffset _).trans ((order.perm _).trans hperm)

/-! ## The groups -/

theorem fits_iff (lz4 : Lz4) (base : ℕ) {rs : List Record} (hne : rs ≠ []) :
    Fits lz4 (groupBatch base rs) ↔
      23+(appendRecords (groupBatch base rs).records).length < 2^32 := by
  have hc : (groupBatch base rs).recordCount ≠ 0 := by simpa [groupBatch] using hne
  have he : encodeBatch lz4 (groupBatch base rs) = .ok (frame (groupBatch base rs) compressionNone
      (appendRecords (groupBatch base rs).records)) := by
    simp only [encodeBatch, hc, if_false, payload]
    rfl
  constructor
  · intro h
    have hs := h _ he
    rw [batchSize_ok, frame_length, (frame_fields _ _ _).2.1] at hs
    omega
  intro h e hee
  rw [he, Except.ok.injEq] at hee
  rw [← hee]
  exact batchSize_frame _ _ _ h

theorem settled_placed {r : Record} {i : Int64} (h : Settled r) :
    Settled { r with offsetDelta := i } := by
  refine ⟨h.headers,?_⟩
  have hp : asRead { r with offsetDelta := i } = { asRead r with offsetDelta := i } := rfl
  rw [hp, h.same]

theorem group_clean (lz4 : Lz4) (base : ℕ) (rs : List Record) (f : Frame)
    (he : Encodes lz4 (groupBatch base rs) f) (hne : rs ≠ []) (hl : rs.length ≤ batchLimit)
    (hb : base+rs.length < 2^64) (hs : ∀ r ∈ rs, Settled r)
    (hf : Fits lz4 (groupBatch base rs)) : Clean lz4 f ∧
      (f.batch lz4).records.map content = rs.map content := by
  have hlim : batchLimit = 1000 := rfl
  have hmax : maxRecordsPerBatch = 65535 := rfl
  have hpos := length_pos_iff.mpr hne
  have hbase : (groupBatch base rs).baseOffset = base := Nat.mod_eq_of_lt (by omega)
  have hcount : (groupBatch base rs).recordCount = rs.length := rfl
  have hset : ∀ r ∈ (groupBatch base rs).records, Settled r := by
    intro r hr
    obtain ⟨i,hi,rfl⟩ := mem_mapIdx.mp hr
    exact settled_placed (hs _ (getElem_mem hi))
  have hr := uncompressed_roundTrips lz4 (groupBatch base rs) rfl (by omega)
    (by simp [groupBatch]) (by omega) (by omega) (fun r hr => (hset r hr).headers)
    ((fits_iff lz4 base hne).mp hf)
  obtain ⟨hclean,hrecs⟩ := encodes_clean lz4 he hr
    (by rw [hbase]; exact numbered_mapIdx hb)
  refine ⟨hclean,?_⟩
  have hid : (groupBatch base rs).records.map asRead = (groupBatch base rs).records := by
    rw [map_congr_left (fun r hr => (hset r hr).same), map_id']
  rw [hrecs, hid]
  refine ext_getElem (by simp [groupBatch]) (fun i h1 h2 => ?_)
  simp [groupBatch, content]

theorem groups_clean (lz4 : Lz4) (n base : ℕ) (rs : List Record) (fs : List Frame)
    (hn : rs.length ≤ n) (hb : rs ≠ [] → base+rs.length < 2^64) (hs : ∀ r ∈ rs, Settled r)
    (hf : ∀ g ∈ groups n base rs, Fits lz4 g)
    (he : List.Forall₂ (Encodes lz4) (groups n base rs) fs) :
    (∀ f ∈ fs, Clean lz4 f) ∧
      (recordsOf lz4 fs).map KeyRecord.offset = List.range' base rs.length ∧
      (recordsOf lz4 fs).map (fun kr => content kr.record) = rs.map content ∧
      ∀ f ∈ fs, ∃ j, f.base = base+batchLimit*j ∧
        f.stop = base+min (batchLimit*(j+1)) rs.length := by
  induction n generalizing base rs fs with
  | zero =>
    have hz : rs = [] := length_eq_zero_iff.mp (by omega)
    cases he
    simp [hz]
  | succ n ih =>
    have hlim : batchLimit = 1000 := rfl
    by_cases hz : rs = []
    · rw [groups, if_pos hz] at he
      cases he
      simp [hz]
    rw [groups, if_neg hz] at he hf
    have hpos := length_pos_iff.mpr hz
    have hbound := hb hz
    have htake : (rs.take batchLimit).length = min batchLimit rs.length := length_take
    have hdrop : (rs.drop batchLimit).length = rs.length-batchLimit := length_drop
    rcases he with _ | ⟨hef,hefs⟩
    rename_i f fs
    obtain ⟨hclean,hrecs⟩ := group_clean lz4 base (rs.take batchLimit) f hef
      (by rw [← length_pos_iff]; omega) (by omega) (by omega)
      (fun r hr => hs r (mem_of_mem_take hr)) (hf _ (by simp))
    obtain ⟨h1,h2,h3,h4⟩ := ih (base+batchLimit) (rs.drop batchLimit) fs (by omega)
      (fun hne => by have := length_pos_iff.mpr hne; omega)
      (fun r hr => hs r (mem_of_mem_drop hr)) (fun g hg => hf g (by simp [hg])) hefs
    have hbase : f.base = base := by
      rw [hef.base]
      exact Nat.mod_eq_of_lt (by omega)
    have hcount : f.count = min batchLimit rs.length := by
      rw [hef.count, ← htake]
      rfl
    refine ⟨forall_mem_cons.mpr ⟨hclean,h1⟩,?_,?_,?_⟩
    · rw [recordsOf, flatMap_cons, map_append, keyRecords_offsets lz4 f hclean, hbase,
        hcount]
      rw [recordsOf, hdrop] at h2
      rw [h2]
      by_cases hlen : rs.length ≤ batchLimit
      · rw [min_eq_right hlen, Nat.sub_eq_zero_of_le hlen]
        simp
      · rw [min_eq_left (by omega), range'_append_1,
          show batchLimit+(rs.length-batchLimit) = rs.length by omega]
    · rw [recordsOf, flatMap_cons, map_append, keyRecords, map_map]
      rw [recordsOf] at h3
      rw [h3, ← take_append_drop batchLimit (rs.map content), ← map_take,
        ← map_drop, ← hrecs]
      rfl
    intro g hg
    rcases mem_cons.mp hg with rfl | hg
    · exact ⟨0,by omega,by rw [Frame.stop, hbase, hcount, Nat.mul_one]⟩
    obtain ⟨j,hj1,hj2⟩ := h4 g hg
    have hlt := g.base_lt_stop
    rw [hdrop] at hj2
    rw [hlim] at hj1 hj2 ⊢
    exact ⟨j+1,by omega,by omega⟩

structure CompactFair (lz4 : Lz4) (order : Order) (cl : CommitLog) : Prop where
  fits : CompactFits lz4 order cl
  narrow : ∀ krs, readAllRecords lz4 cl.fs (sealedSegments cl) = .ok krs →
    (survivors order krs).length < 2^32

instance (lz4 : Lz4) (order : Order) (cl : CommitLog) : Decidable (CompactFair lz4 order cl) :=
  have : Decidable (∀ krs, readAllRecords lz4 cl.fs (sealedSegments cl) = .ok krs →
      (survivors order krs).length < 2^32) :=
    match h : readAllRecords lz4 cl.fs (sealedSegments cl) with
    | .error _ => isTrue (by simp)
    | .ok krs => decidable_of_iff ((survivors order krs).length < 2^32) (by simp)
  decidable_of_iff (_ ∧ _) ⟨fun h => ⟨h.1,h.2⟩,fun h => ⟨h.fits,h.narrow⟩⟩

def kept (lz4 : Lz4) (held : List Held) : List KeyRecord :=
  keepLast (fun kr => recordKey kr.record) (recordsOf lz4 (framesOf held))

structure Compacted (lz4 : Lz4) (held : List Held) (b : ℕ) (a : Extent) : Prop where
  base : a.base = b
  finish : a.finish = b+(kept lz4 held).length
  clean : ∀ f ∈ a.frames, Clean lz4 f
  offsets : (recordsOf lz4 a.frames).map KeyRecord.offset =
    List.range' b (kept lz4 held).length
  records : (recordsOf lz4 a.frames).map (fun kr => content kr.record) =
    (kept lz4 held).map (fun kr => content kr.record)
  blocks : ∀ f ∈ a.frames, ∃ j, f.base = b+batchLimit*j ∧
    f.stop = b+min (batchLimit*(j+1)) (kept lz4 held).length

section Exactly
variable {lz4 : Lz4} {cl : CommitLog} {held : List Held} {last : Held}
  (h : Exact lz4 cl held last)
include h

theorem sealed_clean : ∀ f ∈ framesOf held, Clean lz4 f := by
  intro f hf
  obtain ⟨y,hy,hfy⟩ := mem_flatMap.mp hf
  exact (h.sound y (by simp [hy])).clean f hfy

theorem sealed_increasing :
    (recordsOf lz4 (framesOf held)).Pairwise (fun a b => a.offset < b.offset) :=
  recordsOf_increasing lz4 (sealed_clean h)
    (framesOf_sorted _ ((pairwise_last).mp h.rep.ordered).1)

theorem sealed_read :
    readAllRecords lz4 cl.fs (held.map Prod.fst) = .ok (recordsOf lz4 (framesOf held)) :=
  readAllRecords_sound lz4 cl.fs held h.rep.keeps (fun y hy => h.sound y (by simp [hy]))

theorem survivors_kept (order : Order) :
    survivors order (recordsOf lz4 (framesOf held)) = kept lz4 held :=
  survivors_eq order (sealed_increasing h)

theorem kept_settled : ∀ r ∈ (kept lz4 held).map KeyRecord.record, Settled r := by
  intro r hr
  obtain ⟨kr,hkr,rfl⟩ := mem_map.mp hr
  exact recordsOf_settled (fun f hf => (sealed_clean h f hf).readable) kr
    ((keepLast_sublist _ _).subset hkr)

theorem survivors_compacted (order : Order) (y : Held) (ys : List Held) (krs : List KeyRecord)
    (a : Extent) (hy : held = y::ys) (hn : cl.nextOffset < 2^64) (hf : CompactFits lz4 order cl)
    (hk : readAllRecords lz4 cl.fs (held.map Prod.fst) = .ok krs) (hb : a.base = y.2.base)
    (hfin : a.finish = y.2.base+(survivors order krs).length) (hle : a.finish ≤ last.2.base)
    (hen : List.Forall₂ (Encodes lz4) (compacted order y.2.base krs) a.frames) :
    Compacted lz4 held y.2.base a := by
  have hread := sealed_read h
  have hsurv := survivors_kept h order
  have hsealed := sealed_held h.rep
  rw [hread, Except.ok.injEq] at hk
  rw [← hk, hsurv] at hfin
  have hlen : ((kept lz4 held).map KeyRecord.record).length = (kept lz4 held).length :=
    length_map _
  have hin : y ∈ held := by simp [hy]
  have hcmp : compacted order y.2.base krs = groups (kept lz4 held).length y.2.base
      ((kept lz4 held).map KeyRecord.record) := by rw [compacted, ← hk, hsurv]
  have hfits : ∀ g ∈ compacted order y.2.base krs, Fits lz4 g := by
    rw [← (h.rep.keeps y hin).base, ← hk]
    exact hf y.1 (by rw [hsealed, hy]; simp) _ (by rw [hsealed]; exact hread)
  have hnext : last.2.base ≤ cl.nextOffset := by
    rw [h.rep.next]
    exact last.2.base_le_finish
  rw [hcmp] at hen hfits
  obtain ⟨hclean,hoff,hrec,hblk⟩ := groups_clean lz4 _ _ _ a.frames (le_of_eq hlen)
    (fun _ => by omega) (kept_settled h) hfits hen
  refine ⟨hb,hfin,hclean,?_,?_,?_⟩
  · rw [hoff, hlen]
  · rw [hrec, map_map]
    rfl
  · rw [hlen] at hblk
    exact hblk

theorem compact_clean {cfg : Config} {env : Env} {order : Order} {cl' : CommitLog}
    {r : Except Stop Unit} (hn : cl.nextOffset < 2^64) (hf : CompactFits lz4 order cl)
    (hm : compact lz4 cfg env order cl = (cl',r)) :
    Ends r (held = [] ∧ cl' = cl ∨ kept lz4 held = [] ∧ Dropped cl cl' [] held [] last ∨
      ∃ y ys a fin, held = y::ys ∧ Compacted lz4 held y.2.base a ∧
        Replaced lz4 cl cl' [] held [] last a fin a)
      (Exact lz4 cl' held last ∧ cl'.nextOffset = cl.nextOffset) := by
  have hread := sealed_read h
  refine (compact_rep lz4 cfg env order h.rep h.unstaged hn hf hm).imp ?_ (failed_exact h)
  rintro (hnil | ⟨krs,hk,hs,hd⟩ | ⟨y,ys,krs,a,fin,kpt,hy,hk,hb,hfin,hle,hen,hrep⟩)
  · exact .inl hnil
  · rw [hread, Except.ok.injEq] at hk
    rw [← hk, survivors_kept h order] at hs
    exact .inr (.inl ⟨hs,hd⟩)
  · have hc := survivors_compacted h order y ys krs a hy hn hf hk hb hfin hle hen
    obtain ⟨rfl,_⟩ := hrep.whole (fun f hf => (hc.clean f hf).readable)
    exact .inr (.inr ⟨y,ys,kpt,fin,hy,hc,hrep⟩)

theorem compact_exact {cfg : Config} {env : Env} {order : Order} {cl' : CommitLog}
    {r : Except Stop Unit} (hn : cl.nextOffset < 2^64) (hf : CompactFair lz4 order cl)
    (hm : compact lz4 cfg env order cl = (cl',r)) :
    Ends r (held = [] ∧ cl' = cl ∨
      kept lz4 held = [] ∧ Exact lz4 cl' [] last ∧ cl'.nextOffset = cl.nextOffset ∨
      ∃ y ys a fin, held = y::ys ∧ Compacted lz4 held y.2.base a ∧ Exact lz4 cl' [(fin,a)] last ∧
        cl'.nextOffset = cl.nextOffset) (Exact lz4 cl' held last ∧ cl'.nextOffset = cl.nextOffset) := by
  have h' : Exact lz4 cl ([]++held++[]) last := by simpa using h
  refine (compact_clean h hn hf.fits hm).imp ?_ id
  rintro (hnil | ⟨hs,hd⟩ | ⟨y,ys,a,fin,hy,hc,hrep⟩)
  · exact .inl hnil
  · exact .inr (.inl ⟨hs,by simpa using dropped_exact h' hd,hd.next⟩)
  have hnar : a.finish < a.base+2^32 := by
    have hlt := hf.narrow _ (by rw [sealed_held h.rep]; exact sealed_read h)
    rw [survivors_kept h order] at hlt
    rw [hc.finish, hc.base]
    exact Nat.add_lt_add_left hlt _
  obtain ⟨_,hex⟩ := replaced_exact h' hc.clean hnar hrep
  exact .inr (.inr ⟨y,ys,a,fin,hy,hc,by simpa using hex,hrep.next⟩)

end Exactly

end GoCommon.ForgeCompaction
