import GoCommon.ForgeProducerClose
import GoCommon.ForgeDelivery
import GoCommon.ForgeOffsetStore

/-!
# From a producer to a consumer group

One producer writes to the log and the consumers of one group read it, one after
another. A consumer polls, goes back, and commits its offset; when it is gone a
new one starts at the offset the store holds. Other pairs of group and topic
commit to the same store. Nothing below the offset of the group is skipped.
-/

set_option autoImplicit false

namespace GoCommon.ForgePipeline
open List hiding swap
open StepRuns ForgeRecord ForgeRecordCodec ForgeCommitLog ForgeLogRuns ForgeLogView ForgeConsumer
open ForgeDelivery ForgeProducer ForgeProducerRuns ForgeProducerOrder ForgeProducerClose
open ForgeOffsetStore hiding Files Call

/-! ## The system -/

structure Setup where
  lz4 : Lz4
  log : ForgeSegment.Config
  producer : ProducerConfig
  cwd : LexicalPath.Dir
  store : OffsetStore
  pair : Pair
  others : List Pair
  apart : ∀ p ∈ others, Separated p pair

structure Reader where
  start : ℕ
  offset : ℕ
  taken : List Record

structure System where
  producer : Producer
  offsets : ForgeOffsetStore.Files
  reader : Reader
  past : List Reader

inductive Op where
  | produce (l : Step)
  | poll (maxRecords : ℤ)
  | seek (offset : ℕ)
  | commit (random : UInt32)
  | restart
  | other (c : ForgeOffsetStore.Call)

def System.readers (s : System) : List Reader := s.past++[s.reader]

def System.renew (o : ℕ) (s : System) : System :=
  { s with past := s.readers, reader := ⟨o,o,[]⟩ }

def System.store (S : Setup) (p : Pair) (offset : UInt64) (random : UInt32) (s : System) : System :=
  { s with offsets := (S.store.commit S.cwd p offset random s.offsets).2 }

def exec (S : Setup) : Op → System → Option System
  | .produce l, s => (step S.lz4 S.log S.producer l s.producer).map (fun p => { s with producer := p })
  | .poll maxRecords, s => match poll S.lz4 s.producer.log maxRecords s.reader.offset with
    | .ok (rs,o) => some { s with reader := { s.reader with offset := o, taken := s.reader.taken++rs } }
    | .error (.err _) => some s
    | .error _ => none
  | .seek offset, s => some (s.renew offset)
  | .commit random, s => some (s.store S S.pair (UInt64.ofNat s.reader.offset) random)
  | .restart, s => match S.store.load S.cwd S.pair s.offsets with
    | .ok o => some (s.renew o.toNat)
    | .error _ => none
  | .other c, s => some (s.store S c.pair c.offset c.random)

def begin (log : CommitLog) (offsets : ForgeOffsetStore.Files) : System :=
  ⟨newProducer log,offsets,⟨0,0,[]⟩,[]⟩

def Loggable (S : Setup) : Step → Producer → Prop
  | .append w env now, p => ∀ s ∈ flying (p.pc w),
      Fair S.lz4 S.log env p.log (batchOf S.producer now (p.entries s))
  | _, _ => True

/-- Polls ask for a record, a consumer seeks backwards only, and the other pairs are
those that are known to be separated. -/
def Admitted (S : Setup) (good : Step → Producer → Prop) : Op → System → Prop
  | .produce l, s => Loggable S l s.producer ∧ good l s.producer
  | .poll maxRecords, _ => 1 ≤ maxRecords
  | .seek offset, s => offset ≤ s.reader.offset
  | .other c, _ => c.pair ∈ S.others
  | _, _ => True

instance (S : Setup) (l : Step) (p : Producer) : Decidable (Loggable S l p) :=
  match l with
  | .append w env now => inferInstanceAs (Decidable (∀ s ∈ flying (p.pc w),
      Fair S.lz4 S.log env p.log (batchOf S.producer now (p.entries s))))
  | .send .. | .signal _ | .flush _ | .close _ | .mark _ | .result _ | .timeout _ | .again _ | .arm
  | .fire | .stop | .swap _ | .reclaim _ => isTrue trivial

instance (S : Setup) (good : Step → Producer → Prop) [∀ l p, Decidable (good l p)] (op : Op)
    (s : System) : Decidable (Admitted S good op s) := by
  cases op <;> unfold Admitted <;> infer_instance

/-! ## What the readers have seen -/

def shown (e : Entry) : Record := asRead (content e.record)

structure Reads (stored : List Entry) (r : Reader) : Prop where
  forward : r.start ≤ r.offset
  within : r.offset ≤ stored.length
  taken : r.taken.map content = ((stored.map shown).drop r.start).take (r.offset-r.start)

def Covered (s : System) (o : ℕ) : Prop := ∀ i < o, ∃ r ∈ s.readers, r.start ≤ i ∧ i < r.offset

def NoHoles (q : Queue) : Prop :=
  (∃ xs : List Entry, q.held = xs.map some) ∧ ∀ w, ∃ xs : List Entry, q.flight w = xs.map some

structure Served (S : Setup) (s : System) : Prop where
  sheltered : Sheltered s.producer
  filled : NoHoles (queueOf s.producer)
  log : ∃ held last tape, Recorded S.lz4 s.producer.log held last tape ∧
    tape.map content = s.producer.stored.map shown
  reads : ∀ r ∈ s.readers, Reads s.producer.stored r
  covered : Covered s s.reader.offset
  committed : ∃ c, S.store.load S.cwd S.pair s.offsets = .ok c ∧ Covered s c.toNat

variable {S : Setup} {s t : System}

theorem NoHoles.move {q : Queue} (h : NoHoles q) (m : Move) : NoHoles (q.move m) := by
  obtain ⟨⟨xs,hx⟩,hf⟩ := h
  have hemptied : ∀ w v, ∃ xs : List Entry, Function.update q.flight w [] v = xs.map some := by
    intro w v
    by_cases hv : v = w
    · exact ⟨[],by rw [hv, Function.update_self]; rfl⟩
    · rw [Function.update_of_ne hv]
      exact hf v
  cases m with
  | stay => exact ⟨⟨xs,hx⟩,hf⟩
  | enqueue r => exact ⟨⟨xs++[⟨q.sent.length,r⟩],by simp [Queue.move, hx]⟩,hf⟩
  | take w =>
    refine ⟨⟨[],rfl⟩,fun v => ?_⟩
    by_cases hv : v = w
    · exact ⟨xs,by simp only [Queue.move, hv, Function.update_self, hx]⟩
    · simp only [Queue.move, Function.update_of_ne hv]
      exact hf v
  | store w => exact ⟨⟨xs,hx⟩,hemptied w⟩
  | drop w => exact ⟨⟨xs,hx⟩,hemptied w⟩

theorem Reads.more {stored added : List Entry} {r : Reader} (h : Reads stored r) :
    Reads (stored++added) r := by
  have := h.within
  have := h.forward
  refine ⟨h.forward,?_,?_⟩
  · rw [length_append]
    omega
  · rw [h.taken, map_append, drop_append_of_le_length (by rw [length_map]; omega),
      take_append_of_le_length (by rw [length_drop, length_map]; omega)]

/-- Readers that go at least as far cover at least as much. -/
theorem Covered.imp {o : ℕ} (h : Covered s o)
    (hr : ∀ r ∈ s.readers, ∃ x ∈ t.readers, x.start ≤ r.start ∧ r.offset ≤ x.offset) : Covered t o := by
  intro i hi
  obtain ⟨r,hm,h1,h2⟩ := h i hi
  obtain ⟨x,hx,h3,h4⟩ := hr r hm
  exact ⟨x,hx,by omega,by omega⟩

theorem Covered.within {o : ℕ} (h : Covered s o) (hr : ∀ r ∈ s.readers, Reads s.producer.stored r) :
    o ≤ s.producer.stored.length := by
  rcases Nat.eq_zero_or_pos o with rfl | hpos
  · exact Nat.zero_le _
  · obtain ⟨r,hm,_,hlt⟩ := h (o-1) (by omega)
    have := (hr r hm).within
    omega

theorem Served.newest (h : Served S s) : s.producer.log.newestOffset = s.producer.stored.length ∧
    s.producer.stored.length < 2^64 := by
  obtain ⟨held,last,tape,hrec,htape⟩ := h.log
  have hlen := congrArg List.length htape
  rw [length_map, length_map, recorded_length hrec] at hlen
  exact ⟨hlen,hlen ▸ recorded_bounded hrec⟩

/-! ## Steps -/

/-- The records of an appended batch as they are read back are those of its entries. -/
theorem appended_shown (base : ℕ) (cfg : ProducerConfig) (now : Int64) (xs : List Entry) :
    ((assignOffsets base (batchOf cfg now (xs.map some))).records.map asRead).map content =
      xs.map shown := by
  have hswap : ∀ rs : List Record, (rs.map asRead).map content = (rs.map content).map asRead := by
    intro rs
    rw [map_map, map_map]
    rfl
  rw [hswap, assignOffsets_content, batchOf_some, map_map, map_map]
  rfl

theorem produce_served {l : Step} {p' : Producer} (h : Served S s) (hg : Loggable S l s.producer)
    (hs : step S.lz4 S.log S.producer l s.producer = some p') :
    Served S { s with producer := p' } := by
  obtain ⟨hsh,he⟩ := step_effect h.sheltered (step_stepped hs)
  obtain ⟨held,last,tape,hrec,htape⟩ := h.log
  have hkeep : ∀ added : List Entry, p'.stored = s.producer.stored++added →
      NoHoles (queueOf p') → (∃ held last tape, Recorded S.lz4 p'.log held last tape ∧
        tape.map content = p'.stored.map shown) → Served S { s with producer := p' } := by
    intro added hst hf hlog
    refine ⟨hsh,hf,hlog,fun r hr => ?_,h.covered,h.committed⟩
    rw [hst]
    exact (h.reads r hr).more
  have hstored : p'.stored = (queueOf p').stored := rfl
  have hquiet : p'.log = s.producer.log → p'.stored = s.producer.stored → NoHoles (queueOf p') →
      Served S { s with producer := p' } := by
    intro hlog hst hf
    refine hkeep [] (by rw [hst, append_nil]) hf ?_
    rw [hlog, hst]
    exact h.log
  cases he with
  | stay _ hlog hq => exact hquiet hlog (by rw [hstored, hq]; rfl) (by rw [hq]; exact h.filled)
  | enqueue _ r hlog hq =>
    exact hquiet hlog (by rw [hstored, hq]; rfl) (by rw [hq]; exact h.filled.move _)
  | take v _ _ hlog hq =>
    exact hquiet hlog (by rw [hstored, hq]; rfl) (by rw [hq]; exact h.filled.move _)
  | store v env now sl o hf ha hq =>
    obtain ⟨xs,hxs⟩ := h.filled.2 v
    have hcells : s.producer.entries sl = xs.map some := by rw [← flight_flying _ hf, hxs]
    have hst : p'.stored = s.producer.stored++xs := by
      rw [hstored, hq, Queue.move, hxs, reduceOption_some]
      rfl
    refine hkeep xs hst (by rw [hq]; exact h.filled.move _) ?_
    obtain ⟨held',last',⟨⟨e,he⟩,_⟩ | ⟨_,hrec'⟩⟩ := append_recorded hrec (hg sl hf) ha
    · cases he
    refine ⟨held',last',_,hrec',?_⟩
    rw [hcells, map_append, htape, appended_shown, hst, map_append]
  | drop v env now sl e hf ha hq =>
    have hst : p'.stored = s.producer.stored := by rw [hstored, hq]; rfl
    refine hkeep [] (by rw [hst, append_nil]) (by rw [hq]; exact h.filled.move _) ?_
    obtain ⟨held',last',⟨_,hrec'⟩ | ⟨he,_⟩⟩ := append_recorded hrec (hg sl hf) ha
    · exact ⟨held',last',tape,hrec',by rw [htape, hst]⟩
    · cases he

theorem poll_served {maxRecords : ℤ} (h : Served S s) (hn : 1 ≤ maxRecords)
    (hs : exec S (.poll maxRecords) s = some t) : Served S t := by
  obtain ⟨held,last,tape,hrec,htape⟩ := h.log
  obtain ⟨n,rfl⟩ := Int.eq_ofNat_of_zero_le (show 0 ≤ maxRecords by omega)
  have hlen : tape.length = s.producer.stored.length := by
    have := congrArg List.length htape
    rwa [length_map, length_map] at this
  have hreader := h.reads s.reader (by simp [System.readers])
  have hforward := hreader.forward
  by_cases hmade : n*recordSize ≤ maxAlloc
  swap
  · simp only [exec] at hs
    split at hs
    · rename_i hp
      exact absurd (poll_allocates hp) hmade
    · cases hs
      exact h
    · cases hs
  obtain ⟨k,_,hle,hp,_⟩ := poll_delivers hrec n s.reader.offset (by omega) hmade
    (by rw [hlen]; exact hreader.within)
  simp only [exec, hp] at hs
  cases hs
  have hfar : ∀ r ∈ s.readers, ∃ x ∈ ({ s with reader := ⟨s.reader.start,s.reader.offset+k,
      s.reader.taken++(tape.drop s.reader.offset).take k⟩ } : System).readers,
      x.start ≤ r.start ∧ r.offset ≤ x.offset := by
    intro r hr
    rcases mem_append.mp hr with hr | hr
    · exact ⟨r,mem_append_left _ hr,le_refl _,le_refl _⟩
    · rw [mem_singleton.mp hr]
      exact ⟨_,mem_append_right _ (mem_singleton_self _),le_refl _,Nat.le_add_right _ _⟩
  obtain ⟨c,hc,hcov⟩ := h.committed
  refine ⟨h.sheltered,h.filled,h.log,fun r hr => ?_,fun i hi => ?_,⟨c,hc,hcov.imp hfar⟩⟩
  · rcases mem_append.mp hr with hr | hr
    · exact h.reads r (mem_append_left _ hr)
    rw [mem_singleton.mp hr]
    refine ⟨by dsimp only; omega,by dsimp only; omega,?_⟩
    dsimp only
    rw [map_append, hreader.taken, map_take, map_drop, htape,
      show s.reader.offset+k-s.reader.start = s.reader.offset-s.reader.start+k by omega, take_add,
      drop_drop, show s.reader.start+(s.reader.offset-s.reader.start) = s.reader.offset by omega]
  · by_cases hlt : i < s.reader.offset
    · exact (h.covered.imp hfar) i hlt
    · exact ⟨_,mem_append_right _ (mem_singleton_self _),by dsimp only; omega,hi⟩

theorem renew_served {o : ℕ} (h : Served S s) (ho : Covered s o) : Served S (s.renew o) := by
  have hfar : ∀ r ∈ s.readers, ∃ x ∈ (s.renew o).readers, x.start ≤ r.start ∧ r.offset ≤ x.offset :=
    fun r hr => ⟨r,mem_append_left _ hr,le_refl _,le_refl _⟩
  obtain ⟨c,hc,hcov⟩ := h.committed
  refine ⟨h.sheltered,h.filled,h.log,fun r hr => ?_,ho.imp hfar,⟨c,hc,hcov.imp hfar⟩⟩
  rcases mem_append.mp hr with hr | hr
  · exact h.reads r hr
  · rw [mem_singleton.mp hr]
    exact ⟨le_refl _,ho.within h.reads,by simp [System.renew]⟩

/-- A commit of the group stores its offset or changes nothing that it would load. -/
theorem commit_served (h : Served S s) (random : UInt32) :
    Served S (s.store S S.pair (UInt64.ofNat s.reader.offset) random) := by
  refine ⟨h.sheltered,h.filled,h.log,h.reads,h.covered,?_⟩
  rcases hc : S.store.commit S.cwd S.pair (UInt64.ofNat s.reader.offset) random s.offsets with
    ⟨f | _,u⟩
  · obtain ⟨c,hload,hcov⟩ := h.committed
    exact ⟨c,by rw [System.store, hc, failed_commit_unseen _ _ _ hc, hload],hcov⟩
  · refine ⟨UInt64.ofNat s.reader.offset,by rw [System.store, hc, commit_load _ _ _ hc],?_⟩
    have hbound := h.newest.2
    have hwithin := (h.reads s.reader (by simp [System.readers])).within
    rw [UInt64.toNat_ofNat_of_lt' (by change _ < 2^64; omega)]
    exact h.covered

theorem step_served {good : Step → Producer → Prop} {op : Op} (h : Served S s)
    (hg : Admitted S good op s) (hs : exec S op s = some t) : Served S t := by
  cases op with
  | produce l =>
    obtain ⟨p,hp,rfl⟩ := Option.map_eq_some_iff.mp hs
    exact produce_served h hg.1 hp
  | poll maxRecords => exact poll_served h hg hs
  | seek offset =>
    cases hs
    exact renew_served h (fun i hi => h.covered i (lt_of_lt_of_le hi hg))
  | commit random =>
    cases hs
    exact commit_served h random
  | restart =>
    obtain ⟨c,hload,hcov⟩ := h.committed
    simp only [exec, hload] at hs
    cases hs
    exact renew_served h hcov
  | other c =>
    cases hs
    obtain ⟨o,hload,hcov⟩ := h.committed
    refine ⟨h.sheltered,h.filled,h.log,h.reads,h.covered,⟨o,?_,hcov⟩⟩
    rw [System.store, separated_unseen _ _ _ _ (S.apart c.pair hg), hload]

theorem begin_served {log : CommitLog} {offsets : ForgeOffsetStore.Files} (h : Fresh S.lz4 log)
    (ho : S.store.load S.cwd S.pair offsets = .ok 0) : Served S (begin log offsets) := by
  obtain ⟨last,hrec⟩ := fresh_recorded h
  refine ⟨newProducer_sheltered log,⟨⟨[],rfl⟩,fun w => ⟨[],rfl⟩⟩,⟨[],last,[],hrec,rfl⟩,?_,
    fun i hi => absurd hi (Nat.not_lt_zero i),⟨0,ho,fun i hi => absurd hi (Nat.not_lt_zero i)⟩⟩
  intro r hr
  rw [System.readers, begin, nil_append, mem_singleton] at hr
  rw [hr]
  exact ⟨le_refl _,le_refl _,rfl⟩

/-! ## Runs -/

section Runs
variable {good : Step → Producer → Prop} {log : CommitLog} {offsets : ForgeOffsetStore.Files}
  (h : Reaches (fun op s t => exec S op s = some t) (Admitted S good) (begin log offsets) s)
include h

theorem run_served (h0 : Fresh S.lz4 log) (ho : S.store.load S.cwd S.pair offsets = .ok 0) :
    Served S s :=
  h.invariant (Served S) (begin_served h0 ho) (fun _ _ _ => step_served)

/-- The producer takes its own steps whatever the consumers do. -/
theorem run_produces : Reaches (fun l p p' => step S.lz4 S.log S.producer l p = some p') good
    (newProducer log) s.producer := by
  induction h with
  | start => exact .start
  | next op t u _ hg hs ih =>
    cases op with
    | produce l =>
      obtain ⟨p,hp,rfl⟩ := Option.map_eq_some_iff.mp hs
      exact ih.next l _ _ hg.2 hp
    | poll maxRecords =>
      simp only [exec] at hs
      split at hs <;> cases hs <;> exact ih
    | restart =>
      simp only [exec] at hs
      split at hs <;> cases hs
      exact ih
    | _ =>
      cases hs
      exact ih

end Runs

def sample : Setup where
  lz4 := ForgeSegment.noLz4
  log := ForgeSegment.defaultConfig
  producer := smallProducer
  cwd := []
  store := ⟨[47,100]⟩
  pair := ⟨[97],[98]⟩
  others := [⟨[99],[98]⟩]
  apart := by
    simp only [mem_singleton, forall_eq]
    exact ⟨by decide,by decide,by decide,fun h => absurd h.1 (by decide)⟩

def sampleOps : List Op :=
  appendThenClose.map .produce++[.poll 1,.restart,.poll 1,.commit 7,.other ⟨⟨[99],[98]⟩,5,7⟩,.restart]

def sampleStart : System := begin (smallLog 0) (FileTree.Volume.folders [])

/-- Every consumer of the group has returned the stored records from its start to its
offset, and together they have returned all below the offset of the last one and all
below the offset the store holds. -/
theorem group_misses_nothing (S : Setup) (log : CommitLog) (offsets : ForgeOffsetStore.Files)
    (s : System) (h0 : Fresh S.lz4 log) (ho : S.store.load S.cwd S.pair offsets = .ok 0)
    (h : Reaches (fun op s t => exec S op s = some t) (Admitted S (fun _ _ => True))
      (begin log offsets) s) :
    s.producer.log.newestOffset = s.producer.stored.length ∧
    (∀ r ∈ s.readers, Reads s.producer.stored r) ∧ Covered s s.reader.offset ∧
    ∃ c, S.store.load S.cwd S.pair s.offsets = .ok c ∧ Covered s c.toNat := by
  have hs := run_served h h0 ho
  exact ⟨hs.newest.1,hs.reads,hs.covered,hs.committed⟩

/-- The group is started twice again, with another group beside it. -/
theorem restarted_group_misses_nothing : ∃ s,
    runAll (exec sample) sampleOps sampleStart = some s ∧ s.readers.length = 3 ∧
    s.producer.log.newestOffset = s.producer.stored.length ∧
    (∀ r ∈ s.readers, Reads s.producer.stored r) ∧ Covered s s.reader.offset ∧
    ∃ c, sample.store.load sample.cwd sample.pair s.offsets = .ok c ∧ Covered s c.toNat := by
  obtain ⟨s,hs,hn⟩ : ∃ s ∈ runAll (exec sample) sampleOps sampleStart, s.readers.length = 3 := by
    decide +kernel
  exact ⟨s,hs,hn,group_misses_nothing sample _ _ s (smallLog_fresh 0) rfl
    (reaches_of_runAll _ _ (by decide +kernel) hs)⟩

/-- When a close has returned nil and the group has come to the end of the log, every
record whose send had returned nil before the close was called has been consumed. -/
theorem closed_records_consumed (S : Setup) (log : CommitLog) (offsets : ForgeOffsetStore.Files)
    (s : System) (h0 : Fresh S.lz4 log) (ho : S.store.load S.cwd S.pair offsets = .ok 0)
    (h : Reaches (fun op s t => exec S op s = some t) (Admitted S (Accepting S.lz4 S.producer))
      (begin log offsets) s) (hend : s.reader.offset = s.producer.log.newestOffset) :
    ∀ promised ∈ s.producer.closes, ∀ i ∈ promised, ∃ e, s.producer.sent[i]? = some e ∧
      ∃ r ∈ s.readers, shown e ∈ r.taken.map content := by
  intro promised hpromised i hi
  obtain ⟨place,hp⟩ := (run_produces h).invariant (fun p => ∃ place, Secured S.lz4 [] p place)
    ⟨_,newProducer_secured (fresh_logged h0)⟩
    (fun l p p' => step_secured S.lz4 S.log S.producer [] l p p')
  obtain ⟨hlt,hplace⟩ := hp.closes promised hpromised i hi
  obtain ⟨e,he,honce⟩ := hp.accounted.once hlt hplace
  refine ⟨e,he,?_⟩
  have hmem : e ∈ s.producer.stored := (mem_filter.mp (honce ▸ mem_singleton_self e)).1
  obtain ⟨j,hj,rfl⟩ := getElem_of_mem hmem
  have hs := run_served h h0 ho
  obtain ⟨r,hr,h1,h2⟩ := hs.covered j (by rw [hend, hs.newest.1]; exact hj)
  refine ⟨r,hr,?_⟩
  rw [(hs.reads r hr).taken]
  refine mem_of_getElem? (i := j-r.start) ?_
  rw [getElem?_take_of_lt (by omega), getElem?_drop, show r.start+(j-r.start) = j by omega,
    getElem?_map, getElem?_eq_getElem hj]
  rfl

theorem restarted_group_consumes : ∃ s, runAll (exec sample) sampleOps sampleStart = some s ∧
    s.producer.closes = [[0]] ∧ ∀ promised ∈ s.producer.closes, ∀ i ∈ promised,
      ∃ e, s.producer.sent[i]? = some e ∧ ∃ r ∈ s.readers, shown e ∈ r.taken.map content := by
  obtain ⟨s,hs,hc,hend⟩ : ∃ s ∈ runAll (exec sample) sampleOps sampleStart,
      s.producer.closes = [[0]] ∧ s.reader.offset = s.producer.log.newestOffset := by decide +kernel
  exact ⟨s,hs,hc,closed_records_consumed sample _ _ s (smallLog_fresh 0) rfl
    (reaches_of_runAll _ _ (by decide +kernel) hs) hend⟩

end GoCommon.ForgePipeline
