import GoCommon.ForgeProducerRuns

/-!
# The order of a producer's records

Flushes append to the log without the lock of the producer, so records that
were taken later may be stored earlier. As long as no flush appends while
another one holds records that were sent before its own, the log holds the
records in the order of enqueuing.
-/

set_option autoImplicit false

namespace GoCommon.ForgeProducerOrder
open List hiding swap
open Function hiding swap
open StepRuns ForgeRecord ForgeSegment ForgeExtents ForgeCommitLog ForgeLogState
open ForgeLogRewrites ForgeLogRuns ForgeProducer ForgeProducerRuns

/-! ## The records of a log -/

def Logged (lz4 : Lz4) (cl : CommitLog) (rs : List Record) : Prop :=
  ∃ held last bs, Rep cl held last ∧ List.Forall₂ (Encodes lz4) bs (framesOf (held++[last])) ∧
    (bs.flatMap RecordBatch.records).map content = rs.map content

theorem fresh_logged {lz4 : Lz4} {cl : CommitLog} (h : Fresh lz4 cl) : Logged lz4 cl [] := by
  obtain ⟨s,_,hrep,_⟩ := fresh_rep lz4 cl h
  exact ⟨[],_,[],hrep,by simp [framesOf, Extent.empty],rfl⟩

theorem assignOffsets_content (base : ℕ) (b : RecordBatch) :
    (assignOffsets base b).records.map content = b.records.map content := by
  refine ext_getElem? (fun i => ?_)
  simp only [assignOffsets, List.getElem?_map, List.getElem?_mapIdx, Option.map_map]
  rfl

theorem append_logged {lz4 : Lz4} {cfg : Config} {env : Env} {cl cl' : CommitLog}
    {batch : RecordBatch} {rs : List Record} {r : Except Stop ℕ} (h : Logged lz4 cl rs)
    (hb : Appends lz4 cl batch) (ha : cl.append lz4 cfg env batch = (cl',r)) :
    (∀ e, r = .error e → Logged lz4 cl' rs) ∧
    ∀ o, r = .ok o → Logged lz4 cl' (rs++batch.records) := by
  obtain ⟨held,last,bs,hrep,henc,hrs⟩ := h
  rcases append_outcome lz4 cfg env hrep hb ha with
    ⟨rfl,e,rfl⟩ | ⟨d,held1,last1,hroll,_,⟨e,rfl,hrep'⟩ | ⟨f,rfl,s,hle,hp⟩⟩
  · exact ⟨fun _ _ => ⟨held,last,bs,hrep,henc,hrs⟩,by simp⟩
  · refine ⟨fun _ _ => ⟨held1,last1,bs,hrep',?_,hrs⟩,by simp⟩
    rw [rolled_frames hroll]
    exact henc
  refine ⟨by simp,fun _ _ => ⟨held1,_,bs++[assignOffsets cl.nextOffset batch],hp.rep,?_,?_⟩⟩
  · have hframes : framesOf (held1++[(s,last1.2.push f hle)]) = framesOf (held1++[last1])++[f] := by
      simp [framesOf]
    rw [hframes, rolled_frames hroll]
    exact rel_append henc (.cons hp.encodes .nil)
  · simp only [flatMap_append, map_append, hrs, flatMap_singleton,
      assignOffsets_content]

/-! ## Order -/

theorem reduceOption_some {xs : List Entry} : (xs.map some).reduceOption = xs := by
  change (xs.map some).filterMap id = xs
  rw [filterMap_map]
  exact filterMap_some

structure InOrder (q : Queue) (rest : List Entry) (out : Who → List Entry) : Prop where
  ids : q.sent.map Entry.id = List.range q.sent.length
  held : q.held = rest.map some
  flight : ∀ w, q.flight w = (out w).map some
  line : ∀ w, (q.stored++out w++rest).Sublist q.sent

section Moves
variable {q : Queue} {rest : List Entry} {out : Who → List Entry} (h : InOrder q rest out)
include h

theorem InOrder.stored : q.stored.Sublist q.sent :=
  ((sublist_append_left _ _).trans (sublist_append_left _ _)).trans (h.line .linger)

theorem InOrder.enqueue (r : Record) :
    InOrder (q.move (.enqueue r)) (rest++[⟨q.sent.length,r⟩]) out := by
  refine ⟨?_,?_,h.flight,fun w => ?_⟩
  · simp [Queue.move, h.ids, range_succ]
  · simp [Queue.move, h.held]
  · rw [← append_assoc]
    exact (h.line w).append (.refl _)

theorem InOrder.take {v : Who} (hv : q.flight v = []) :
    InOrder (q.move (.take v)) [] (update out v rest) := by
  have hnil : out v = [] := map_eq_nil_iff.mp ((h.flight v).symm.trans hv)
  refine ⟨h.ids,rfl,fun u => ?_,fun u => ?_⟩
  · by_cases hu : u = v
    · simp [Queue.move, hu, h.held]
    · simp [Queue.move, hu, h.flight]
  · have hline := h.line u
    by_cases hu : u = v
    · simpa [Queue.move, hu, hnil] using hline
    · simpa [Queue.move, hu] using (sublist_append_left _ _).trans hline

theorem InOrder.drop (v : Who) : InOrder (q.move (.drop v)) rest (update out v []) := by
  refine ⟨h.ids,h.held,fun u => ?_,fun u => ?_⟩
  · by_cases hu : u = v
    · simp [Queue.move, hu]
    · simp [Queue.move, hu, h.flight]
  · by_cases hu : u = v
    · rw [hu, update_self, append_nil]
      exact ((sublist_append_left _ _).append (.refl _)).trans (h.line v)
    · rw [update_of_ne hu]
      exact h.line u

/-- The numbers of the entries increase along the sends, so a list of sent entries with
increasing numbers is a sublist of them. -/
theorem InOrder.join {u v : Who} (hb : ∀ x ∈ out v, ∀ y ∈ out u, x.id < y.id) :
    (q.stored++out v++out u++rest).Sublist q.sent := by
  have hsorted : q.sent.Pairwise (fun x y => x.id < y.id) := by
    rw [← pairwise_map, h.ids]
    exact pairwise_lt_range
  have hv := hsorted.sublist (h.line v)
  have hu := hsorted.sublist (h.line u)
  have hall : (q.stored++out v++out u++rest).Pairwise (fun x y => x.id < y.id) := by
    simp only [pairwise_append, mem_append] at hv hu ⊢
    grind
  have hsubset : q.stored++out v++out u++rest ⊆ q.sent := by
    have h1 := (h.line v).subset
    have h2 := (h.line u).subset
    simp only [append_subset] at h1 h2 ⊢
    tauto
  have : Std.Antisymm (fun x y : Entry => x.id < y.id) := ⟨fun _ _ h1 h2 => by omega⟩
  have hnodup : (q.stored++out v++out u++rest).Nodup :=
    hall.imp (fun hlt heq => (heq ▸ hlt).false)
  exact sublist_of_subperm_of_pairwise (hnodup.subperm hsubset) hall hsorted

theorem InOrder.store {v : Who}
    (hb : ∀ u, u ≠ v → ∀ x ∈ out v, ∀ y ∈ out u, x.id < y.id) :
    InOrder (q.move (.store v)) rest (update out v []) := by
  have hd := h.drop v
  refine ⟨h.ids,h.held,hd.flight,fun u => ?_⟩
  rw [Queue.move, h.flight v, reduceOption_some]
  by_cases hu : u = v
  · simpa [hu] using h.line v
  · rw [update_of_ne hu]
    exact h.join (hb u hu)

end Moves

/-! ## Runs -/

theorem all_threads {P : Who → Pc → Prop} (h : ∀ w, P w .idle) (p : Producer) :
    (∀ x ∈ p.threads.entries, P x.1 x.2) ↔ ∀ w, P w (p.pc w) := by
  constructor
  · intro hall w
    rw [Producer.pc, pcOf]
    rcases hl : p.threads.lookup w with _ | x
    · exact h w
    · exact hall ⟨w,x⟩ (AList.mem_lookup_iff.mp hl)
  · rintro hall ⟨w,x⟩ hx
    have := hall w
    rwa [Producer.pc, pcOf, AList.mem_lookup_iff.mpr hx] at this

def Alone (p : Producer) : Prop := ∀ w, flying (p.pc w) = none

instance (p : Producer) : Decidable (Alone p) :=
  decidable_of_iff _ (all_threads (P := fun _ x => flying x = none) (fun _ => rfl) p)

def Earlier (s t : List (Option Entry)) : Prop :=
  ∀ x ∈ s.reduceOption, ∀ y ∈ t.reduceOption, x.id < y.id

instance (s t : List (Option Entry)) : Decidable (Earlier s t) := inferInstanceAs (Decidable (∀ _ ∈ _, _))

def Foremost (w : Who) (p : Producer) : Prop :=
  ∀ v, v ≠ w → ∀ s ∈ flying (p.pc w), ∀ t ∈ flying (p.pc v), Earlier (p.entries s) (p.entries t)

instance (w : Who) (p : Producer) : Decidable (Foremost w p) :=
  decidable_of_iff _ (all_threads (P := fun v x => v ≠ w → ∀ s ∈ flying (p.pc w), ∀ t ∈ flying x,
    Earlier (p.entries s) (p.entries t)) (fun _ _ _ _ _ ht => by cases ht) p)

/-- A batch that is appended fits its length field, and no other goroutine holds records that
were sent before those of the batch. -/
def Sequenced (lz4 : Lz4) (cfg : ProducerConfig) : Step → Producer → Prop
  | .append w _ now, p => Foremost w p ∧
      ∀ s ∈ flying (p.pc w), Appends lz4 p.log (batchOf cfg now (p.entries s))
  | _, _ => True

instance (lz4 : Lz4) (cfg : ProducerConfig) (l : Step) (p : Producer) :
    Decidable (Sequenced lz4 cfg l p) := by
  cases l <;> unfold Sequenced <;> infer_instance

theorem batchOf_some {cfg : ProducerConfig} {now : Int64} {xs : List Entry} :
    (batchOf cfg now (xs.map some)).records = xs.map Entry.record := by
  simp only [batchOf, map_map]
  rfl

structure InTurn (lz4 : Lz4) (rs : List Record) (p : Producer) : Prop where
  sheltered : Sheltered p
  order : ∃ rest out, InOrder (queueOf p) rest out
  logged : Logged lz4 p.log (rs++p.stored.map Entry.record)

theorem step_inTurn (lz4 : Lz4) (lcfg : Config) (cfg : ProducerConfig) (rs : List Record) (l : Step)
    (p p' : Producer) (h : InTurn lz4 rs p) (hg : Sequenced lz4 cfg l p)
    (hs : step lz4 lcfg cfg l p = some p') : InTurn lz4 rs p' := by
  obtain ⟨hsh,he⟩ := step_effect h.sheltered (step_stepped hs)
  obtain ⟨rest,out,ho⟩ := h.order
  have hstored : p'.stored = (queueOf p').stored := rfl
  cases he with
  | stay _ hlog hq =>
    refine ⟨hsh,⟨rest,out,by rw [hq]; exact ho⟩,?_⟩
    rw [hlog, hstored, hq]
    exact h.logged
  | enqueue _ r hlog hq =>
    refine ⟨hsh,⟨_,_,by rw [hq]; exact ho.enqueue r⟩,?_⟩
    rw [hlog, hstored, hq]
    exact h.logged
  | take v _ hv hlog hq =>
    have hnil : (queueOf p).flight v = [] := by
      simp only [queueOf, hv]
      rfl
    refine ⟨hsh,⟨_,_,by rw [hq]; exact ho.take hnil⟩,?_⟩
    rw [hlog, hstored, hq]
    exact h.logged
  | store v env now s o hf ha hq =>
    have hcells : p.entries s = (out v).map some := by rw [← flight_flying p hf, ho.flight]
    have hlog := (append_logged h.logged (hg.2 s hf) ha).2 o rfl
    rw [hcells, batchOf_some] at hlog
    have hfirst : ∀ u, u ≠ v → ∀ x ∈ out v, ∀ y ∈ out u, x.id < y.id := by
      intro u hu x hx y hy
      rcases ht : flying (p.pc u) with _ | t
      · have hnil := ho.flight u
        simp [queueOf, ht, ne_nil_of_mem hy] at hnil
      · have hearlier := hg.1 u hu s hf t ht
        rw [Earlier, hcells, ← flight_flying p ht, ho.flight u, reduceOption_some,
          reduceOption_some] at hearlier
        exact hearlier x hx y hy
    refine ⟨hsh,⟨_,_,by rw [hq]; exact ho.store hfirst⟩,?_⟩
    rw [hstored, hq, Queue.move, ho.flight v, reduceOption_some, map_append, ← append_assoc]
    exact hlog
  | drop v env now s e hf ha hq =>
    refine ⟨hsh,⟨_,_,by rw [hq]; exact ho.drop v⟩,?_⟩
    rw [hstored, hq]
    exact (append_logged h.logged (hg.2 s hf) ha).1 _ rfl

theorem newProducer_inTurn {lz4 : Lz4} {log : CommitLog} {rs : List Record}
    (h : Logged lz4 log rs) : InTurn lz4 rs (newProducer log) := by
  refine ⟨newProducer_sheltered log,⟨[],fun _ => [],⟨rfl,rfl,fun _ => rfl,fun _ => .refl _⟩⟩,?_⟩
  rw [show (newProducer log).stored.map Entry.record = [] from rfl, append_nil]
  exact h

/-- The log holds the records that were there before and then records of the
producer, in the order in which they were enqueued. -/
theorem stored_in_order (lz4 : Lz4) (lcfg : Config) (cfg : ProducerConfig) (log : CommitLog)
    (rs : List Record) (p : Producer) (h : Logged lz4 log rs)
    (hr : Reaches (fun l p p' => step lz4 lcfg cfg l p = some p') (Sequenced lz4 cfg)
      (newProducer log) p) :
    p.stored.Sublist p.sent ∧ Logged lz4 p.log (rs++p.stored.map Entry.record) := by
  have ho := hr.invariant (InTurn lz4 rs) (newProducer_inTurn h)
    (fun l p p' => step_inTurn lz4 lcfg cfg rs l p p')
  obtain ⟨rest,out,hio⟩ := ho.order
  exact ⟨hio.stored,ho.logged⟩

/-! ## Two schedules -/

def smallProducer : ProducerConfig := ⟨30,compressionNone,0,0,false,0⟩

def shortThenLong : List Step :=
  [.send 0 none (some [1]) none 0,.signal 0,.arm,.fire,.swap .linger,
    .send 0 none (some (List.replicate 20 2)) none 0]

def lingerFirst : List Step :=
  shortThenLong++[.swap (.caller 0),.append .linger (still 0) 0,.append (.caller 0) (still 0) 0]

def senderFirst : List Step :=
  shortThenLong++[.swap (.caller 0),.append (.caller 0) (still 0) 0,.append .linger (still 0) 0]

/-- The sender takes its records while the linger goroutine holds its own, and appends after it. -/
theorem linger_first_in_order : ∃ p,
    runAll (step noLz4 defaultConfig smallProducer) lingerFirst (newProducer (smallLog 0)) = some p ∧
    p.stored.length = 2 ∧
    p.stored.Sublist p.sent ∧ Logged noLz4 p.log ([]++p.stored.map Entry.record) := by
  obtain ⟨p,hp,hall⟩ : ∃ p ∈ runAll (step noLz4 defaultConfig smallProducer) lingerFirst
      (newProducer (smallLog 0)), p.stored.length = 2 := by decide +kernel
  exact ⟨p,hp,hall,stored_in_order noLz4 defaultConfig smallProducer (smallLog 0) [] p
    (fresh_logged (smallLog_fresh 0))
    (reaches_of_runAll _ _ (by decide +kernel) hp)⟩

/-- The sender's record is stored first although it was enqueued last. -/
theorem sender_overtakes_linger : ∃ p,
    runAll (step noLz4 defaultConfig smallProducer) senderFirst (newProducer (smallLog 0)) = some p ∧
    p.sent.map Entry.id = [0,1] ∧ p.stored.map Entry.id = [1,0] ∧ ¬p.stored.Sublist p.sent ∧
    (p.log.read noLz4 0 1048576).map (fun bs => bs.flatMap (fun b => b.records.map Record.value)) =
      .ok [some (List.replicate 20 2),some [1]] := by
  obtain ⟨p,hp,hall⟩ : ∃ p ∈ runAll (step noLz4 defaultConfig smallProducer) senderFirst
      (newProducer (smallLog 0)), p.sent.map Entry.id = [0,1] ∧ p.stored.map Entry.id = [1,0] ∧
      ¬p.stored.Sublist p.sent ∧ (p.log.read noLz4 0 1048576).map (fun bs =>
        bs.flatMap (fun b => b.records.map Record.value)) =
      .ok [some (List.replicate 20 2),some [1]] := by decide +kernel
  exact ⟨p,hp,hall⟩

end GoCommon.ForgeProducerOrder
