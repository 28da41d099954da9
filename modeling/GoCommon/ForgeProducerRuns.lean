import GoCommon.ForgeProducer
import GoCommon.ForgeLogRuns

/-!
# Runs of a producer

Every array of records has one owner: the buffer that is being filled, the
spare buffer, or a flush. So the buffers behave like lists, and a run of the
goroutines is a run of a queue: records are enqueued, taken by a flush, and
stored or dropped by the log.
-/

set_option autoImplicit false

namespace GoCommon.ForgeProducerRuns
open Function ByteWords SliceHeap ForgeRecord ForgeSegment ForgeCommitLog ForgeProducer

/-! ## The queue -/

structure Queue where
  held : List (Option Entry)
  flight : Who → List (Option Entry)
  stored : List Entry
  sent : List Entry

inductive Move where
  | stay
  | enqueue (r : Record)
  | take (w : Who)
  | store (w : Who)
  | drop (w : Who)

def Queue.move (q : Queue) : Move → Queue
  | .stay => q
  | .enqueue r => { q with
      held := q.held++[some ⟨q.sent.length,r⟩]
      sent := q.sent++[⟨q.sent.length,r⟩] }
  | .take w => { q with held := [], flight := update q.flight w q.held }
  | .store w => { q with
      flight := update q.flight w []
      stored := q.stored++(q.flight w).reduceOption }
  | .drop w => { q with flight := update q.flight w [] }

def taken (x : Pc) : Option Slice := match x with
  | .appending _ s => some s
  | .reclaiming _ s _ => some s
  | _ => none

def flying (x : Pc) : Option Slice := match x with
  | .appending _ s => some s
  | _ => none

def queueOf (p : Producer) : Queue where
  held := p.heap.contents p.pending
  flight := fun w => ((flying (p.pc w)).map p.heap.contents).getD []
  stored := p.stored
  sent := p.sent

inductive Owner where
  | pending
  | back
  | flush (w : Who)
  deriving DecidableEq

def owner (p : Producer) : Owner → Option ℕ
  | .pending => p.pending.arr
  | .back => p.backBuf
  | .flush w => (taken (p.pc w)).bind Slice.arr

structure Sheltered (p : Producer) : Prop where
  owns : Owns p.heap (owner p)
  pending : Valid p.heap p.pending
  taken : ∀ w, ∀ s ∈ taken (p.pc w), Valid p.heap s
  unused : p.once = .unused → p.pc .shutdown = .idle ∧ ∀ w l, p.pc w ≠ .stopping l
  stopping : ∀ w l, p.pc w = .stopping l → p.pc .shutdown = .idle ∧
    ∀ v k, p.pc v = .stopping k → v = w

variable (cfg : ProducerConfig) (n : ℕ) (w : Who) (c : Call) (x : Pc) (p : Producer)

variable {s : Slice} {lz4 : Lz4} {lcfg : Config} {l : Step}

theorem flying_taken (h : s ∈ flying x) : s ∈ taken x := by
  cases x <;> simp_all [flying, taken]

theorem flying_none (h : taken x = none) : flying x = none := by
  cases x <;> simp_all [flying, taken]

def memory (p : Producer) : Heap (Option Entry) × Slice × Option ℕ × List Entry × List Entry :=
  (p.heap,p.pending,p.backBuf,p.stored,p.sent)

/-! ## Steps that only move a goroutine -/

structure Moved (w : Who) (x : Pc) (p p' : Producer) : Prop where
  pc : ∀ v, p'.pc v = if v = w then x else p.pc v
  once : p'.once = .unused → p.once = .unused

theorem moved_goto (p p' : Producer) (ht : p'.threads = p.threads.insert w x)
    (ho : p'.once = .unused → p.once = .unused) : Moved w x p p' :=
  ⟨fun v => by rw [Producer.pc, ht, pcOf_insert]; rfl,ho⟩

theorem finish_moved (err : Option Stop) (p : Producer) :
    Moved w .idle p (finish w c err p) ∧ memory (finish w c err p) = memory p ∧
      (finish w c err p).log = p.log := by
  cases c with
  | close l => exact ⟨moved_goto _ _ _ _ rfl (fun h => by cases h),rfl,rfl⟩
  | send i => exact ⟨moved_goto _ _ _ _ rfl id,rfl,rfl⟩
  | flush => exact ⟨moved_goto _ _ _ _ rfl id,rfl,rfl⟩
  | linger => exact ⟨moved_goto _ _ _ _ rfl id,rfl,rfl⟩
  | shutdown => exact ⟨moved_goto _ _ _ _ rfl id,rfl,rfl⟩

section Moving
variable {w : Who} {x : Pc} {p p' : Producer}

theorem moved_control (h : Sheltered p) (hm : Moved w x p p')
    (hw : w = .shutdown → p.pc w ≠ .idle) (hx : ∀ l, x ≠ .stopping l) :
    (p'.once = .unused → p'.pc .shutdown = .idle ∧ ∀ v l, p'.pc v ≠ .stopping l) ∧
    ∀ v l, p'.pc v = .stopping l → p'.pc .shutdown = .idle ∧
      ∀ u k, p'.pc u = .stopping k → u = v := by
  have hstop : ∀ v l, p'.pc v = .stopping l → p.pc v = .stopping l := by
    intro v l hv
    rw [hm.pc] at hv
    split at hv
    · exact absurd hv (hx l)
    · exact hv
  have hidle : p.pc .shutdown = .idle → p'.pc .shutdown = .idle := by
    intro hi
    rw [hm.pc]
    split
    · rename_i he
      exact absurd (he ▸ hi) (hw he.symm)
    · exact hi
  constructor
  · intro hu
    obtain ⟨hi,hn⟩ := h.unused (hm.once hu)
    exact ⟨hidle hi,fun v l hv => hn v l (hstop v l hv)⟩
  · intro v l hv
    obtain ⟨hi,hn⟩ := h.stopping v l (hstop v l hv)
    exact ⟨hidle hi,fun u k hu => hn u k (hstop u k hu)⟩

theorem same_queue (hm : memory p' = memory p) (hf : ∀ v, flying (p'.pc v) = flying (p.pc v)) :
    queueOf p' = queueOf p := by
  simp only [memory, Prod.mk.injEq] at hm
  obtain ⟨h1,h2,_,h4,h5⟩ := hm
  simp only [queueOf, h1, h2, h4, h5, hf]

theorem same_memory (h : Sheltered p) (hm : memory p' = memory p)
    (ht : ∀ v, taken (p'.pc v) = taken (p.pc v)) : Owns p'.heap (owner p') ∧
      Valid p'.heap p'.pending ∧ ∀ v, ∀ s ∈ taken (p'.pc v), Valid p'.heap s := by
  simp only [memory, Prod.mk.injEq] at hm
  obtain ⟨h1,h2,h3,_⟩ := hm
  have ho : owner p' = owner p := by
    funext o
    cases o <;> simp only [owner, h2, h3, ht]
  rw [ho, h1, h2]
  refine ⟨h.owns,h.pending,fun v s hs => ?_⟩
  rw [ht] at hs
  exact h.taken v s hs

theorem moved_sheltered (h : Sheltered p) (hm : Moved w x p p') (hmem : memory p' = memory p)
    (hw : w = .shutdown → p.pc w ≠ .idle) (hx : ∀ l, x ≠ .stopping l) (hold : taken (p.pc w) = none)
    (hnew : taken x = none) : Sheltered p' ∧ queueOf p' = queueOf p := by
  have ht : ∀ v, taken (p'.pc v) = taken (p.pc v) := by
    intro v
    rw [hm.pc]
    split
    · rename_i he
      rw [hnew, he, hold]
    · rfl
  have hf : ∀ v, flying (p'.pc v) = flying (p.pc v) := by
    intro v
    rw [hm.pc]
    split
    · rename_i he
      rw [flying_none x hnew, he, flying_none _ hold]
    · rfl
  obtain ⟨h1,h2,h3⟩ := same_memory h hmem ht
  obtain ⟨h4,h5⟩ := moved_control h hm hw hx
  exact ⟨⟨h1,h2,h3,h4,h5⟩,same_queue hmem hf⟩

end Moving

/-! ## Steps on the buffers -/

theorem owner_flush {p : Producer} {v : Who} (hs : s ∈ taken (p.pc v)) {a : ℕ}
    (ha : a ∈ s.arr) : owner p (.flush v) = some a := by
  rw [owner, Option.mem_def.mp hs]
  exact ha

theorem others_kept {p : Producer} (h : Sheltered p) (o : Owner) (heap : Heap (Option Entry))
    (hf : p.heap.fresh ≤ heap.fresh)
    (ha : ∀ b < p.heap.fresh, owner p o ≠ some b → heap.arrays b = p.heap.arrays b) (v : Who)
    (hv : o ≠ .flush v) : ∀ s ∈ taken (p.pc v),
      Valid heap s ∧ heap.contents s = p.heap.contents s := by
  intro s hs
  refine view_congr (h.taken v s hs) hf (fun a hm => ha a ((h.taken v s hs).bound a hm).1 ?_)
  intro ho
  exact hv ((h.owns (.flush v) a (owner_flush hs hm)).2 o ho)

theorem flight_eq {p p' : Producer} {v : Who} (hp : flying (p'.pc v) = flying (p.pc v))
    (hc : ∀ s ∈ taken (p.pc v), p'.heap.contents s = p.heap.contents s) :
    (queueOf p').flight v = (queueOf p).flight v := by
  simp only [queueOf, hp]
  rcases hs : flying (p.pc v) with _ | s
  · rfl
  · simp [hc s (flying_taken _ hs)]

section Enqueuing
variable {p : Producer} (h : Sheltered p) (e : Entry) (spare : List (Option Entry))
include h

theorem push_sheltered (w : Who) (x : Pc) (p' : Producer) (hm : Moved w x p p')
    (hw : w = .shutdown → p.pc w ≠ .idle) (hx : ∀ l, x ≠ .stopping l)
    (hold : taken (p.pc w) = none) (hnew : taken x = none)
    (hheap : p'.heap = (p.heap.push (some e) spare p.pending).1)
    (hpend : p'.pending = (p.heap.push (some e) spare p.pending).2)
    (hback : p'.backBuf = p.backBuf) : Sheltered p' ∧
      (queueOf p').held = (queueOf p).held++[some e] ∧ (queueOf p').flight = (queueOf p).flight := by
  obtain ⟨hv,hc⟩ := push_spec (some e) spare h.pending
  have hfresh := push_fresh (some e) spare p.heap p.pending
  have ht : ∀ v, taken (p'.pc v) = taken (p.pc v) := by
    intro v
    rw [hm.pc]
    split
    · rename_i he
      rw [hnew, he, hold]
    · rfl
  have hkept := others_kept h .pending p'.heap (by rw [hheap]; exact hfresh)
    (fun b hb ho => by rw [hheap]; exact push_other hb ho)
  have howner : owner p' = update (owner p) .pending p'.pending.arr := by
    funext o
    cases o with
    | pending => rfl
    | back => rw [owner, hback]; rfl
    | flush v => rw [owner, ht]; rfl
  have howns : Owns p'.heap (owner p') := by
    rw [howner]
    rcases push_arr (some e) spare p.heap p.pending with ⟨harr,_⟩ | ⟨harr,hf⟩
    · rw [hpend, harr, show p.pending.arr = owner p .pending from rfl, update_eq_self]
      exact h.owns.grow (by rw [hheap]; exact hfresh)
    · rw [hpend, harr]
      exact h.owns.renew _ (by rw [hheap]; exact hf)
  obtain ⟨h4,h5⟩ := moved_control h hm hw hx
  refine ⟨⟨howns,by rw [hheap, hpend]; exact hv,?_,h4,h5⟩,?_,?_⟩
  · intro v s hs
    rw [ht] at hs
    exact (hkept v (by simp) s hs).1
  · simp only [queueOf, hheap, hpend]
    exact hc
  funext v
  refine flight_eq ?_ (fun s hs => (hkept v (by simp) s hs).2)
  rw [hm.pc]
  split
  · rename_i he
    rw [flying_none x hnew, he, flying_none _ hold]
  · rfl

end Enqueuing

theorem enqueue_sheltered (key value : Option Bytes)
    (headers : Option (List Header)) (room : ℕ) {p : Producer} (h : Sheltered p)
    (hi : p.pc (.caller n) = .idle) :
    Sheltered (enqueue cfg n key value headers room p) ∧
    (enqueue cfg n key value headers room p).log = p.log ∧
    (queueOf (enqueue cfg n key value headers room p) = queueOf p ∨
      queueOf (enqueue cfg n key value headers room p) =
        (queueOf p).move (.enqueue ⟨0,0,key,value,headers⟩)) := by
  unfold enqueue
  split
  · exact ⟨h,rfl,.inl rfl⟩
  split
  · exact ⟨h,rfl,.inl rfl⟩
  split
  · exact ⟨h,rfl,.inl rfl⟩
  let x : Pc := if cfg.batchSize ≤ p.bufSize+recSize key value then
    .flushing (.send p.sent.length) else .signalling p.sent.length
  have hxs : taken x = none ∧ ∀ l, x ≠ .stopping l := by
    dsimp only [x]
    split <;> exact ⟨rfl,fun l => by simp⟩
  let e : Entry := ⟨p.sent.length,⟨0,0,key,value,headers⟩⟩
  let pushed := p.heap.push (some e) (List.replicate room none) p.pending
  let p' : Producer := { p with
    heap := pushed.1
    pending := pushed.2
    bufSize := p.bufSize+recSize key value
    sent := p.sent++[e] }.goto (.caller n) x
  obtain ⟨h1,h2,h3⟩ := push_sheltered h e (List.replicate room none) (.caller n) x p'
    (moved_goto _ _ _ _ rfl id) (by simp) hxs.2 (by rw [hi]; rfl) hxs.1 rfl rfl rfl
  refine ⟨h1,rfl,.inr ?_⟩
  have hq : queueOf p' = ⟨(queueOf p').held,(queueOf p').flight,p.stored,p.sent++[e]⟩ := rfl
  rw [hq, h2, h3]
  rfl

/-! ## Taking, appending and giving back -/

def takenFrom (w : Who) : Owner → Option Owner
  | .pending => some .back
  | .back => none
  | .flush v => if v = w then some .pending else some (.flush v)

theorem takenFrom_injective (i j k : Owner) (hi : takenFrom w i = some k)
    (hj : takenFrom w j = some k) : i = j := by
  cases i <;> cases j <;> grind [takenFrom]

def givenFrom (w : Who) (spare : Bool) : Owner → Option Owner
  | .pending => some .pending
  | .back => if spare then some (.flush w) else some .back
  | .flush v => if v = w then none else some (.flush v)

theorem givenFrom_injective {spare : Bool} (i j k : Owner)
    (hi : givenFrom w spare i = some k) (hj : givenFrom w spare j = some k) : i = j := by
  cases i <;> cases j <;> grind [givenFrom]

theorem take_sheltered (h : Sheltered p) (hf : p.pc w = .flushing c) (hne : p.pending.len ≠ 0) :
    Sheltered (swap w c p) ∧ (swap w c p).log = p.log ∧
      queueOf (swap w c p) = (queueOf p).move (.take w) := by
  have hdef : swap w c p = { p with
      pending := ⟨p.backBuf,0⟩
      backBuf := none
      bufSize := 0 }.goto w (.appending c p.pending) := if_neg hne
  have hm : Moved w (.appending c p.pending) p (swap w c p) := by
    rw [hdef]
    exact moved_goto _ _ _ _ rfl id
  have hheap : (swap w c p).heap = p.heap := by rw [hdef]; rfl
  have hpend : (swap w c p).pending = ⟨p.backBuf,0⟩ := by rw [hdef]; rfl
  have hback : (swap w c p).backBuf = none := by rw [hdef]; rfl
  obtain ⟨h4,h5⟩ := moved_control h hm (fun _ => by rw [hf]; simp) (by simp)
  have howns : Owns (swap w c p).heap (owner (swap w c p)) := by
    rw [hheap]
    refine h.owns.moves (takenFrom w) (takenFrom_injective w) (fun o => ?_)
    cases o with
    | pending => rw [owner, hpend]; rfl
    | back => rw [owner, hback]; rfl
    | flush v =>
      rw [owner, hm.pc, takenFrom]
      split <;> rfl
  refine ⟨⟨howns,?_,?_,h4,h5⟩,by rw [hdef]; rfl,?_⟩
  · rw [hheap, hpend]
    refine ⟨fun a ha => ⟨(h.owns .back a ha).1,Nat.zero_le _⟩,fun _ => rfl⟩
  · intro v s hs
    rw [hm.pc] at hs
    rw [hheap]
    split at hs
    · cases hs
      exact h.pending
    · exact h.taken v s hs
  have hq : queueOf (swap w c p) = ⟨(queueOf (swap w c p)).held,(queueOf (swap w c p)).flight,
      p.stored,p.sent⟩ := by rw [hdef]; rfl
  have hheld : (queueOf (swap w c p)).held = [] := by
    simp only [queueOf, hpend]
    exact contents_zero
  have hflight : (queueOf (swap w c p)).flight =
      update (queueOf p).flight w (queueOf p).held := by
    funext v
    simp only [queueOf, hm.pc, hheap]
    by_cases hv : v = w
    · rw [hv, update_self, if_pos rfl]
      rfl
    · rw [update_of_ne hv, if_neg hv]
  rw [hq, hheld, hflight]
  rfl

theorem append_sheltered (records : Slice) (err : Option Stop)
    (p p' : Producer) (h : Sheltered p) (hp : p.pc w = .appending c records)
    (hm : Moved w (.reclaiming c records err) p p')
    (hmem : p'.heap = p.heap ∧ p'.pending = p.pending ∧ p'.backBuf = p.backBuf ∧ p'.sent = p.sent) :
    Sheltered p' ∧ queueOf p' = { queueOf p with
      flight := update (queueOf p).flight w []
      stored := p'.stored } := by
  obtain ⟨h1,h2,h3,h4⟩ := hmem
  have ht : ∀ v, taken (p'.pc v) = taken (p.pc v) := by
    intro v
    rw [hm.pc]
    split
    · rename_i he
      rw [he, hp]
      rfl
    · rfl
  have ho : owner p' = owner p := by
    funext o
    cases o <;> simp only [owner, h2, h3, ht]
  obtain ⟨h5,h6⟩ := moved_control h hm (fun _ => by rw [hp]; simp) (by simp)
  refine ⟨⟨by rw [h1, ho]; exact h.owns,by rw [h1, h2]; exact h.pending,?_,h5,h6⟩,?_⟩
  · intro v s hs
    rw [ht] at hs
    rw [h1]
    exact h.taken v s hs
  have hflight : (queueOf p').flight = update (queueOf p).flight w [] := by
    funext v
    simp only [queueOf, hm.pc, h1]
    by_cases hv : v = w
    · rw [hv, update_self, if_pos rfl]
      rfl
    · rw [update_of_ne hv, if_neg hv]
  have hq : queueOf p' = ⟨(queueOf p').held,(queueOf p').flight,p'.stored,p'.sent⟩ := rfl
  rw [hq, hflight, h4]
  simp only [queueOf, h1, h2]

theorem reclaim_sheltered {records : Slice}
    {err : Option Stop} {p : Producer} (h : Sheltered p) (hp : p.pc w = .reclaiming c records err) :
    Sheltered (reclaim cfg w c records err p) ∧ (reclaim cfg w c records err p).log = p.log ∧
      queueOf (reclaim cfg w c records err p) = queueOf p := by
  generalize hpg : ({ p with
    heap := p.heap.fill none records
    backBuf := if p.backBuf = none then records.arr else p.backBuf } : Producer) = pg
  have hr : reclaim cfg w c records err p =
      finish w c (if cfg.onError then none else err) pg := by rw [reclaim, hpg]
  obtain ⟨hm,hmem,hlog⟩ := finish_moved w c (if cfg.onError then none else err) pg
  rw [← hr] at hm hmem hlog
  simp only [memory, Prod.mk.injEq] at hmem
  obtain ⟨h1,h2,h3,h4,h5⟩ := hmem
  have hpc : ∀ v, pg.pc v = p.pc v := fun v => by rw [← hpg]; rfl
  have hmoved : Moved w .idle p (reclaim cfg w c records err p) :=
    ⟨fun v => by rw [hm.pc, hpc],fun ho => by have := hm.once ho; rw [← hpg] at this; exact this⟩
  have hheap : (reclaim cfg w c records err p).heap = p.heap.fill none records := by
    rw [h1, ← hpg]
  have hpend : (reclaim cfg w c records err p).pending = p.pending := by rw [h2, ← hpg]
  have hback : (reclaim cfg w c records err p).backBuf =
      if p.backBuf = none then records.arr else p.backBuf := by rw [h3, ← hpg]
  have hw : owner p (.flush w) = records.arr := by rw [owner, hp]; rfl
  have hfresh := fill_fresh none p.heap records
  have hkept : ∀ v, v ≠ w → ∀ s ∈ taken (p.pc v),
      Valid (p.heap.fill none records) s ∧
        (p.heap.fill none records).contents s = p.heap.contents s := fun v hv =>
    others_kept h (.flush w) _ hfresh.ge (fun b _ hb => fill_other b (by rwa [hw] at hb)) v
      (by simpa using Ne.symm hv)
  have hpending : Valid (p.heap.fill none records) p.pending ∧
      (p.heap.fill none records).contents p.pending = p.heap.contents p.pending := by
    refine view_congr h.pending hfresh.ge (fun a ha => fill_other a (fun hb => ?_))
    have := (h.owns .pending a ha).2 (.flush w) (by rw [hw, hb])
    cases this
  have howns : Owns (reclaim cfg w c records err p).heap (owner (reclaim cfg w c records err p)) := by
    rw [hheap]
    refine (h.owns.moves (givenFrom w (p.backBuf = none)) (givenFrom_injective w)
      (fun o => ?_)).grow hfresh.ge
    cases o with
    | pending => rw [owner, hpend]; rfl
    | back =>
      rw [owner, hback, givenFrom]
      by_cases hb : p.backBuf = none
      · simp [hb, hw]
      · simp [hb, owner]
    | flush v =>
      rw [owner, hmoved.pc, givenFrom]
      split <;> rfl
  obtain ⟨h6,h7⟩ := moved_control h hmoved (fun _ => by rw [hp]; simp) (by simp)
  refine ⟨⟨howns,by rw [hheap, hpend]; exact hpending.1,?_,h6,h7⟩,by rw [hlog, ← hpg],?_⟩
  · intro v s hs
    rw [hmoved.pc] at hs
    rw [hheap]
    split at hs
    · cases hs
    · rename_i hv
      exact (hkept v hv s hs).1
  have hflight : (queueOf (reclaim cfg w c records err p)).flight = (queueOf p).flight := by
    funext v
    by_cases hv : v = w
    · simp only [queueOf, hmoved.pc, hv, if_true, hp]
      rfl
    refine flight_eq ?_ (fun s hs => ?_)
    · rw [hmoved.pc, if_neg hv]
    · rw [hheap]
      exact (hkept v hv s hs).2
  have hq : queueOf (reclaim cfg w c records err p) = ⟨(queueOf (reclaim cfg w c records err p)).held,
      (queueOf (reclaim cfg w c records err p)).flight,p.stored,p.sent⟩ := by
    rw [show p.stored = (reclaim cfg w c records err p).stored by rw [h4, ← hpg],
      show p.sent = (reclaim cfg w c records err p).sent by rw [h5, ← hpg]]
    rfl
  rw [hq, hflight]
  simp only [queueOf, hheap, hpend, hpending.2]

/-! ## Steps -/

inductive Stepped (lz4 : Lz4) (lcfg : Config) (cfg : ProducerConfig) (p : Producer) :
    Step → Producer → Prop where
  | send (n : ℕ) (key value : Option Bytes) (headers : Option (List Header)) (room : ℕ) :
      p.pc (.caller n) = .idle →
      Stepped lz4 lcfg cfg p (.send n key value headers room) (enqueue cfg n key value headers room p)
  | signal (n id : ℕ) : p.pc (.caller n) = .signalling id →
      Stepped lz4 lcfg cfg p (.signal n)
        ({ p with signalled := true, acked := id::p.acked }.goto (.caller n) .idle)
  | flush (n : ℕ) : p.pc (.caller n) = .idle →
      Stepped lz4 lcfg cfg p (.flush n) (p.goto (.caller n) (.flushing .flush))
  | close (n : ℕ) : p.pc (.caller n) = .idle → Stepped lz4 lcfg cfg p (.close n) (beginClose n p)
  | mark (n : ℕ) (promised : List ℕ) : p.pc (.caller n) = .stopping promised →
      Stepped lz4 lcfg cfg p (.mark n) (markClosed cfg n promised p)
  | result (n : ℕ) (promised : List ℕ) (err : Option Stop) : p.pc (.caller n) = .waiting promised →
      p.done = some err → Stepped lz4 lcfg cfg p (.result n) ({ p with
        once := .finished
        closes := if err = none then promised::p.closes else p.closes }.goto (.caller n) .idle)
  | timeout (n : ℕ) (promised : List ℕ) : p.pc (.caller n) = .waiting promised →
      Stepped lz4 lcfg cfg p (.timeout n) ({ p with once := .finished }.goto (.caller n) .idle)
  | again (n : ℕ) (promised : List ℕ) : p.pc (.caller n) = .repeated promised →
      p.once = .finished → Stepped lz4 lcfg cfg p (.again n)
        ({ p with closes := promised::p.closes }.goto (.caller n) .idle)
  | arm : p.pc .linger = .idle →
      Stepped lz4 lcfg cfg p .arm ({ p with signalled := false }.goto .linger .armed)
  | fire : p.pc .linger = .armed →
      Stepped lz4 lcfg cfg p .fire (p.goto .linger (.flushing .linger))
  | stop : p.pc .linger = .idle ∨ p.pc .linger = .armed →
      Stepped lz4 lcfg cfg p .stop (p.goto .linger .exited)
  | swap (w : Who) (c : Call) : p.pc w = .flushing c →
      Stepped lz4 lcfg cfg p (.swap w) (swap w c p)
  | store (w : Who) (c : Call) (records : Slice) (env : Env) (now : Int64) (log : CommitLog) (o : ℕ) :
      p.pc w = .appending c records →
      p.log.append lz4 lcfg env (batchOf cfg now (p.entries records)) = (log,.ok o) →
      Stepped lz4 lcfg cfg p (.append w env now) ({ p with
        log := log
        stored := p.stored++(p.entries records).reduceOption }.goto w (.reclaiming c records none))
  | drop (w : Who) (c : Call) (records : Slice) (env : Env) (now : Int64) (log : CommitLog) (e : Err) :
      p.pc w = .appending c records →
      p.log.append lz4 lcfg env (batchOf cfg now (p.entries records)) = (log,.error (.err e)) →
      Stepped lz4 lcfg cfg p (.append w env now)
        ({ p with log := log }.goto w (.reclaiming c records (some (.err e))))
  | reclaim (w : Who) (c : Call) (records : Slice) (err : Option Stop) :
      p.pc w = .reclaiming c records err →
      Stepped lz4 lcfg cfg p (.reclaim w) (reclaim cfg w c records err p)

theorem step_stepped {cfg : ProducerConfig} {p p' : Producer}
    (h : step lz4 lcfg cfg l p = some p') : Stepped lz4 lcfg cfg p l p' := by
  cases l with
  | append w env now =>
    simp only [step] at h
    split at h
    · rename_i c records hp
      simp only [appendTaken] at h
      split at h
      · cases h
        exact .store w c records env now _ _ hp ‹_›
      · cases h
        exact .drop w c records env now _ _ hp ‹_›
      · cases h
    · cases h
  | arm =>
    simp only [step] at h
    split at h
    · split at h
      · cases h
        exact .arm ‹_›
      · cases h
    · cases h
  | stop =>
    simp only [step] at h
    split at h
    · split at h
      · cases h
        exact .stop (.inl ‹_›)
      · cases h
        exact .stop (.inr ‹_›)
      · cases h
    · cases h
  | _ =>
    simp only [step] at h
    split at h
    · cases h
      constructor
      all_goals assumption
    · cases h

theorem beginClose_sheltered (h : Sheltered p) (hp : p.pc (.caller n) = .idle) :
    Sheltered (beginClose n p) ∧ queueOf (beginClose n p) = queueOf p := by
  have hold : taken (p.pc (.caller n)) = none := by rw [hp]; rfl
  by_cases hu : p.once = .unused
  · have hdef : beginClose n p =
        { p with stopped := true, once := .running }.goto (.caller n) (.stopping p.acked) :=
      if_pos hu
    have hm : Moved (.caller n) (.stopping p.acked) p (beginClose n p) := by
      rw [hdef]
      exact moved_goto _ _ _ _ rfl (fun ho => by cases ho)
    have hmem : memory (beginClose n p) = memory p := by rw [hdef]; rfl
    have ht : ∀ v, taken ((beginClose n p).pc v) = taken (p.pc v) := by
      intro v
      rw [hm.pc]
      split
      · rename_i he
        rw [he, hold]
        rfl
      · rfl
    have hf : ∀ v, flying ((beginClose n p).pc v) = flying (p.pc v) := by
      intro v
      rw [hm.pc]
      split
      · rename_i he
        rw [he, hp]
        rfl
      · rfl
    obtain ⟨h1,h2,h3⟩ := same_memory h hmem ht
    obtain ⟨hidle,hnone⟩ := h.unused hu
    have hcaller : ∀ v l, (beginClose n p).pc v = .stopping l → v = .caller n := by
      intro v l hv
      rw [hm.pc] at hv
      by_contra hne
      rw [if_neg hne] at hv
      exact hnone v l hv
    refine ⟨⟨h1,h2,h3,fun ho => ?_,fun v l hv => ⟨?_,fun u k hk => ?_⟩⟩,same_queue hmem hf⟩
    · rw [hdef] at ho
      cases ho
    · rw [hm.pc]
      exact hidle
    · rw [hcaller u k hk, hcaller v l hv]
  · have hdef : beginClose n p = p.goto (.caller n) (.repeated p.acked) := if_neg hu
    rw [hdef]
    exact moved_sheltered h (moved_goto _ _ _ _ rfl id) rfl (by simp) (by simp) hold rfl

theorem markClosed_sheltered {promised : List ℕ} {p : Producer}
    (h : Sheltered p) (hp : p.pc (.caller n) = .stopping promised) :
    Sheltered (markClosed cfg n promised p) ∧ queueOf (markClosed cfg n promised p) = queueOf p := by
  have hold : taken (p.pc (.caller n)) = none := by rw [hp]; rfl
  obtain ⟨hidle,honly⟩ := h.stopping _ _ hp
  by_cases hc : cfg.shutdownTimeout ≤ 0
  · have hdef : markClosed cfg n promised p =
        { p with closed := true }.goto (.caller n) (.flushing (.close promised)) := if_pos hc
    rw [hdef]
    exact moved_sheltered h (moved_goto _ _ _ _ rfl id) rfl (by simp) (by simp) hold rfl
  let q : Producer := { p with closed := true }.goto (.caller n) (.waiting promised)
  have hdef : markClosed cfg n promised p = q.goto .shutdown (.flushing .shutdown) := if_neg hc
  have hq : Moved (.caller n) (.waiting promised) p q := moved_goto _ _ _ _ rfl id
  have hm : Moved .shutdown (.flushing .shutdown) q (markClosed cfg n promised p) := by
    rw [hdef]
    exact moved_goto _ _ _ _ rfl id
  have hpc : ∀ v, (markClosed cfg n promised p).pc v = if v = .shutdown then .flushing .shutdown
      else if v = .caller n then .waiting promised else p.pc v := by
    intro v
    rw [hm.pc, hq.pc]
  have hmem : memory (markClosed cfg n promised p) = memory p := by rw [hdef]; rfl
  have hnone : ∀ v l, (markClosed cfg n promised p).pc v ≠ .stopping l := by
    intro v l hv
    rw [hpc] at hv
    split_ifs at hv with _ hne
    exact hne (honly v l hv)
  have ht : ∀ v, taken ((markClosed cfg n promised p).pc v) = taken (p.pc v) := by
    intro v
    rw [hpc]
    split_ifs with h1 h2
    · rw [h1, hidle]
      rfl
    · rw [h2, hp]
      rfl
    · rfl
  have hf : ∀ v, flying ((markClosed cfg n promised p).pc v) = flying (p.pc v) := by
    intro v
    rw [hpc]
    split_ifs with h1 h2
    · rw [h1, hidle]
      rfl
    · rw [h2, hp]
      rfl
    · rfl
  obtain ⟨h1,h2,h3⟩ := same_memory h hmem ht
  refine ⟨⟨h1,h2,h3,fun ho => ?_,fun v l hv => (hnone v l hv).elim⟩,same_queue hmem hf⟩
  rw [hdef] at ho
  exact ((h.unused ho).2 _ _ hp).elim

inductive Effect (lz4 : Lz4) (lcfg : Config) (cfg : ProducerConfig) (p p' : Producer) : Step → Prop where
  | stay (l : Step) : p'.log = p.log → queueOf p' = queueOf p → Effect lz4 lcfg cfg p p' l
  | enqueue (l : Step) (r : Record) : p'.log = p.log →
      queueOf p' = (queueOf p).move (.enqueue r) → Effect lz4 lcfg cfg p p' l
  | take (w : Who) : p.pending.len ≠ 0 → flying (p.pc w) = none → p'.log = p.log →
      queueOf p' = (queueOf p).move (.take w) → Effect lz4 lcfg cfg p p' (.swap w)
  | store (w : Who) (env : Env) (now : Int64) (s : Slice) (o : ℕ) : s ∈ flying (p.pc w) →
      p.log.append lz4 lcfg env (batchOf cfg now (p.entries s)) = (p'.log,.ok o) →
      queueOf p' = (queueOf p).move (.store w) → Effect lz4 lcfg cfg p p' (.append w env now)
  | drop (w : Who) (env : Env) (now : Int64) (s : Slice) (e : Err) : s ∈ flying (p.pc w) →
      p.log.append lz4 lcfg env (batchOf cfg now (p.entries s)) = (p'.log,.error (.err e)) →
      queueOf p' = (queueOf p).move (.drop w) → Effect lz4 lcfg cfg p p' (.append w env now)

theorem flight_flying {w : Who} (h : s ∈ flying (p.pc w)) : (queueOf p).flight w = p.entries s := by
  simp only [queueOf, Option.mem_def.mp h]
  rfl

theorem Moved.effect {cfg : ProducerConfig} {w : Who} {x : Pc}
    {p p' : Producer} (hm : Moved w x p p') (h : Sheltered p)
    (hmem : memory p' = memory p ∧ p'.log = p.log) (hw : w = .shutdown → p.pc w ≠ .idle)
    (hx : ∀ k, x ≠ .stopping k) (hold : taken (p.pc w) = none) (hnew : taken x = none) :
    Sheltered p' ∧ Effect lz4 lcfg cfg p p' l := by
  obtain ⟨h1,h2⟩ := moved_sheltered h hm hmem.1 hw hx hold hnew
  exact ⟨h1,.stay l hmem.2 h2⟩

theorem goto_effect {cfg : ProducerConfig} {p q : Producer}
    (h : Sheltered p) {w : Who} {x : Pc} (ht : q.threads = p.threads)
    (hmem : memory q = memory p ∧ q.log = p.log) (ho : q.once = .unused → p.once = .unused)
    (hw : w ≠ .shutdown) (hx : ∀ k, x ≠ .stopping k) (hold : taken (p.pc w) = none)
    (hnew : taken x = none) : Sheltered (q.goto w x) ∧ Effect lz4 lcfg cfg p (q.goto w x) l :=
  (moved_goto w x p (q.goto w x) (by rw [← ht]; rfl) ho).effect h hmem (fun e => (hw e).elim) hx hold
    hnew

theorem step_effect {cfg : ProducerConfig} {p p' : Producer}
    (h : Sheltered p) (hs : Stepped lz4 lcfg cfg p l p') :
    Sheltered p' ∧ Effect lz4 lcfg cfg p p' l := by
  cases hs with
  | send n key value headers room hp =>
    obtain ⟨h1,h2,h3 | h3⟩ := enqueue_sheltered cfg n key value headers room h hp
    · exact ⟨h1,.stay _ h2 h3⟩
    · exact ⟨h1,.enqueue _ _ h2 h3⟩
  | signal n id hp =>
    exact goto_effect h rfl ⟨rfl,rfl⟩ (fun ho => ho) (by simp) (by simp) (by rw [hp]; rfl) rfl
  | flush n hp =>
    exact goto_effect h rfl ⟨rfl,rfl⟩ (fun ho => ho) (by simp) (by simp) (by rw [hp]; rfl) rfl
  | close n hp =>
    obtain ⟨h1,h2⟩ := beginClose_sheltered n p h hp
    refine ⟨h1,.stay _ ?_ h2⟩
    unfold beginClose
    split <;> rfl
  | mark n promised hp =>
    obtain ⟨h1,h2⟩ := markClosed_sheltered cfg n h hp
    refine ⟨h1,.stay _ ?_ h2⟩
    unfold markClosed
    split <;> rfl
  | result n promised err hp _ =>
    exact goto_effect h rfl ⟨rfl,rfl⟩ (fun ho => by cases ho) (by simp) (by simp)
      (by rw [hp]; rfl) rfl
  | timeout n promised hp =>
    exact goto_effect h rfl ⟨rfl,rfl⟩ (fun ho => by cases ho) (by simp) (by simp)
      (by rw [hp]; rfl) rfl
  | again n promised hp _ =>
    exact goto_effect h rfl ⟨rfl,rfl⟩ (fun ho => ho) (by simp) (by simp) (by rw [hp]; rfl) rfl
  | arm hp =>
    exact goto_effect h rfl ⟨rfl,rfl⟩ (fun ho => ho) (by simp) (by simp) (by rw [hp]; rfl) rfl
  | fire hp =>
    exact goto_effect h rfl ⟨rfl,rfl⟩ (fun ho => ho) (by simp) (by simp) (by rw [hp]; rfl) rfl
  | stop hp =>
    exact goto_effect h rfl ⟨rfl,rfl⟩ (fun ho => ho) (by simp) (by simp)
      (by rcases hp with hp | hp <;> rw [hp] <;> rfl) rfl
  | swap w c hp =>
    by_cases hlen : p.pending.len = 0
    · have hdef : ForgeProducer.swap w c p = finish w c none p := if_pos hlen
      obtain ⟨hm,hmem⟩ := finish_moved w c none p
      rw [hdef]
      exact hm.effect h hmem (fun _ => by rw [hp]; simp) (by simp) (by rw [hp]; rfl) rfl
    · obtain ⟨h1,h2,h3⟩ := take_sheltered w c p h hp hlen
      exact ⟨h1,.take w hlen (by rw [hp]; rfl) h2 h3⟩
  | store w c records env now log o hp ha =>
    obtain ⟨h1,h2⟩ := append_sheltered w c records none p ({ p with
        log := log
        stored := p.stored++(p.entries records).reduceOption }.goto w (.reclaiming c records none))
      h hp (moved_goto _ _ _ _ rfl id) ⟨rfl,rfl,rfl,rfl⟩
    have hf : records ∈ flying (p.pc w) := by rw [hp]; rfl
    refine ⟨h1,.store w env now records o hf ha ?_⟩
    rw [h2, Queue.move, flight_flying p hf]
    rfl
  | drop w c records env now log e hp ha =>
    obtain ⟨h1,h2⟩ := append_sheltered w c records (some (.err e)) p
      ({ p with log := log }.goto w (.reclaiming c records (some (.err e)))) h hp
      (moved_goto _ _ _ _ rfl id) ⟨rfl,rfl,rfl,rfl⟩
    have hf : records ∈ flying (p.pc w) := by rw [hp]; rfl
    exact ⟨h1,.drop w env now records e hf ha h2⟩
  | reclaim w c records err hp =>
    obtain ⟨h1,h2,h3⟩ := reclaim_sheltered cfg w c h hp
    exact ⟨h1,.stay _ h2 h3⟩

theorem newProducer_sheltered (log : CommitLog) : Sheltered (newProducer log) := by
  have howner : owner (newProducer log) = fun o =>
      match o with | .pending => some 0 | .back => some 1 | .flush _ => none := by
    funext o
    cases o <;> rfl
  refine ⟨?_,?_,?_,?_,?_⟩
  · rw [howner]
    intro o a ha
    cases o <;> simp only [Option.some.injEq, reduceCtorEq] at ha
    all_goals
      subst ha
      refine ⟨by simp [newProducer],fun o' ho' => ?_⟩
      cases o' <;> simp at ho' ⊢
  · refine ⟨fun a ha => ?_,fun ha => rfl⟩
    cases ha
    simp [newProducer]
  · intro w s hs
    cases hs
  · exact fun _ => ⟨rfl,fun w l hl => by cases hl⟩
  · intro w l hl
    cases hl

end GoCommon.ForgeProducerRuns
