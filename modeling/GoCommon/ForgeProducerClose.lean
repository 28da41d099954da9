import GoCommon.ForgeProducerOrder

/-!
# Closing a producer

Every record that has been enqueued is in one place: it waits, a flush has
taken it, it is stored or the log has refused it. A close ends with a flush
after which no record waits and none is enqueued any more. So a close that
returns when no flush is on its way to the log leaves every record stored.
-/

set_option autoImplicit false

namespace GoCommon.ForgeProducerClose
open List hiding swap
open Function hiding swap
open ByteWords SliceHeap StepRuns ForgeRecord ForgeSegment ForgeCommitLog ForgeLogRuns
open ForgeProducer ForgeProducerRuns ForgeProducerOrder

/-! ## Where the records are -/

inductive Place where
  | held
  | flight (w : Who)
  | stored
  | dropped
  deriving DecidableEq

def located (place : ℕ → Place) (sent : List Entry) (x : Place) : List Entry :=
  sent.filter (fun e => place e.id = x)

def relocate (a b : Place) (place : ℕ → Place) (i : ℕ) : Place := if place i = a then b else place i

section Relocating
variable (a b : Place) (place : ℕ → Place) (sent : List Entry)

theorem relocate_other {x : Place} (ha : x ≠ a) (hb : x ≠ b) :
    located (relocate a b place) sent x = located place sent x := by
  refine filter_congr (fun e _ => ?_)
  simp only [relocate]
  grind

theorem relocate_source (h : a ≠ b) : located (relocate a b place) sent a = [] := by
  rw [located, filter_eq_nil_iff]
  simp only [relocate]
  grind

theorem relocate_target (h : a ≠ b) : (located (relocate a b place) sent b).Perm
    (located place sent b++located place sent a) := by
  induction sent with
  | nil => exact .refl _
  | cons e sent ih =>
    by_cases ha : place e.id = a
    · simp only [located, relocate, filter_cons, ha, h, if_true, if_false, decide_true,
        decide_false, Bool.false_eq_true] at ih ⊢
      exact (ih.cons e).trans perm_middle.symm
    by_cases hb : place e.id = b
    · simp only [located, relocate, filter_cons, hb, if_true, if_false, decide_true,
        decide_false, Bool.false_eq_true, Ne.symm h, cons_append] at ih ⊢
      exact ih.cons e
    · simp only [located, relocate, filter_cons, ha, hb, if_false,
        decide_false, Bool.false_eq_true] at ih ⊢
      exact ih

theorem relocate_empty (hb : located place sent b = []) :
    located (relocate a b place) sent b = located place sent a := by
  rw [located, filter_eq_nil_iff] at hb
  refine filter_congr (fun e he => ?_)
  simp only [relocate]
  grind

end Relocating

structure Accounted (q : Queue) (place : ℕ → Place) : Prop where
  ids : q.sent.map Entry.id = List.range q.sent.length
  held : q.held = (located place q.sent .held).map some
  flight : ∀ w, q.flight w = (located place q.sent (.flight w)).map some
  stored : q.stored.Perm (located place q.sent .stored)

def placesAfter (n : ℕ) (place : ℕ → Place) : Move → ℕ → Place
  | .stay => place
  | .enqueue _ => update place n .held
  | .take w => relocate .held (.flight w) place
  | .store w => relocate (.flight w) .stored place
  | .drop w => relocate (.flight w) .dropped place

variable {i n : ℕ} {p : Producer} {lz4 : Lz4} {lcfg : Config} {cfg : ProducerConfig} {l : Step}
  {rs : List Record}

section Accounts
variable {q : Queue} {place : ℕ → Place} (h : Accounted q place)
include h

theorem Accounted.id_lt {e : Entry} (he : e ∈ q.sent) : e.id < q.sent.length := by
  have : e.id ∈ q.sent.map Entry.id := mem_map_of_mem he
  rw [h.ids] at this
  exact mem_range.mp this

theorem Accounted.enqueue (r : Record) :
    Accounted (q.move (.enqueue r)) (placesAfter q.sent.length place (.enqueue r)) := by
  have hat : ∀ x, located (update place q.sent.length .held)
      (q.sent++[⟨q.sent.length,r⟩]) x =
        located place q.sent x++if x = .held then [⟨q.sent.length,r⟩] else [] := by
    intro x
    rw [located, filter_append]
    congr 1
    · refine filter_congr (fun e he => ?_)
      rw [update_of_ne (h.id_lt he).ne]
    by_cases hx : x = .held
    · simp [hx]
    · simp [hx, Ne.symm hx]
  refine ⟨?_,?_,fun w => ?_,?_⟩
  · simp [Queue.move, h.ids, range_succ]
  · simp only [Queue.move, placesAfter, hat, if_true, map_append, h.held]
    rfl
  · simp only [Queue.move, placesAfter, hat, h.flight w]
    simp
  · simp only [Queue.move, placesAfter, hat]
    simpa using h.stored

theorem Accounted.take {w : Who} (hw : q.flight w = []) :
    Accounted (q.move (.take w)) (placesAfter q.sent.length place (.take w)) := by
  have hnone : located place q.sent (.flight w) = [] := by
    have := h.flight w
    rw [hw] at this
    exact (map_eq_nil_iff.mp this.symm)
  refine ⟨h.ids,?_,fun v => ?_,?_⟩
  · simp only [Queue.move, placesAfter, relocate_source _ _ _ _ (by simp : Place.held ≠ .flight w)]
    rfl
  · simp only [Queue.move, placesAfter]
    by_cases hv : v = w
    · rw [hv, update_self, relocate_empty _ _ _ _ hnone, h.held]
    · rw [update_of_ne hv, relocate_other _ _ _ _ (by simp) (by simpa using hv), h.flight]
  · simp only [Queue.move, placesAfter]
    rw [relocate_other _ _ _ _ (by simp) (by simp)]
    exact h.stored

theorem Accounted.appended (w : Who) (b : Place) (hb : b ≠ .held) (hf : ∀ v, b ≠ .flight v) :
    q.held = (located (relocate (.flight w) b place) q.sent .held).map some ∧
    ∀ v, update q.flight w [] v =
      (located (relocate (.flight w) b place) q.sent (.flight v)).map some := by
  refine ⟨by rw [relocate_other _ _ _ _ (by simp) hb.symm, h.held],fun v => ?_⟩
  by_cases hv : v = w
  · rw [hv, update_self, relocate_source _ _ _ _ (hf w).symm]
    rfl
  · rw [update_of_ne hv, relocate_other _ _ _ _ (by simpa using hv) (hf v).symm, h.flight]

theorem Accounted.store (w : Who) :
    Accounted (q.move (.store w)) (placesAfter q.sent.length place (.store w)) := by
  obtain ⟨h1,h2⟩ := h.appended w .stored (by simp) (by simp)
  refine ⟨h.ids,h1,h2,?_⟩
  simp only [Queue.move, placesAfter, h.flight w, reduceOption_some]
  exact (h.stored.append_right _).trans (relocate_target _ _ _ _ (by simp)).symm

theorem Accounted.find (hi : i < q.sent.length) :
    ∃ e, q.sent[i]? = some e ∧ e.id = i ∧ q.sent.filter (fun x => x.id = i) = [e] := by
  have hid : ∀ j (hj : j < q.sent.length), q.sent[j].id = j := by
    intro j hj
    have : (q.sent.map Entry.id)[j]? = some j := by rw [h.ids]; simp [hj]
    rw [List.getElem?_map, List.getElem?_eq_getElem hj] at this
    simpa using this
  have hnodup : q.sent.Nodup := by
    refine List.Nodup.of_map Entry.id ?_
    rw [h.ids]
    exact nodup_range
  refine ⟨q.sent[i],List.getElem?_eq_getElem hi,hid i hi,perm_singleton.mp ?_⟩
  refine (perm_ext_iff_of_nodup (hnodup.filter _) (nodup_singleton _)).mpr (fun e => ?_)
  rw [mem_filter, mem_singleton]
  constructor
  · rintro ⟨he,hi'⟩
    obtain ⟨j,hj,rfl⟩ := getElem_of_mem he
    simp only [hid j hj, decide_eq_true_eq] at hi'
    subst hi'
    rfl
  · rintro rfl
    exact ⟨getElem_mem hi,by simpa using hid i hi⟩

theorem Accounted.once (hi : i < q.sent.length) (hp : place i = .stored) :
    ∃ e, q.sent[i]? = some e ∧ q.stored.filter (fun x => x.id = i) = [e] := by
  obtain ⟨e,he,hid,hf⟩ := h.find hi
  refine ⟨e,he,perm_singleton.mp ?_⟩
  have hall : (located place q.sent .stored).filter (fun x => x.id = i) =
      q.sent.filter (fun x => x.id = i) := by
    rw [located, filter_filter]
    grind
  rw [← hf, ← hall]
  exact h.stored.filter _

end Accounts

/-! ## Control -/

def Final (p : Producer) : Prop := p.closed = true ∧ p.pending.len = 0

def Ending (p : Producer) : Prop :=
  Final p ∨ p.closed = true ∧ ∃ c, p.pc .shutdown = .flushing c

def last : Call → Bool
  | .close _ => true
  | .shutdown => true
  | _ => false

def callIds : Call → List ℕ
  | .send id => [id]
  | .close promised => promised
  | _ => []

def ids : Pc → List ℕ
  | .signalling id => [id]
  | .flushing c => callIds c
  | .appending c _ => callIds c
  | .reclaiming c _ _ => callIds c
  | .stopping promised => promised
  | .waiting promised => promised
  | .repeated promised => promised
  | _ => []

def Tells (p : Producer) : Pc → Prop
  | .flushing c => last c = true → p.closed = true
  | .appending c _ => last c = true → Final p
  | .reclaiming c _ _ => last c = true → Final p
  | .waiting _ => Ending p
  | _ => True

structure Controlled (p : Producer) : Prop where
  pcs : ∀ w, Tells p (p.pc w)
  ids : ∀ w, ∀ i ∈ ids (p.pc w), i < p.sent.length
  acked : ∀ i ∈ p.acked, i < p.sent.length
  done : p.done ≠ none → Final p
  finished : p.once = .finished → Ending p

structure Later (p p' : Producer) : Prop where
  closed : p.closed = true → p'.closed = true
  final : Final p → Final p'
  ending : Ending p → Ending p'
  sent : p.sent.length ≤ p'.sent.length

variable {p' : Producer}

theorem Later.tells (h : Later p p') {x : Pc} (hx : Tells p x) : Tells p' x := by
  cases x with
  | flushing c => exact fun hc => h.closed (hx hc)
  | appending c s => exact fun hc => h.final (hx hc)
  | reclaiming c s e => exact fun hc => h.final (hx hc)
  | waiting l => exact h.ending hx
  | _ => trivial

theorem Later.controlled (hl : Later p p') (h : Controlled p)
    (hpc : ∀ w, p'.pc w = p.pc w ∨ Tells p' (p'.pc w) ∧ ∀ i ∈ ids (p'.pc w), i < p'.sent.length)
    (ha : ∀ i ∈ p'.acked, i ∈ p.acked ∨ i < p'.sent.length) (hd : p'.done = p.done ∨ Final p')
    (ho : p'.once = p.once ∨ p'.once ≠ .finished ∨ Ending p') : Controlled p' := by
  refine ⟨fun w => ?_,fun w i hi => ?_,fun i hi => ?_,fun hn => ?_,fun hf => ?_⟩
  · rcases hpc w with he | ⟨ht,_⟩
    · rw [he]
      exact hl.tells (h.pcs w)
    · exact ht
  · rcases hpc w with he | ⟨_,ht⟩
    · rw [he] at hi
      exact lt_of_lt_of_le (h.ids w i hi) hl.sent
    · exact ht i hi
  · rcases ha i hi with hi | hi
    · exact lt_of_lt_of_le (h.acked i hi) hl.sent
    · exact hi
  · rcases hd with he | hf
    · exact hl.final (h.done (by rwa [he] at hn))
    · exact hf
  rcases ho with he | hne | hend
  · exact hl.ending (h.finished (by rwa [he] at hf))
  · exact (hne hf).elim
  · exact hend

def gate (p : Producer) : Bool × Slice × List Entry := (p.closed,p.pending,p.sent)

section Moving
variable {w : Who} {x : Pc}

theorem moved_later (hm : Moved w x p p') (hg : gate p' = gate p)
    (hw : w = .shutdown → (∀ c, p.pc w ≠ .flushing c) ∨ p.pending.len = 0) : Later p p' := by
  simp only [gate, Prod.mk.injEq] at hg
  obtain ⟨h1,h2,h3⟩ := hg
  have hfinal : Final p → Final p' := fun hf => by rwa [Final, h1, h2]
  refine ⟨fun hc => by rwa [h1],hfinal,?_,by rw [h3]⟩
  rintro (hf | ⟨hc,c,hs⟩)
  · exact .inl (hfinal hf)
  by_cases he : w = .shutdown
  · rcases hw he with hn | hz
    · exact (hn c (he ▸ hs)).elim
    · exact .inl (hfinal ⟨hc,hz⟩)
  · refine .inr ⟨by rwa [h1],c,?_⟩
    rw [hm.pc, if_neg (Ne.symm he)]
    exact hs

theorem moved_controlled (h : Controlled p) (hm : Moved w x p p') (hg : gate p' = gate p)
    (hw : w = .shutdown → (∀ c, p.pc w ≠ .flushing c) ∨ p.pending.len = 0) (hx : Tells p x)
    (hids : ∀ i ∈ ids x, i < p.sent.length) (ha : ∀ i ∈ p'.acked, i ∈ p.acked ∨ i < p.sent.length)
    (hd : p'.done = p.done ∨ Final p) (ho : p'.once = p.once ∨ p'.once ≠ .finished ∨ Ending p) :
    Later p p' ∧ Controlled p' := by
  have hl := moved_later hm hg hw
  have hsent : p'.sent = p.sent := by
    simp only [gate, Prod.mk.injEq] at hg
    exact hg.2.2
  refine ⟨hl,hl.controlled h (fun v => ?_) (by rwa [hsent]) (hd.imp id hl.final)
    (ho.imp id (fun ho => ho.imp id hl.ending))⟩
  rw [hm.pc]
  split
  · exact .inr ⟨hl.tells hx,by rwa [hsent]⟩
  · exact .inl rfl

end Moving

theorem finish_controlled (w : Who) (c : Call) (err : Option Stop) (h : Controlled p)
    (hw : w = .shutdown → (∀ c, p.pc w ≠ .flushing c) ∨ p.pending.len = 0)
    (hc : last c = true → Final p) (hi : ∀ i ∈ callIds c, i < p.sent.length) :
    Later p (finish w c err p) ∧ Controlled (finish w c err p) := by
  have hm := (finish_moved w c err p).1
  cases c with
  | send id =>
    refine moved_controlled h hm rfl hw trivial (by simp [ids]) (fun i hm => ?_) (.inl rfl) (.inl rfl)
    simp only [finish, Producer.goto] at hm
    split at hm
    · rcases mem_cons.mp hm with rfl | hm
      · exact .inr (hi i (by simp [callIds]))
      · exact .inl hm
    · exact .inl hm
  | close l =>
    exact moved_controlled h hm rfl hw trivial (by simp [ids]) (fun i hi => .inl hi) (.inl rfl)
      (.inr (.inr (.inl (hc rfl))))
  | shutdown =>
    exact moved_controlled h hm rfl hw trivial (by simp [ids]) (fun i hi => .inl hi) (.inr (hc rfl))
      (.inl rfl)
  | flush =>
    exact moved_controlled h hm rfl hw trivial (by simp [ids]) (fun i hi => .inl hi) (.inl rfl)
      (.inl rfl)
  | linger =>
    exact moved_controlled h hm rfl hw trivial (by simp [ids]) (fun i hi => .inl hi) (.inl rfl)
      (.inl rfl)

theorem enqueue_controlled (cfg : ProducerConfig) (n : ℕ) (key value : Option Bytes)
    (headers : Option (List Header)) (room : ℕ) (h : Controlled p) :
    Later p (enqueue cfg n key value headers room p) ∧
      Controlled (enqueue cfg n key value headers room p) := by
  have hrefl : Later p p := ⟨id,id,id,le_rfl⟩
  unfold enqueue
  split
  · exact ⟨hrefl,h⟩
  split
  · exact ⟨hrefl,h⟩
  rename_i hopen
  split
  · exact ⟨hrefl,h⟩
  generalize hx : (if cfg.batchSize ≤ p.bufSize+recSize key value then
    Pc.flushing (.send p.sent.length) else .signalling p.sent.length) = x
  generalize hs : Producer.goto _ _ _ = p'
  have hm : Moved (.caller n) x p p' := by
    rw [← hs, ← hx]
    exact moved_goto _ _ _ _ rfl (fun ho => ho)
  have hlen : p'.sent.length = p.sent.length+1 := by
    rw [← hs]
    simp [Producer.goto]
  have hl : Later p p' := by
    refine ⟨fun hc => (hopen hc).elim,fun hf => (hopen hf.1).elim,?_,by omega⟩
    rintro (hf | ⟨hc,_⟩)
    · exact (hopen hf.1).elim
    · exact (hopen hc).elim
  have hnew : Tells p' x ∧ ∀ i ∈ ids x, i = p.sent.length := by
    rw [← hx]
    split
    · exact ⟨by simp [Tells, last],by simp [ids, callIds]⟩
    · exact ⟨trivial,by simp [ids]⟩
  refine ⟨hl,hl.controlled h (fun w => ?_) (fun i hi => .inl (by rwa [← hs] at hi))
    (.inl (by rw [← hs]; rfl)) (.inl (by rw [← hs]; rfl))⟩
  rw [hm.pc]
  split
  · exact .inr ⟨hnew.1,fun i hi => by rw [hnew.2 i hi]; omega⟩
  · exact .inl rfl

theorem take_controlled {w : Who} {c : Call} (h : Controlled p)
    (hp : p.pc w = .flushing c) (hne : p.pending.len ≠ 0) :
    Later p (swap w c p) ∧ Controlled (swap w c p) := by
  generalize hs : swap w c p = p'
  rw [swap, if_neg hne] at hs
  have hm : Moved w (.appending c p.pending) p p' := by
    rw [← hs]
    exact moved_goto _ _ _ _ rfl (fun ho => ho)
  have hl : Later p p' := by
    rw [← hs]
    refine ⟨id,fun hf => (hne hf.2).elim,?_,le_rfl⟩
    rintro (hf | ⟨hc,_⟩)
    · exact (hne hf.2).elim
    · exact .inl ⟨hc,rfl⟩
  have hfinal : p.closed = true → Final p' := fun hc => by rw [← hs]; exact ⟨hc,rfl⟩
  have htells := h.pcs w
  have hids := h.ids w
  rw [hp] at htells hids
  refine ⟨hl,hl.controlled h (fun v => ?_) (fun i hi => .inl (by rwa [← hs] at hi))
    (.inl (by rw [← hs]; rfl)) (.inl (by rw [← hs]; rfl))⟩
  rw [hm.pc]
  split
  · exact .inr ⟨fun hc => hfinal (htells hc),fun i hi => lt_of_lt_of_le (hids i hi) hl.sent⟩
  · exact .inl rfl

theorem markClosed_controlled (cfg : ProducerConfig) {promised : List ℕ}
    (h : Controlled p) (hp : p.pc (.caller n) = .stopping promised) :
    Later p (markClosed cfg n promised p) ∧ Controlled (markClosed cfg n promised p) := by
  have hids := h.ids (.caller n)
  rw [hp] at hids
  generalize hs : markClosed cfg n promised p = p'
  have hsame : p'.closed = true ∧ p'.pending = p.pending ∧ p'.sent = p.sent ∧ p'.acked = p.acked ∧
      p'.done = p.done ∧ p'.once = p.once := by
    rw [← hs]
    unfold markClosed
    split <;> exact ⟨rfl,rfl,rfl,rfl,rfl,rfl⟩
  obtain ⟨h1,h2,h3,h4,h5,h6⟩ := hsame
  have hfinal : Final p → Final p' := fun hf => ⟨h1,by rw [h2]; exact hf.2⟩
  by_cases hc : cfg.shutdownTimeout ≤ 0
  · rw [markClosed, if_pos hc] at hs
    have hm : Moved (.caller n) (.flushing (.close promised)) p p' := by
      rw [← hs]
      exact moved_goto _ _ _ _ rfl (fun ho => ho)
    have hl : Later p p' := by
      refine ⟨fun _ => h1,hfinal,?_,by rw [h3]⟩
      rintro (hf | ⟨_,c,hsd⟩)
      · exact .inl (hfinal hf)
      · exact .inr ⟨h1,c,by rw [hm.pc, if_neg (by simp), hsd]⟩
    refine ⟨hl,hl.controlled h (fun v => ?_) (by rw [h4]; exact fun i hi => .inl hi) (.inl h5)
      (.inl h6)⟩
    rw [hm.pc, h3]
    split
    · exact .inr ⟨fun _ => h1,hids⟩
    · exact .inl rfl
  rw [markClosed, if_neg hc] at hs
  have hpc : ∀ v, p'.pc v = if v = .shutdown then .flushing .shutdown
      else if v = .caller n then .waiting promised else p.pc v := by
    intro v
    rw [← hs, Producer.pc, Producer.goto, pcOf_insert, Producer.goto, pcOf_insert]
    rfl
  have hend : Ending p' := .inr ⟨h1,.shutdown,by rw [hpc, if_pos rfl]⟩
  have hl : Later p p' := ⟨fun _ => h1,hfinal,fun _ => hend,by rw [h3]⟩
  refine ⟨hl,hl.controlled h (fun v => ?_) (by rw [h4]; exact fun i hi => .inl hi) (.inl h5)
    (.inl h6)⟩
  rw [hpc, h3]
  split_ifs
  · exact .inr ⟨fun _ => h1,by simp [ids, callIds]⟩
  · exact .inr ⟨hend,hids⟩
  · exact .inl rfl

theorem step_controlled (h : Controlled p) (hs : Stepped lz4 lcfg cfg p l p') :
    Later p p' ∧ Controlled p' := by
  cases hs with
  | send n key value headers room _ => exact enqueue_controlled cfg n key value headers room h
  | signal n id hp =>
    have hid := h.ids (.caller n) id (by simp [hp, ids])
    refine moved_controlled h (moved_goto (.caller n) .idle _ _ rfl (fun ho => ho)) rfl (by simp)
      trivial (by simp [ids]) (fun i hi => ?_) (.inl rfl) (.inl rfl)
    rcases mem_cons.mp hi with rfl | hi
    · exact .inr hid
    · exact .inl hi
  | flush n hp =>
    exact moved_controlled h (moved_goto (.caller n) (.flushing .flush) _ _ rfl (fun ho => ho)) rfl
      (by simp) (by simp [Tells, last]) (by simp [ids, callIds]) (fun i hi => .inl hi) (.inl rfl)
      (.inl rfl)
  | close n hp =>
    unfold beginClose
    split
    · exact moved_controlled h (moved_goto (.caller n) (.stopping p.acked) _ _ rfl (by simp [Producer.goto]))
        rfl (by simp) trivial h.acked (fun i hi => .inl hi) (.inl rfl)
        (.inr (.inl (by simp [Producer.goto])))
    · exact moved_controlled h (moved_goto (.caller n) (.repeated p.acked) _ _ rfl (fun ho => ho))
        rfl (by simp) trivial h.acked (fun i hi => .inl hi) (.inl rfl) (.inl rfl)
  | mark n promised hp => exact markClosed_controlled cfg h hp
  | result n promised err hp _ =>
    have hend : Ending p := by simpa [hp, Tells] using h.pcs (.caller n)
    exact moved_controlled h (moved_goto (.caller n) .idle _ _ rfl (by simp [Producer.goto])) rfl
      (by simp) trivial (by simp [ids]) (fun i hi => .inl hi) (.inl rfl) (.inr (.inr hend))
  | timeout n promised hp =>
    have hend : Ending p := by simpa [hp, Tells] using h.pcs (.caller n)
    exact moved_controlled h (moved_goto (.caller n) .idle _ _ rfl (by simp [Producer.goto])) rfl
      (by simp) trivial (by simp [ids]) (fun i hi => .inl hi) (.inl rfl) (.inr (.inr hend))
  | again n promised hp _ =>
    exact moved_controlled h (moved_goto (.caller n) .idle _ _ rfl (fun ho => ho)) rfl
      (by simp) trivial (by simp [ids]) (fun i hi => .inl hi) (.inl rfl) (.inl rfl)
  | arm hp =>
    exact moved_controlled h (moved_goto .linger .armed _ _ rfl (fun ho => ho)) rfl
      (by simp) trivial (by simp [ids]) (fun i hi => .inl hi) (.inl rfl) (.inl rfl)
  | fire hp =>
    exact moved_controlled h (moved_goto .linger (.flushing .linger) _ _ rfl (fun ho => ho)) rfl
      (by simp) (by simp [Tells, last]) (by simp [ids, callIds]) (fun i hi => .inl hi) (.inl rfl)
      (.inl rfl)
  | stop hp =>
    exact moved_controlled h (moved_goto .linger .exited _ _ rfl (fun ho => ho)) rfl
      (by simp) trivial (by simp [ids]) (fun i hi => .inl hi) (.inl rfl) (.inl rfl)
  | swap w c hp =>
    have htells := h.pcs w
    have hids := h.ids w
    rw [hp] at htells hids
    by_cases hlen : p.pending.len = 0
    · have hdef : ForgeProducer.swap w c p = finish w c none p := if_pos hlen
      rw [hdef]
      exact finish_controlled w c none h (fun _ => .inr hlen) (fun hc => ⟨htells hc,hlen⟩) hids
    · exact take_controlled h hp hlen
  | store w c records env now log o hp _ =>
    have htells := h.pcs w
    have hids := h.ids w
    rw [hp] at htells hids
    exact moved_controlled h (moved_goto w (.reclaiming c records none) _ _ rfl (fun ho => ho)) rfl
      (fun _ => .inl (by simp [hp])) htells hids (fun i hi => .inl hi) (.inl rfl) (.inl rfl)
  | drop w c records env now log e hp _ =>
    have htells := h.pcs w
    have hids := h.ids w
    rw [hp] at htells hids
    exact moved_controlled h (moved_goto w (.reclaiming c records (some (.err e))) _ _ rfl
      (fun ho => ho)) rfl (fun _ => .inl (by simp [hp])) htells hids (fun i hi => .inl hi) (.inl rfl)
      (.inl rfl)
  | reclaim w c records err hp =>
    have htells := h.pcs w
    have hids := h.ids w
    rw [hp] at htells hids
    have hgiven : Controlled { p with
        heap := p.heap.fill none records
        backBuf := if p.backBuf = none then records.arr else p.backBuf } :=
      ⟨h.pcs,h.ids,h.acked,h.done,h.finished⟩
    obtain ⟨hl,hc⟩ := finish_controlled w c (if cfg.onError then none else err) hgiven
      (fun _ => .inl (fun c => by change p.pc w ≠ _; simp [hp])) htells hids
    exact ⟨⟨hl.closed,hl.final,hl.ending,hl.sent⟩,hc⟩

/-! ## Returning from a close -/

def returns (p : Producer) : Step → Bool
  | .swap w => match p.pc w with
    | .flushing (.close _) => p.pending.len = 0
    | _ => false
  | .reclaim w => match p.pc w with
    | .reclaiming (.close _) _ _ => true
    | _ => false
  | .result _ => p.done = some none
  | .again _ => true
  | _ => false

theorem finish_closes (w : Who) (c : Call) (err : Option Stop) (p : Producer) :
    (finish w c err p).closes = p.closes ∨
      ∃ k, c = .close k ∧ (finish w c err p).closes = k::p.closes := by
  cases c with
  | close k =>
    by_cases he : err = none
    · exact .inr ⟨k,rfl,by simp [finish, Producer.goto, he]⟩
    · exact .inl (by simp [finish, Producer.goto, he])
  | _ => exact .inl rfl

theorem step_closes (h : Controlled p) (hs : Stepped lz4 lcfg cfg p l p') : p'.closes = p.closes ∨
      returns p l = true ∧ Ending p ∧
        ∃ k, p'.closes = k::p.closes ∧ ∀ i ∈ k, i < p.sent.length := by
  cases hs with
  | send n key value headers room _ =>
    left
    unfold enqueue
    split_ifs <;> rfl
  | close n _ =>
    left
    unfold beginClose
    split <;> rfl
  | mark n promised _ =>
    left
    unfold markClosed
    split <;> rfl
  | result n promised err hp hdone =>
    by_cases he : err = none
    · subst he
      refine .inr ⟨by simp [returns, hdone],.inl (h.done (by simp [hdone])),promised,rfl,?_⟩
      have := h.ids (.caller n)
      rwa [hp] at this
    · exact .inl (by simp [Producer.goto, he])
  | again n promised hp ho =>
    refine .inr ⟨rfl,h.finished ho,promised,rfl,?_⟩
    have := h.ids (.caller n)
    rwa [hp] at this
  | swap w c hp =>
    by_cases hlen : p.pending.len = 0
    · have hdef : ForgeProducer.swap w c p = finish w c none p := if_pos hlen
      rw [hdef]
      rcases finish_closes w c none p with he | ⟨k,rfl,he⟩
      · exact .inl he
      have htells := h.pcs w
      have hids := h.ids w
      rw [hp] at htells hids
      exact .inr ⟨by simp [returns, hp, hlen],.inl ⟨htells rfl,hlen⟩,k,he,hids⟩
    · left
      rw [ForgeProducer.swap, if_neg hlen]
      rfl
  | reclaim w c records err hp =>
    rcases finish_closes w c (if cfg.onError then none else err) { p with
        heap := p.heap.fill none records
        backBuf := if p.backBuf = none then records.arr else p.backBuf } with he | ⟨k,rfl,he⟩
    · exact .inl he
    have htells := h.pcs w
    have hids := h.ids w
    rw [hp] at htells hids
    exact .inr ⟨by simp [returns, hp],.inl (htells rfl),k,he,hids⟩
  | _ => exact .inl rfl

def Calm (p : Producer) : Prop := Alone p ∧ ∀ c, p.pc .shutdown ≠ .flushing c

instance (p : Producer) : Decidable (Calm p) :=
  match h : p.pc .shutdown with
  | .flushing c => isFalse (fun hc => hc.2 c h)
  | .idle | .signalling _ | .appending _ _ | .reclaiming _ _ _ | .stopping _ | .waiting _
  | .repeated _ | .armed | .exited => decidable_of_iff (Alone p) (by simp [Calm, h])

/-- The log takes a batch: it is not too long, it is encoded and fits its
length field, and the file does not get too large. -/
def Admits (lz4 : Lz4) (cl : CommitLog) (batch : RecordBatch) : Prop :=
  batch.records.length ≤ maxRecordsPerBatch ∧ cl.nextOffset+batch.records.length < 2^64 ∧
  ∃ e, encodeBatch lz4 (assignOffsets cl.nextOffset batch) = .ok e ∧ batchSize e = .ok e.length ∧
    ∀ s ∈ cl.active, s.size+e.length ≤ maxFileSize

instance (lz4 : Lz4) (cl : CommitLog) (batch : RecordBatch) : Decidable (Admits lz4 cl batch) :=
  match h : encodeBatch lz4 (assignOffsets cl.nextOffset batch) with
  | .error _ => isFalse (by simp [Admits, h])
  | .ok e => decidable_of_iff (batch.records.length ≤ maxRecordsPerBatch ∧
      cl.nextOffset+batch.records.length < 2^64 ∧ batchSize e = .ok e.length ∧
      ∀ s ∈ cl.active, s.size+e.length ≤ maxFileSize) (by simp [Admits, h])

theorem Admits.appends {cl : CommitLog} {batch : RecordBatch}
    (h : Admits lz4 cl batch) : Appends lz4 cl batch := by
  obtain ⟨_,hn,e,he,hb,_⟩ := h
  intro e' he'
  rw [he, Except.ok.injEq] at he'
  subst he'
  exact ⟨hb,hn⟩

theorem Admits.succeeds {cl : CommitLog} {batch : RecordBatch}
    (h : Admits lz4 cl batch) (hl : Logged lz4 cl rs) (cfg : Config) (env : Env) :
    (cl.append lz4 cfg env batch).2 = .ok cl.nextOffset := by
  obtain ⟨hlen,_,e,he,_,hs⟩ := h
  obtain ⟨held,last,_,hrep,_⟩ := hl
  exact append_succeeds lz4 cfg env cl batch held last e hrep hlen he (hs last.1 hrep.active)

/-- The log takes every batch, and a close returns only in a calm state. -/
def Accepting (lz4 : Lz4) (cfg : ProducerConfig) : Step → Producer → Prop
  | .append w _ now, p => ∀ s ∈ flying (p.pc w), Admits lz4 p.log (batchOf cfg now (p.entries s))
  | l, p => returns p l = true → Calm p

instance (lz4 : Lz4) (cfg : ProducerConfig) (l : Step) (p : Producer) :
    Decidable (Accepting lz4 cfg l p) :=
  match l with
  | .append w _ now =>
    inferInstanceAs (Decidable (∀ s ∈ flying (p.pc w), Admits lz4 p.log (batchOf cfg now (p.entries s))))
  | .send .. | .signal _ | .flush _ | .close _ | .mark _ | .result _ | .timeout _ | .again _ | .arm
  | .fire | .stop | .swap _ | .reclaim _ => show Decidable (returns p _ = true → Calm p) from inferInstance

structure Secured (lz4 : Lz4) (rs : List Record) (p : Producer) (place : ℕ → Place) : Prop where
  sheltered : Sheltered p
  controlled : Controlled p
  accounted : Accounted (queueOf p) place
  whole : ∀ i, place i ≠ .dropped
  logged : Logged lz4 p.log (rs++p.stored.map Entry.record)
  closes : ∀ l ∈ p.closes, ∀ i ∈ l, i < p.sent.length ∧ place i = .stored

variable {place : ℕ → Place}

theorem Secured.all_stored
    (h : Secured lz4 rs p place) (he : Ending p) (hc : Calm p) (hi : i < p.sent.length) :
    place i = .stored := by
  have hfinal : Final p := he.resolve_right (fun ⟨_,c,hs⟩ => hc.2 c hs)
  obtain ⟨e,hs,hid,_⟩ := h.accounted.find hi
  have hmem : ∀ x, place i = x → e ∈ located place (queueOf p).sent x := by
    intro x hx
    exact mem_filter.mpr ⟨mem_of_getElem? hs,by rw [hid]; exact decide_eq_true hx⟩
  rcases hx : place i with _ | w | _ | _
  · have hheld : (queueOf p).held = [] := by
      simp only [queueOf, ← length_eq_zero_iff, contents_length h.sheltered.pending]
      exact hfinal.2
    have := hmem _ hx
    rw [h.accounted.held, map_eq_nil_iff] at hheld
    rw [hheld] at this
    cases this
  · have hflight : (queueOf p).flight w = [] := by
      simp only [queueOf, hc.1 w]
      rfl
    have := hmem _ hx
    rw [h.accounted.flight, map_eq_nil_iff] at hflight
    rw [hflight] at this
    cases this
  · rfl
  · exact (h.whole i hx).elim

theorem placesAfter_stored (m : Move) (hi : i < n)
    (h : place i = .stored) : placesAfter n place m i = .stored := by
  cases m with
  | stay => exact h
  | enqueue r =>
    rw [placesAfter, update_of_ne hi.ne]
    exact h
  | take w => simp [placesAfter, relocate, h]
  | store w => simp [placesAfter, relocate, h]
  | drop w => simp [placesAfter, relocate, h]

theorem placesAfter_whole (m : Move) (hm : ∀ w, m ≠ .drop w)
    (h : ∀ i, place i ≠ .dropped) (i : ℕ) : placesAfter n place m i ≠ .dropped := by
  cases m with
  | stay => exact h i
  | enqueue r =>
    rw [placesAfter, update_apply]
    split
    · simp
    · exact h i
  | take w =>
    simp only [placesAfter, relocate]
    split
    · simp
    · exact h i
  | store w =>
    simp only [placesAfter, relocate]
    split
    · simp
    · exact h i
  | drop w => exact (hm w rfl).elim

theorem effect_moves (h : Secured lz4 rs p place)
    (hg : Accepting lz4 cfg l p) (he : Effect lz4 lcfg cfg p p' l) :
    ∃ m, queueOf p' = (queueOf p).move m ∧ (∀ w, m ≠ .drop w) ∧
      Accounted ((queueOf p).move m) (placesAfter p.sent.length place m) ∧
      Logged lz4 p'.log (rs++p'.stored.map Entry.record) := by
  have hstored : p'.stored = (queueOf p').stored := rfl
  cases he with
  | stay _ hlog hq =>
    refine ⟨.stay,hq,by simp,h.accounted,?_⟩
    rw [hlog, hstored, hq]
    exact h.logged
  | enqueue _ r hlog hq =>
    refine ⟨.enqueue r,hq,by simp,h.accounted.enqueue r,?_⟩
    rw [hlog, hstored, hq]
    exact h.logged
  | take v _ hf hlog hq =>
    have hnone : (queueOf p).flight v = [] := by
      simp only [queueOf, hf]
      rfl
    refine ⟨.take v,hq,by simp,h.accounted.take hnone,?_⟩
    rw [hlog, hstored, hq]
    exact h.logged
  | store v env now s o hf ha hq =>
    refine ⟨.store v,hq,by simp,h.accounted.store v,?_⟩
    have hlog := (append_logged h.logged (hg s hf).appends ha).2 o rfl
    rw [← flight_flying p hf, h.accounted.flight v, batchOf_some] at hlog
    rw [hstored, hq, Queue.move, h.accounted.flight v, reduceOption_some, map_append,
      ← append_assoc]
    exact hlog
  | drop v env now s e hf ha hq =>
    have := (hg s hf).succeeds h.logged lcfg env
    rw [ha] at this
    cases this

theorem accepting_calm (hg : Accepting lz4 cfg l p) (hr : returns p l = true) : Calm p := by
  cases l with
  | append w env now => cases hr
  | _ => exact hg hr

theorem step_secured (lz4 : Lz4) (lcfg : Config) (cfg : ProducerConfig) (rs : List Record) (l : Step)
    (p p' : Producer) (h : ∃ place, Secured lz4 rs p place) (hg : Accepting lz4 cfg l p)
    (hs : step lz4 lcfg cfg l p = some p') : ∃ place, Secured lz4 rs p' place := by
  obtain ⟨place,h⟩ := h
  have hst := step_stepped hs
  obtain ⟨hsh,he⟩ := step_effect h.sheltered hst
  obtain ⟨hl,hc⟩ := step_controlled h.controlled hst
  obtain ⟨m,hq,hm,hacc,hlog⟩ := effect_moves h hg he
  refine ⟨_,hsh,hc,by rw [hq]; exact hacc,placesAfter_whole m hm h.whole,hlog,?_⟩
  have hkeep : ∀ i, i < p.sent.length → place i = .stored →
      i < p'.sent.length ∧ placesAfter p.sent.length place m i = .stored := fun i hi hp =>
    ⟨lt_of_lt_of_le hi hl.sent,placesAfter_stored m hi hp⟩
  have hold : ∀ k ∈ p.closes, ∀ i ∈ k,
      i < p'.sent.length ∧ placesAfter p.sent.length place m i = .stored := fun k hk i hi =>
    hkeep i (h.closes k hk i hi).1 (h.closes k hk i hi).2
  rcases step_closes h.controlled hst with heq | ⟨hr,hend,k,heq,hk⟩
  · rw [heq]
    exact hold
  rw [heq]
  intro k' hk' i hi
  rcases mem_cons.mp hk' with rfl | hk'
  · exact hkeep i (hk i hi) (h.all_stored hend (accepting_calm hg hr) (hk i hi))
  · exact hold k' hk' i hi

theorem newProducer_secured {log : CommitLog}
    (h : Logged lz4 log rs) : Secured lz4 rs (newProducer log) (fun _ => .held) := by
  refine ⟨newProducer_sheltered log,?_,⟨rfl,rfl,fun _ => rfl,.refl _⟩,by simp,?_,by simp [newProducer]⟩
  · refine ⟨fun w => trivial,fun w i hi => ?_,by simp [newProducer],by simp [newProducer],
      by simp [newProducer]⟩
    cases hi
  · rw [show (newProducer log).stored.map Entry.record = [] from rfl, append_nil]
    exact h

/-- When a close has returned nil, every record whose send had returned nil
before the close was called is in the log once. -/
theorem closed_stores_once (lz4 : Lz4) (lcfg : Config) (cfg : ProducerConfig) (log : CommitLog)
    (rs : List Record) (p : Producer) (h : Logged lz4 log rs)
    (hr : Reaches (fun l p p' => step lz4 lcfg cfg l p = some p') (Accepting lz4 cfg)
      (newProducer log) p) :
    Logged lz4 p.log (rs++p.stored.map Entry.record) ∧ ∀ promised ∈ p.closes, ∀ i ∈ promised,
      ∃ e, p.sent[i]? = some e ∧ p.stored.filter (fun x => x.id = i) = [e] := by
  obtain ⟨place,hs⟩ := hr.invariant (fun p => ∃ place, Secured lz4 rs p place)
    ⟨_,newProducer_secured h⟩
    (fun l p p' => step_secured lz4 lcfg cfg rs l p p')
  refine ⟨hs.logged,fun promised hp i hi => ?_⟩
  obtain ⟨hlt,hplace⟩ := hs.closes promised hp i hi
  exact hs.accounted.once hlt hplace

/-! ## Two schedules -/

def sendFlushClose : List Step :=
  [.send 0 none (some [1]) none 0,.signal 0,.flush 1,.swap (.caller 1),.close 2,.stop,.mark 2]

def appendThenClose : List Step :=
  sendFlushClose++[.append (.caller 1) (still 0) 0,.swap (.caller 2)]

def closeThenAppend : List Step := sendFlushClose++[.swap (.caller 2)]

/-- A flush ends before a close finds the buffer empty. -/
theorem append_then_close_stores : ∃ p,
    runAll (step noLz4 defaultConfig smallProducer) appendThenClose (newProducer (smallLog 0)) =
      some p ∧ p.closes = [[0]] ∧
    Logged noLz4 p.log ([]++p.stored.map Entry.record) ∧ ∀ promised ∈ p.closes, ∀ i ∈ promised,
      ∃ e, p.sent[i]? = some e ∧ p.stored.filter (fun x => x.id = i) = [e] := by
  obtain ⟨p,hp,hall⟩ : ∃ p ∈ runAll (step noLz4 defaultConfig smallProducer) appendThenClose
      (newProducer (smallLog 0)), p.closes = [[0]] := by decide +kernel
  exact ⟨p,hp,hall,closed_stores_once noLz4 defaultConfig smallProducer (smallLog 0) [] p
    (fresh_logged (smallLog_fresh 0))
    (reaches_of_runAll _ _ (by decide +kernel) hp)⟩

/-- Close returns nil although the record of a send that had returned nil
before is not in the log. -/
theorem close_returns_before_append : ∃ p,
    runAll (step noLz4 defaultConfig smallProducer) closeThenAppend (newProducer (smallLog 0)) =
      some p ∧ p.closes = [[0]] ∧ p.sent.map Entry.id = [0] ∧ p.stored = [] ∧
    p.log.newestOffset = 0 ∧ (p.log.read noLz4 0 1048576) = .ok [] := by
  obtain ⟨p,hp,hall⟩ : ∃ p ∈ runAll (step noLz4 defaultConfig smallProducer) closeThenAppend
      (newProducer (smallLog 0)), p.closes = [[0]] ∧ p.sent.map Entry.id = [0] ∧ p.stored = [] ∧
      p.log.newestOffset = 0 ∧ (p.log.read noLz4 0 1048576) = .ok [] := by decide +kernel
  exact ⟨p,hp,hall⟩

end GoCommon.ForgeProducerClose
