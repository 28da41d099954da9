import GoCommon.RingBuffer
import GoCommon.LinkedListBuffer

/-!
# The elastic buffer

Bytes go into a ring until it holds the static limit, and then into a linked
list. The ring is any queue of bytes; the length and the room it reports are any
numbers. As long as the list holds something, nothing goes into the ring, and so
the bytes of the ring are older than those of the list. A call in which the pool hands out
a slice that is too short panics.
-/

set_option autoImplicit false

namespace GoCommon.ElasticBuffer
open List RingBuffer LinkedListBuffer

structure FifoRing (σ : Type) where
  contents : σ → List UInt8
  read : ℕ → σ → σ × Except RingError (List UInt8)
  discard : ℤ → σ → σ × ℕ
  peek : ℤ → σ → List UInt8 × List UInt8
  write : List UInt8 → σ → σ × ℕ
  buffered : σ → ℕ
  available : σ → ℕ
  len : σ → ℕ
  read_contents : ∀ m s, 0 < m → contents (read m s).1 = (contents s).drop m
  read_bytes : ∀ m s, 0 < m →
    (read m s).2 = if contents s = [] then .error .ringEmpty else .ok ((contents s).take m)
  discard_contents : ∀ n s, 0 < n → contents (discard n s).1 = (contents s).drop n.toNat
  discard_count : ∀ n s, 0 < n → (discard n s).2 = min n.toNat (contents s).length
  peek_bytes : ∀ n s, 0 < n → (peek n s).1++(peek n s).2 = (contents s).take n.toNat
  write_contents : ∀ p s, contents (write p s).1 = contents s++p
  write_count : ∀ p s, (write p s).2 = p.length
  buffered_eq : ∀ s, buffered s = (contents s).length

inductive ElasticError where
  | negativeSize
  | ring (e : RingError)
  | list (e : ListError)
  deriving DecidableEq, Repr

structure Elastic (σ : Type) where
  maxStaticBytes : ℕ
  ring : σ
  list : ListBuffer

def newElastic {σ : Type} (maxStaticBytes : ℤ) (ring : σ) (heap : Memory) :
    Except ElasticError (Elastic σ) :=
  if maxStaticBytes ≤ 0 then .error .negativeSize else .ok ⟨maxStaticBytes.toNat,ring,.new heap⟩

variable {σ : Type} (F : FifoRing σ)

namespace Elastic

def buffered (eb : Elastic σ) : ℤ := F.buffered eb.ring+eb.list.buffered

def read (m : ℕ) (eb : Elastic σ) : Elastic σ × List UInt8 × Option ElasticError :=
  if m = 0 then (eb,[],none)
  else
    let (ring,got) := F.read m eb.ring
    let (ringRead,err) : List UInt8 × Option ElasticError := match got with
      | .ok bs => (bs,none)
      | .error e => ([],some (.ring e))
    if ringRead.length = m then ({ eb with ring := ring },ringRead,err)
    else
      let (list,listRead,err) := eb.list.read (m-ringRead.length)
      ({ eb with ring := ring, list := list },ringRead++listRead,err.map .list)

def peekBoth (n : ℤ) (eb : Elastic σ) : Except ListError (List (List UInt8)) :=
  let (head,tail) := F.peek n eb.ring
  if n ≤ F.buffered eb.ring then .ok [head,tail] else eb.list.peekWithBytes n [head,tail]

def peek (n : ℤ) (eb : Elastic σ) : Except ListError (List (List UInt8)) :=
  if n ≤ 0 ∨ n = maxInt32 then eb.peekBoth F maxInt32
  else if eb.buffered F < n then .error .shortBuffer
  else eb.peekBoth F n

def discard (n : ℤ) (eb : Elastic σ) : Elastic σ × ℕ :=
  if n ≤ 0 then (eb,0)
  else
    let (ring,ringDiscarded) := F.discard n eb.ring
    if n ≤ ringDiscarded then ({ eb with ring := ring },ringDiscarded)
    else
      let (list,listDiscarded) := eb.list.discard (n-ringDiscarded)
      ({ eb with ring := ring, list := list },ringDiscarded+listDiscarded)

def shouldOverflow (eb : Elastic σ) : Bool :=
  !eb.list.isEmpty || decide (eb.maxStaticBytes ≤ F.buffered eb.ring)

def write (p : List UInt8) (eb : Elastic σ) : Elastic σ × ℕ :=
  if p.length = 0 then (eb,0)
  else if eb.shouldOverflow F then ({ eb with list := eb.list.pushBack p },p.length)
  else if eb.maxStaticBytes ≤ F.len eb.ring ∧ F.available eb.ring < p.length then
    let ringSpace := F.available eb.ring
    ({ eb with
      ring := (F.write (p.take ringSpace) eb.ring).1
      list := eb.list.pushBack (p.drop ringSpace) },p.length)
  else
    let (ring,n) := F.write p eb.ring
    ({ eb with ring := ring },n)

def listLoop : List (List UInt8) → Elastic σ → ℕ → Elastic σ × ℕ
  | [], eb, total => (eb,total)
  | slice::rest, eb, total =>
    listLoop rest { eb with list := eb.list.pushBack slice } (total+slice.length)

def splitLoop : List (List UInt8) → ℕ → Elastic σ → ℕ → Elastic σ × ℕ
  | [], _, eb, total => (eb,total)
  | slice::rest, ringSpace, eb, total =>
    if ringSpace < slice.length then
      listLoop rest { eb with
        ring := (F.write (slice.take ringSpace) eb.ring).1
        list := eb.list.pushBack (slice.drop ringSpace) } (total+slice.length)
    else
      let (ring,written) := F.write slice eb.ring
      splitLoop rest (ringSpace-written) { eb with ring := ring } (total+slice.length)

def writev (slices : List (List UInt8)) (eb : Elastic σ) : Elastic σ × ℕ :=
  if slices.length = 0 then (eb,0)
  else if eb.shouldOverflow F then listLoop slices eb 0
  else
    let ringSpace := if F.len eb.ring < eb.maxStaticBytes then eb.maxStaticBytes-F.buffered eb.ring
      else F.available eb.ring
    splitLoop F slices ringSpace eb 0

/-! ## One queue -/

def contents (eb : Elastic σ) : List UInt8 := F.contents eb.ring++eb.list.contents

def Queued (eb : Elastic σ) (q : List UInt8) : Prop := eb.contents F = q ∧ eb.list.Counted

variable {F} {eb : Elastic σ} {q : List UInt8}

theorem Queued.buffered_eq (h : eb.Queued F q) : eb.buffered F = q.length := by
  rw [buffered, F.buffered_eq, ListBuffer.buffered, h.2.2, ← h.1, contents, length_append]
  rfl

theorem Queued.read (h : eb.Queued F q) (m : ℕ) :
    (eb.read F m).1.Queued F (q.drop m) ∧ (eb.read F m).2.1 = q.take m ∧
      (eb.read F m).2.2 = if q.length < m ∧ eb.list.contents = [] then some (.list .eof) else none := by
  obtain ⟨rfl,hc⟩ := h
  by_cases hm : m = 0
  · subst hm
    rw [Elastic.read]
    exact ⟨⟨rfl,hc⟩,rfl,by simp⟩
  have hb := F.read_bytes m eb.ring (by omega)
  have hd := F.read_contents m eb.ring (by omega)
  rw [Elastic.read, if_neg hm]
  generalize F.read m eb.ring = r at hb hd ⊢
  obtain ⟨ring,got⟩ := r
  -- what the ring contributes, also where it reports that it is empty
  have hring : (match got with
      | .ok bs => (bs,(none : Option ElasticError))
      | .error e => ([],some (.ring e))) = ((F.contents eb.ring).take m,
        if F.contents eb.ring = [] then some (.ring .ringEmpty) else none) := by
    rw [show got = _ from hb]
    by_cases hnil : F.contents eb.ring = []
    · rw [if_pos hnil, if_pos hnil, hnil, take_nil]
    · rw [if_neg hnil, if_neg hnil]
  dsimp only at hd ⊢
  rw [hring]
  dsimp only
  rw [contents, length_append, length_take, take_append, drop_append]
  by_cases hfull : m ≤ (F.contents eb.ring).length
  · have hsome : F.contents eb.ring ≠ [] := length_pos_iff.mp (by omega)
    rw [if_pos (by omega), show m-(F.contents eb.ring).length = 0 by omega, if_neg hsome,
      take_zero, append_nil, if_neg (by omega)]
    exact ⟨⟨by rw [contents, hd, drop_zero],hc⟩,rfl,rfl⟩
  obtain ⟨hlc,hld,hlt,hle⟩ := ListBuffer.read_spec (m-(F.contents eb.ring).length) hc
  rw [if_neg (by omega), Nat.min_eq_right (by omega)]
  refine ⟨⟨?_,hlc⟩,?_,?_⟩
  · rw [contents, hd, hld]
  · rw [hlt]
  rw [hle]
  by_cases hnil : eb.list.contents = []
  · rw [if_pos ⟨by omega,hnil⟩, if_pos ⟨by rw [hnil]; simp; omega,hnil⟩]
    rfl
  · rw [if_neg (fun hno => hnil hno.2), if_neg (fun hno => hnil hno.2)]
    rfl

theorem Queued.discard (h : eb.Queued F q) (n : ℤ) :
    (eb.discard F n).1.Queued F (q.drop n.toNat) ∧ (eb.discard F n).2 = min n.toNat q.length := by
  obtain ⟨rfl,hc⟩ := h
  rw [Elastic.discard]
  split
  · rw [Int.toNat_eq_zero.mpr ‹_›]
    exact ⟨⟨rfl,hc⟩,by simp⟩
  have hd := F.discard_contents n eb.ring (by omega)
  have hn := F.discard_count n eb.ring (by omega)
  generalize F.discard n eb.ring = r at hd hn ⊢
  obtain ⟨ring,k⟩ := r
  dsimp only at hd hn ⊢
  rw [contents, length_append, drop_append]
  split
  · rw [show n.toNat-(F.contents eb.ring).length = 0 by omega]
    refine ⟨⟨?_,hc⟩,by omega⟩
    rw [contents, hd]
    rfl
  obtain ⟨hlc,hld,hlt⟩ := ListBuffer.discard_spec (n-k) hc
  have hrest : (n-(k : ℤ)).toNat = n.toNat-(F.contents eb.ring).length := by omega
  refine ⟨⟨?_,hlc⟩,by omega⟩
  rw [contents, hd, hld, hrest]

theorem Queued.peekBoth (h : eb.Queued F q) (n : ℤ) (hn : 0 < n) (hq : n = maxInt32 ∨ n ≤ q.length) :
    ∃ slices, eb.peekBoth F n = .ok slices ∧ slices.flatten = q.take n.toNat := by
  obtain ⟨rfl,hc⟩ := h
  have hp := F.peek_bytes n eb.ring hn
  have hflat : [(F.peek n eb.ring).1,(F.peek n eb.ring).2].flatten = (F.contents eb.ring).take n.toNat := by
    rw [← hp]
    simp
  rw [Elastic.peekBoth, contents]
  dsimp only
  split
  · rename_i hle
    rw [F.buffered_eq] at hle
    refine ⟨_,rfl,?_⟩
    rw [hflat, take_append_of_le_length (by omega)]
  rename_i hgt
  rw [F.buffered_eq] at hgt
  rw [take_of_length_le (by omega)] at hflat
  have hlen : ([(F.peek n eb.ring).1,(F.peek n eb.ring).2].map List.length).sum =
      (F.contents eb.ring).length := by
    rw [← hflat, length_flatten]
  have hcount : eb.list.buffered = eb.list.contents.length := hc.2
  rw [ListBuffer.peekWithBytes, hlen]
  by_cases hmax : n ≤ 0 ∨ n = maxInt32
  · rw [if_pos hmax]
    refine ⟨_,rfl,?_⟩
    rw [ListBuffer.collectBytes_flatten, hflat]
    rcases hmax with hle | rfl
    · omega
    · rfl
  · rw [contents, length_append] at hq
    rw [if_neg hmax, if_neg (by omega)]
    exact ⟨_,rfl,by rw [ListBuffer.collectBytes_flatten, hflat]⟩

theorem list_nil_of_fits (h : eb.shouldOverflow F = false) : eb.list.contents = [] := by
  rw [shouldOverflow, Bool.or_eq_false_iff, Bool.not_eq_false', ListBuffer.isEmpty, List.isEmpty_iff] at h
  rw [ListBuffer.contents, h.1]
  rfl

theorem Queued.push (h : eb.Queued F q) (p : List UInt8) :
    ({ eb with list := eb.list.pushBack p } : Elastic σ).Queued F (q++p) := by
  obtain ⟨rfl,hc⟩ := h
  obtain ⟨hpc,hpp⟩ := ListBuffer.pushBack_counted eb.list hc p
  refine ⟨?_,hpc⟩
  rw [contents, hpp, contents, append_assoc]

theorem Queued.ring (h : eb.Queued F q) (hnil : eb.list.contents = []) (p : List UInt8) :
    ({ eb with ring := (F.write p eb.ring).1 } : Elastic σ).Queued F (q++p) := by
  obtain ⟨rfl,hc⟩ := h
  refine ⟨?_,hc⟩
  simp only [contents, F.write_contents, hnil, append_nil]

theorem Queued.split (h : eb.Queued F q) (hnil : eb.list.contents = []) (p : List UInt8) (k : ℕ) :
    ({ eb with ring := (F.write (p.take k) eb.ring).1, list := eb.list.pushBack (p.drop k) } :
      Elastic σ).Queued F (q++p) := by
  have hboth := (h.ring hnil (p.take k)).push (p.drop k)
  rw [append_assoc, take_append_drop] at hboth
  exact hboth

theorem Queued.write (h : eb.Queued F q) (p : List UInt8) :
    (eb.write F p).1.Queued F (q++p) ∧ (eb.write F p).2 = p.length := by
  rw [Elastic.write]
  split
  · rename_i hp
    rw [length_eq_zero_iff.mp hp, append_nil]
    exact ⟨h,rfl⟩
  split
  · exact ⟨h.push p,rfl⟩
  rename_i hover
  have hnil := list_nil_of_fits (Bool.eq_false_iff.mpr hover)
  split
  · exact ⟨h.split hnil p _,rfl⟩
  · exact ⟨h.ring hnil p,F.write_count p eb.ring⟩

theorem Queued.listLoop (h : eb.Queued F q) (slices : List (List UInt8)) (total : ℕ) :
    (Elastic.listLoop slices eb total).1.Queued F (q++slices.flatten) ∧
      (Elastic.listLoop slices eb total).2 = total+slices.flatten.length := by
  induction slices generalizing eb q total with
  | nil =>
    rw [flatten_nil, append_nil]
    exact ⟨h,rfl⟩
  | cons slice rest ih =>
    obtain ⟨hh,ht⟩ := ih (h.push slice) (total+slice.length)
    rw [flatten_cons, ← append_assoc, length_append, ← Nat.add_assoc]
    exact ⟨hh,ht⟩

theorem Queued.splitLoop (h : eb.Queued F q) (hnil : eb.list.contents = []) (slices : List (List UInt8))
    (ringSpace total : ℕ) :
    (Elastic.splitLoop F slices ringSpace eb total).1.Queued F (q++slices.flatten) ∧
      (Elastic.splitLoop F slices ringSpace eb total).2 = total+slices.flatten.length := by
  induction slices generalizing eb q ringSpace total with
  | nil =>
    rw [flatten_nil, append_nil]
    exact ⟨h,rfl⟩
  | cons slice rest ih =>
    rw [flatten_cons, ← append_assoc, length_append, ← Nat.add_assoc, Elastic.splitLoop]
    split
    · exact (h.split hnil slice ringSpace).listLoop rest _
    · exact ih (h.ring hnil slice) hnil _ _

theorem Queued.writev (h : eb.Queued F q) (slices : List (List UInt8)) :
    (eb.writev F slices).1.Queued F (q++slices.flatten) ∧
      (eb.writev F slices).2 = slices.flatten.length := by
  rw [Elastic.writev]
  split
  · rename_i hs
    rw [length_eq_zero_iff.mp hs, flatten_nil, append_nil]
    exact ⟨h,rfl⟩
  split
  · have hall := h.listLoop slices 0
    rw [Nat.zero_add] at hall
    exact hall
  rename_i hover
  have hall := h.splitLoop (list_nil_of_fits (Bool.eq_false_iff.mpr hover)) slices
    (if F.len eb.ring < eb.maxStaticBytes then eb.maxStaticBytes-F.buffered eb.ring
      else F.available eb.ring) 0
  rw [Nat.zero_add] at hall
  exact hall

end Elastic

/-! ## Runs -/

inductive Op where
  | write (p : List UInt8)
  | writev (slices : List (List UInt8))
  | read (m : ℕ)
  | discard (n : ℤ)
  | peek (n : ℤ)
  | buffered

inductive Out where
  | count (n : ℤ)
  | read (bs : List UInt8) (err : Option ElasticError)
  | peek (r : Except ListError (List (List UInt8)))

def attempt : Op → Elastic σ → Elastic σ × Out
  | .write p, eb => ((eb.write F p).1,.count (eb.write F p).2)
  | .writev slices, eb => ((eb.writev F slices).1,.count (eb.writev F slices).2)
  | .read m, eb => ((eb.read F m).1,.read (eb.read F m).2.1 (eb.read F m).2.2)
  | .discard n, eb => ((eb.discard F n).1,.count (eb.discard F n).2)
  | .peek n, eb => (eb,.peek (eb.peek F n))
  | .buffered, eb => (eb,.count (eb.buffered F))

def call (op : Op) (eb : Elastic σ) : Option (Elastic σ × Out) :=
  if (attempt F op eb).1.list.heap.short then none else some (attempt F op eb)

def queueCall : Op → List UInt8 → List UInt8
  | .write p, q => q++p
  | .writev slices, q => q++slices.flatten
  | .read m, q => q.drop m
  | .discard n, q => q.drop n.toNat
  | .peek _, q => q
  | .buffered, q => q

/-- The answers of one queue. A read that fills the slice has no error, one from an empty
queue reports the end, and one in between may do so. -/
def Answers : Op → List UInt8 → Out → Prop
  | .write p, _, out => out = .count p.length
  | .writev slices, _, out => out = .count (slices.map List.length).sum
  | .read m, q, out => ∃ err, out = .read (q.take m) err ∧ (m ≤ q.length → err = none) ∧
      (0 < m → q = [] → err = some (.list .eof)) ∧ (err = none ∨ err = some (.list .eof))
  | .discard n, q, out => out = .count (min n.toNat q.length : ℕ)
  | .peek n, q, out =>
    if n ≤ 0 ∨ n = maxInt32 then ∃ slices, out = .peek (.ok slices) ∧ slices.flatten = q
    else if (q.length : ℤ) < n then out = .peek (.error .shortBuffer)
    else ∃ slices, out = .peek (.ok slices) ∧ slices.flatten = q.take n.toNat
  | .buffered, q, out => out = .count q.length

theorem attempt_queued (op : Op) {eb : Elastic σ} {q : List UInt8} (h : eb.Queued F q) :
    (attempt F op eb).1.Queued F (queueCall op q) := by
  cases op with
  | write p => exact (h.write p).1
  | writev slices => exact (h.writev slices).1
  | read m => exact (h.read m).1
  | discard n => exact (h.discard n).1
  | peek n => exact h
  | buffered => exact h

theorem peek_answers (n : ℤ) {eb : Elastic σ} {q : List UInt8} (h : eb.Queued F q)
    (hq : q.length < maxInt32) : Answers (.peek n) q (.peek (eb.peek F n)) := by
  rw [Answers, Elastic.peek, h.buffered_eq]
  split
  · obtain ⟨slices,hs,hf⟩ := h.peekBoth maxInt32 (by decide) (Or.inl rfl)
    refine ⟨slices,by rw [hs],?_⟩
    rw [hf, take_of_length_le (by omega)]
  split
  · rfl
  · obtain ⟨slices,hs,hf⟩ := h.peekBoth n (by omega) (Or.inr (by omega))
    exact ⟨slices,by rw [hs],hf⟩

theorem attempt_answers (op : Op) {eb : Elastic σ} {q : List UInt8} (h : eb.Queued F q)
    (hq : q.length < maxInt32) : Answers op q (attempt F op eb).2 := by
  cases op with
  | write p => exact congrArg (fun n : ℕ => Out.count n) (h.write p).2
  | writev slices =>
    rw [Answers, ← length_flatten]
    exact congrArg (fun n : ℕ => Out.count n) (h.writev slices).2
  | read m =>
    obtain ⟨_,hbs,herr⟩ := h.read m
    refine ⟨(eb.read F m).2.2,by rw [attempt, hbs],?_,?_,?_⟩
    · intro hle
      rw [herr, if_neg (by omega)]
    · intro hm hnil
      have hlist : eb.list.contents = [] := (append_eq_nil_iff.mp (h.1.trans hnil)).2
      rw [herr, if_pos ⟨by rw [hnil]; exact hm,hlist⟩]
    rw [herr]
    split
    · exact Or.inr rfl
    · exact Or.inl rfl
  | discard n => exact congrArg (fun n : ℕ => Out.count n) (h.discard n).2
  | peek n => exact peek_answers F n h hq
  | buffered => exact congrArg Out.count h.buffered_eq

def Follows : List Op → Elastic σ → List UInt8 → Prop
  | [], eb, q => eb.buffered F = q.length
  | op::ops, eb, q => eb.buffered F = q.length ∧ ∃ eb' out, call F op eb = some (eb',out) ∧
      Answers op q out ∧ Follows ops eb' (queueCall op q)

/-- No slice that the pool hands out in the run is shorter than the request for it. -/
def Ample : List Op → Elastic σ → Prop
  | [], _ => True
  | op::ops, eb => (attempt F op eb).1.list.heap.short = false ∧ Ample ops (attempt F op eb).1

def Bounded : List Op → List UInt8 → Prop
  | [], q => q.length < maxInt32
  | op::ops, q => q.length < maxInt32 ∧ Bounded ops (queueCall op q)

theorem queued_follows (ops : List Op) (eb : Elastic σ) (q : List UInt8) (h : eb.Queued F q)
    (hb : Bounded ops q) : Follows F ops eb q ↔ Ample F ops eb := by
  induction ops generalizing eb q with
  | nil => exact iff_of_true h.buffered_eq trivial
  | cons op ops ih =>
    have hrest := ih _ _ (attempt_queued F op h) hb.2
    rw [Follows, call]
    constructor
    · rintro ⟨_,eb',out,hcall,_,hfollows⟩
      split at hcall
      · cases hcall
      · rename_i hshort
        obtain ⟨rfl,rfl⟩ := Prod.ext_iff.mp (Option.some.inj hcall)
        exact ⟨Bool.eq_false_iff.mpr hshort,hrest.mp hfollows⟩
    · rintro ⟨hshort,hserved⟩
      rw [if_neg (by rw [hshort]; exact Bool.false_ne_true)]
      exact ⟨h.buffered_eq,_,_,rfl,attempt_answers F op h hb.1,hrest.mpr hserved⟩

def listRing (capacity : ℕ) : FifoRing (List UInt8) where
  contents := id
  read m s := (s.drop m,if s = [] then .error .ringEmpty else .ok (s.take m))
  discard n s := (s.drop n.toNat,min n.toNat s.length)
  peek n s := (s.take n.toNat,[])
  write p s := (s++p,p.length)
  buffered := List.length
  available s := capacity-s.length
  len _ := capacity
  read_contents _ _ _ := rfl
  read_bytes _ _ _ := rfl
  discard_contents _ _ _ := rfl
  discard_count _ _ _ := rfl
  peek_bytes _ _ _ := append_nil _
  write_contents _ _ := rfl
  write_count _ _ := rfl
  buffered_eq _ := rfl

instance decidableServed : (ops : List Op) → (eb : Elastic σ) → Decidable (Ample F ops eb)
  | [], _ => .isTrue trivial
  | op::ops, eb =>
    have := decidableServed ops (attempt F op eb).1
    inferInstanceAs (Decidable (_ ∧ Ample F ops (attempt F op eb).1))

def reusing : Memory := ⟨SlicePool.keepOrder,SlicePool.newPool,[⟨[],none⟩,⟨[],none⟩,⟨[],some 0⟩],false⟩

def divided : List Op := [.write [1], .write (List.replicate 128 2), .read 64, .read 65, .write [3],
  .write (List.replicate 128 4)]

end GoCommon.ElasticBuffer
