import GoCommon.SlicePool

/-!
# The linked list of byte slices

The nodes are kept from the front, with their number and the number of their
bytes. A node that is used only in part is put back with the rest of its bytes.
The slices of the nodes come from the pool and go back to it, with the capacity that
is left of them. The pool is shared: what others do with it before each of these accesses,
and which slice a bucket then chooses, are the turns of the heap. A request that gets
a slice too short for it panics; the heap notes that.
-/

set_option autoImplicit false

namespace GoCommon.LinkedListBuffer
open List SlicePool

def maxInt32 : ℕ := 2^31-1

inductive ListError where
  | eof
  | shortBuffer
  deriving DecidableEq, Repr

/-! ## The heap -/

structure Turn where
  others : List Op
  pick : Option ℕ

structure Memory where
  calibration : Calibration
  pool : Pool SlicePool.ByteSlice
  turns : List Turn
  short : Bool

namespace Memory

def next (h : Memory) : Option ℕ × Memory := match h.turns with
  | [] => (none,h)
  | t::turns => (t.pick,{ h with
      pool := t.others.foldl (fun p op => step h.calibration op p) h.pool
      turns := turns })

def get (n : ℕ) (h : Memory) : ℕ × Memory :=
  let (pick,h) := h.next
  let (slice,pool) := SlicePool.get n pick h.pool
  ((slice.map SlicePool.ByteSlice.cap).getD 0,{ h with pool := pool, short := h.short || slice.isNone })

def put (b : SlicePool.ByteSlice) (h : Memory) : Memory :=
  let (_,h) := h.next
  { h with pool := SlicePool.put h.calibration b h.pool }

end Memory

structure Node where
  data : List UInt8
  cap : ℕ
  fits : data.length ≤ cap

namespace Node

def length (n : Node) : ℕ := n.data.length

def rest (k : ℕ) (n : Node) : Node :=
  ⟨n.data.drop k,n.cap-k,by rw [length_drop]; exact Nat.sub_le_sub_right n.fits k⟩

def filled (data : List UInt8) (cap : ℕ) : Node := ⟨data,max data.length cap,le_max_left ..⟩

end Node

structure ListBuffer where
  nodes : List Node
  nodeCount : ℤ
  byteCount : ℤ
  heap : Memory

namespace ListBuffer

def new (heap : Memory) : ListBuffer := ⟨[],0,0,heap⟩

def popFront (ll : ListBuffer) : Option (Node × ListBuffer) := match ll.nodes with
  | [] => none
  | n::rest => some (n,⟨rest,ll.nodeCount-1,ll.byteCount-n.length,ll.heap⟩)

def pushFront (n : Node) (ll : ListBuffer) : ListBuffer :=
  ⟨n::ll.nodes,ll.nodeCount+1,ll.byteCount+n.length,ll.heap⟩

def pushNode (n : Node) (ll : ListBuffer) : ListBuffer :=
  ⟨ll.nodes++[n],ll.nodeCount+1,ll.byteCount+n.length,ll.heap⟩

def free (n : Node) (ll : ListBuffer) : ListBuffer :=
  { ll with heap := ll.heap.put ⟨n.length,n.cap,n.fits⟩ }

def pushBack (p : List UInt8) (ll : ListBuffer) : ListBuffer :=
  if p.length = 0 then ll
  else { ll with heap := (ll.heap.get p.length).2 }.pushNode (.filled p (ll.heap.get p.length).1)

def buffered (ll : ListBuffer) : ℤ := ll.byteCount

def isEmpty (ll : ListBuffer) : Bool := ll.nodes.isEmpty

def readLoop (m : ℕ) : ℕ → ListBuffer → List UInt8 → ListBuffer × List UInt8
  | 0, ll, got => (ll,got)
  | fuel+1, ll, got => match ll.popFront with
    | none => (ll,got)
    | some (n,ll) =>
      let copied := n.data.take (m-got.length)
      let got := got++copied
      let ll := if copied.length < n.length then ll.pushFront (n.rest copied.length) else ll.free n
      if got.length = m then (ll,got) else readLoop m fuel ll got

def read (m : ℕ) (ll : ListBuffer) : ListBuffer × List UInt8 × Option ListError :=
  if m = 0 then (ll,[],none)
  else
    let (ll,got) := readLoop m (ll.nodes.length+1) ll []
    if got.length = 0 then (ll,[],some .eof) else (ll,got,none)

def discardLoop : ℕ → ℕ → ListBuffer → ℕ → ListBuffer × ℕ
  | 0, _, ll, discarded => (ll,discarded)
  | fuel+1, remaining, ll, discarded =>
    if remaining = 0 then (ll,discarded)
    else match ll.popFront with
      | none => (ll,discarded)
      | some (n,ll) =>
        if remaining < n.length then (ll.pushFront (n.rest remaining),discarded+remaining)
        else discardLoop fuel (remaining-n.length) (ll.free n) (discarded+n.length)

def discard (n : ℤ) (ll : ListBuffer) : ListBuffer × ℕ :=
  if n ≤ 0 then (ll,0) else discardLoop (ll.nodes.length+1) n.toNat ll 0

def collectNodes (maxBytes : ℕ) : List (List UInt8) → List (List UInt8) → ℕ → List (List UInt8)
  | [], result, _ => result
  | data::rest, result, collected =>
    let toTake := if maxBytes < collected+data.length then maxBytes-collected else data.length
    let result := result++[data.take toTake]
    if collected+toTake = maxBytes then result
    else collectNodes maxBytes rest result (collected+toTake)

def collectLoop (maxBytes : ℕ) (nodes : List (List UInt8)) :
    List (List UInt8) → List (List UInt8) → ℕ → List (List UInt8)
  | [], result, collected => collectNodes maxBytes nodes result collected
  | b::rest, result, collected =>
    if b.length = 0 then collectLoop maxBytes nodes rest result collected
    else
      let toTake := if maxBytes < collected+b.length then maxBytes-collected else b.length
      let result := result++[b.take toTake]
      if collected+toTake = maxBytes then result
      else collectLoop maxBytes nodes rest result (collected+toTake)

def collectBytes (maxBytes : ℕ) (existing : List (List UInt8)) (ll : ListBuffer) : List (List UInt8) :=
  collectLoop maxBytes (ll.nodes.map Node.data) existing [] 0

def peekWithBytes (maxBytes : ℤ) (existing : List (List UInt8)) (ll : ListBuffer) :
    Except ListError (List (List UInt8)) :=
  if maxBytes ≤ 0 ∨ maxBytes = maxInt32 then .ok (ll.collectBytes maxInt32 existing)
  else if ll.buffered+(existing.map List.length).sum < maxBytes then .error .shortBuffer
  else .ok (ll.collectBytes maxBytes.toNat existing)

/-! ## The contents -/

def contents (ll : ListBuffer) : List UInt8 := (ll.nodes.map Node.data).flatten

def Counted (ll : ListBuffer) : Prop :=
  ll.nodeCount = ll.nodes.length ∧ ll.byteCount = ll.contents.length

theorem new_counted (heap : Memory) : (new heap).Counted := ⟨rfl,rfl⟩

variable (maxBytes : ℕ) (ll : ListBuffer)

theorem popFront_some (h : ll.Counted) (n : Node) (rest : ListBuffer)
    (hpop : ll.popFront = some (n,rest)) :
    rest.Counted ∧ ll.contents = n.data++rest.contents ∧ ll.nodes = n::rest.nodes := by
  obtain ⟨nodes,nodeCount,byteCount,heap⟩ := ll
  cases nodes with
  | nil => cases hpop
  | cons d ds =>
    cases hpop
    obtain ⟨hn,hb⟩ := h
    simp only [contents, map_cons, flatten_cons, length_append, length_cons] at hn hb
    refine ⟨⟨?_,?_⟩,rfl,rfl⟩
    · simp only
      omega
    · simp only [contents, Node.length]
      omega

theorem popFront_none (hpop : ll.popFront = none) : ll.nodes = [] := by
  obtain ⟨nodes,nodeCount,byteCount,heap⟩ := ll
  cases nodes with
  | nil => rfl
  | cons d ds => cases hpop

theorem contents_nil (h : ll.nodes = []) : ll.contents = [] := by
  rw [contents, h]
  rfl

theorem pushFront_counted (h : ll.Counted) (n : Node) :
    (ll.pushFront n).Counted ∧ (ll.pushFront n).contents = n.data++ll.contents := by
  obtain ⟨hn,hb⟩ := h
  refine ⟨⟨?_,?_⟩,rfl⟩
  · simp only [pushFront, length_cons]
    omega
  · simp only [pushFront, contents, map_cons, flatten_cons, length_append, Node.length] at hb ⊢
    omega

theorem pushNode_counted (h : ll.Counted) (n : Node) :
    (ll.pushNode n).Counted ∧ (ll.pushNode n).contents = ll.contents++n.data := by
  obtain ⟨hn,hb⟩ := h
  have hflat : (ll.pushNode n).contents = ll.contents++n.data := by simp [contents, pushNode]
  refine ⟨⟨?_,?_⟩,hflat⟩
  · simp only [pushNode, length_append, length_singleton]
    omega
  · rw [hflat, length_append]
    simp only [pushNode, Node.length]
    omega

theorem pushBack_counted (h : ll.Counted) (p : List UInt8) :
    (ll.pushBack p).Counted ∧ (ll.pushBack p).contents = ll.contents++p := by
  rw [pushBack]
  split
  · rename_i hp
    rw [length_eq_zero_iff.mp hp, append_nil]
    exact ⟨h,rfl⟩
  · exact pushNode_counted _ h _

theorem readLoop_spec (m fuel : ℕ) (ll : ListBuffer) (got : List UInt8) (h : ll.Counted)
    (hfuel : ll.nodes.length < fuel) (hgot : got.length < m) :
    (readLoop m fuel ll got).1.Counted ∧
      (readLoop m fuel ll got).1.contents = ll.contents.drop (m-got.length) ∧
        (readLoop m fuel ll got).2 = got++ll.contents.take (m-got.length) := by
  induction fuel generalizing ll got with
  | zero => exact absurd hfuel (Nat.not_lt_zero _)
  | succ fuel ih =>
    rw [readLoop]
    cases hpop : ll.popFront with
    | none =>
      rw [contents_nil ll (popFront_none ll hpop)]
      exact ⟨h,by simp,by simp⟩
    | some pair =>
      obtain ⟨n,rest⟩ := pair
      obtain ⟨hrest,hcont,hnodes⟩ := popFront_some ll h n rest hpop
      rw [hnodes] at hfuel
      dsimp only
      rw [hcont, length_take, Node.length]
      by_cases hpart : m-got.length < n.data.length
      · -- the slice is full before the node is used up
        have hfull : (got++n.data.take (m-got.length)).length = m := by
          rw [length_append, length_take]
          omega
        rw [if_pos hfull, Nat.min_eq_left (by omega), if_pos hpart,
          drop_append_of_le_length (by omega), take_append_of_le_length (by omega)]
        obtain ⟨hc,hp⟩ := pushFront_counted rest hrest (n.rest (m-got.length))
        exact ⟨hc,hp,rfl⟩
      have hwhole : ¬min (m-got.length) n.data.length < n.data.length := by omega
      have htake : n.data.take (m-got.length) = n.data := take_of_length_le (by omega)
      have hdrop : n.data.drop (m-got.length) = [] := drop_eq_nil_of_le (by omega)
      rw [if_neg hwhole, take_append, drop_append, htake, hdrop]
      by_cases hfull : (got++n.data).length = m
      · rw [length_append] at hfull
        rw [if_pos (by rw [length_append]; exact hfull), show m-got.length-n.data.length = 0 by omega]
        exact ⟨hrest,rfl,by simp⟩
      rw [if_neg hfull]
      rw [length_append] at hfull
      have hmore := ih (rest.free n) (got++n.data) hrest (by exact Nat.lt_of_succ_lt_succ hfuel)
        (by rw [length_append]; omega)
      rw [length_append, ← Nat.sub_sub, append_assoc] at hmore
      exact hmore

variable {ll : ListBuffer}

theorem read_spec (m : ℕ) (h : ll.Counted) :
    (ll.read m).1.Counted ∧ (ll.read m).1.contents = ll.contents.drop m ∧
      (ll.read m).2.1 = ll.contents.take m ∧
        (ll.read m).2.2 = if 0 < m ∧ ll.contents = [] then some .eof else none := by
  rw [read]
  by_cases hm : m = 0
  · subst hm
    exact ⟨h,rfl,by simp,by simp⟩
  rw [if_neg hm]
  obtain ⟨hc,hd,ht⟩ := readLoop_spec m (ll.nodes.length+1) ll [] h (by omega) (by simp; omega)
  rw [length_nil, Nat.sub_zero] at hd ht
  rw [nil_append] at ht
  dsimp only
  rw [ht]
  by_cases hnil : ll.contents = []
  · rw [hnil, take_nil, if_pos length_nil, if_pos ⟨by omega,rfl⟩]
    rw [hnil] at hd
    exact ⟨hc,hd,rfl,rfl⟩
  have hlen : ¬(ll.contents.take m).length = 0 := by
    rw [length_take]
    have := length_pos_iff.mpr hnil
    omega
  rw [if_neg hlen, if_neg (fun hno => hnil hno.2)]
  exact ⟨hc,hd,rfl,rfl⟩

theorem discardLoop_spec (fuel remaining : ℕ) (ll : ListBuffer) (discarded : ℕ) (h : ll.Counted)
    (hfuel : ll.nodes.length < fuel) :
    (discardLoop fuel remaining ll discarded).1.Counted ∧
      (discardLoop fuel remaining ll discarded).1.contents = ll.contents.drop remaining ∧
        (discardLoop fuel remaining ll discarded).2 = discarded+min remaining ll.contents.length := by
  induction fuel generalizing remaining ll discarded with
  | zero => exact absurd hfuel (Nat.not_lt_zero _)
  | succ fuel ih =>
    rw [discardLoop]
    by_cases hrem : remaining = 0
    · rw [hrem]
      exact ⟨h,rfl,by simp⟩
    rw [if_neg hrem]
    cases hpop : ll.popFront with
    | none =>
      rw [contents_nil ll (popFront_none ll hpop)]
      exact ⟨h,by simp,by simp⟩
    | some pair =>
      obtain ⟨n,rest⟩ := pair
      obtain ⟨hrest,hcont,hnodes⟩ := popFront_some ll h n rest hpop
      rw [hnodes] at hfuel
      dsimp only
      rw [hcont, length_append, Node.length]
      by_cases hpart : remaining < n.data.length
      · rw [if_pos hpart, drop_append_of_le_length (by omega)]
        obtain ⟨hc,hp⟩ := pushFront_counted rest hrest (n.rest remaining)
        exact ⟨hc,hp,by omega⟩
      · rw [if_neg hpart, drop_append, drop_eq_nil_of_le (by omega)]
        obtain ⟨hc,hd,hn⟩ := ih (remaining-n.data.length) (rest.free n) (discarded+n.data.length) hrest
          (by exact Nat.lt_of_succ_lt_succ hfuel)
        have hsame : (rest.free n).contents = rest.contents := rfl
        exact ⟨hc,hd,by rw [hsame] at hn; omega⟩

theorem discard_spec (n : ℤ) (h : ll.Counted) :
    (ll.discard n).1.Counted ∧ (ll.discard n).1.contents = ll.contents.drop n.toNat ∧
      (ll.discard n).2 = min n.toNat ll.contents.length := by
  rw [discard]
  split
  · rw [Int.toNat_eq_zero.mpr ‹_›]
    exact ⟨h,rfl,by simp⟩
  · have hloop := discardLoop_spec (ll.nodes.length+1) n.toNat ll 0 h (by omega)
    rw [Nat.zero_add] at hloop
    exact hloop

theorem collectNodes_flatten (nodes result : List (List UInt8)) (collected : ℕ)
    (h : collected ≤ maxBytes) :
    (collectNodes maxBytes nodes result collected).flatten =
      result.flatten++nodes.flatten.take (maxBytes-collected) := by
  induction nodes generalizing result collected with
  | nil => simp [collectNodes]
  | cons data rest ih =>
    rw [collectNodes, flatten_cons, take_append]
    by_cases hover : maxBytes < collected+data.length
    · rw [if_pos hover, if_pos (by omega), show maxBytes-collected-data.length = 0 by omega]
      simp
    rw [if_neg hover, take_length, take_of_length_le (by omega)]
    by_cases hfull : collected+data.length = maxBytes
    · rw [if_pos hfull, show maxBytes-collected-data.length = 0 by omega]
      simp
    · rw [if_neg hfull, ih (result++[data]) _ (by omega), Nat.sub_sub]
      simp

theorem collectLoop_flatten (nodes existing result : List (List UInt8)) (collected : ℕ)
    (h : collected ≤ maxBytes) :
    (collectLoop maxBytes nodes existing result collected).flatten =
      result.flatten++(existing.flatten++nodes.flatten).take (maxBytes-collected) := by
  induction existing generalizing result collected with
  | nil => exact collectNodes_flatten maxBytes nodes result collected h
  | cons b rest ih =>
    rw [collectLoop]
    split
    · rename_i hb
      rw [ih result collected h, length_eq_zero_iff.mp hb]
      rfl
    dsimp only
    rw [flatten_cons, append_assoc, take_append]
    by_cases hover : maxBytes < collected+b.length
    · rw [if_pos hover, if_pos (by omega), show maxBytes-collected-b.length = 0 by omega]
      simp
    rw [if_neg hover, take_length, take_of_length_le (by omega)]
    by_cases hfull : collected+b.length = maxBytes
    · rw [if_pos hfull, show maxBytes-collected-b.length = 0 by omega]
      simp
    · rw [if_neg hfull, ih (result++[b]) _ (by omega), Nat.sub_sub]
      simp

theorem collectBytes_flatten {existing : List (List UInt8)} :
    (ll.collectBytes maxBytes existing).flatten = (existing.flatten++ll.contents).take maxBytes :=
  collectLoop_flatten maxBytes (ll.nodes.map Node.data) existing [] 0 (Nat.zero_le _)

end ListBuffer
end GoCommon.LinkedListBuffer
