import GoCommon.ByteWords

/-!
# The buffer of length-prefixed slices

A buffer is an array that is written from the front and grows. A slice is
written as eight bytes of length and its bytes, and is found again by the offset
of its length. An access out of range or beyond the limit of the buffer stops
the program. Lengths and offsets are natural numbers without a bound; a buffer
that has been released is not modelled.
-/

set_option autoImplicit false

namespace GoCommon.SliceBuffer
open List ByteWords

def defaultCapacity : ℕ := 64
def headerSize : ℕ := 8
def maxGrowth : ℕ := 2^30

structure Buffer where
  padding : ℕ
  offset : ℕ
  data : Bytes
  cap : ℕ
  max : ℤ
  deriving DecidableEq, Repr

def copyAt (data : Bytes) (lo hi : ℕ) (src : Bytes) : Bytes :=
  data.take lo++src.take (hi-lo)++data.drop (lo+min src.length (hi-lo))

def new (capacity : ℤ) : Buffer :=
  let capacity := if capacity < defaultCapacity then defaultCapacity else capacity.toNat
  ⟨headerSize,headerSize,List.replicate capacity 0,capacity,0⟩

namespace Buffer

def startOffset (b : Buffer) : ℕ := b.padding

def isEmpty (b : Buffer) : Bool := b.offset = b.startOffset

def len (b : Buffer) : ℕ := b.offset

def bytes (b : Buffer) : Bytes := (b.data.take b.offset).drop b.padding

def grow (n : ℕ) (b : Buffer) : Option Buffer :=
  if 0 < b.max ∧ b.max < b.offset+n then none
  else if b.offset+n ≤ b.cap then some b
  else
    let growBy := if maxGrowth < b.cap+n then maxGrowth else b.cap+n
    let growBy := if growBy < n then n else growBy
    let cap := b.cap+growBy
    some { b with
      cap := cap
      data := copyAt (List.replicate cap 0) 0 cap (b.data.take b.offset) }

def allocate (n : ℕ) (b : Buffer) : Option Buffer :=
  (b.grow n).map (fun b => { b with offset := b.offset+n })

def write (p : Bytes) (b : Buffer) : Option Buffer :=
  (b.grow p.length).map (fun b => { b with
    data := copyAt b.data b.offset b.data.length p
    offset := b.offset+p.length })

def reset (b : Buffer) : Buffer := { b with offset := b.startOffset }

def fill (p : Bytes) (b : Buffer) : Buffer :=
  { b with data := copyAt b.data (b.offset-p.length) b.offset p }

def writeLen (n : ℕ) (b : Buffer) : Option Buffer :=
  (b.allocate headerSize).map (fill (putUint 8 n))

def sliceAllocate (n : ℕ) (b : Buffer) : Option Buffer :=
  ((b.grow (headerSize+n)).bind (writeLen n)).bind (allocate n)

def writeSlice (p : Bytes) (b : Buffer) : Option Buffer := (b.sliceAllocate p.length).map (fill p)

def slice (offset : ℤ) (b : Buffer) : Option (Bytes × ℤ) :=
  if b.offset ≤ offset then some ([],-1)
  else if offset < 0 ∨ b.data.length < offset+headerSize then none
  else
    let blockLen := uint ((b.data.drop offset.toNat).take headerSize)
    let payloadStart := offset+headerSize
    let nextOffset := payloadStart+int64 blockLen
    if nextOffset < payloadStart ∨ b.data.length < nextOffset then none
    else some ((b.data.drop payloadStart.toNat).take (nextOffset-payloadStart).toNat,
      if b.offset ≤ nextOffset then -1 else nextOffset)

def iterateLoop {ε : Type} (fn : List Bytes → Option ε) (b : Buffer) :
    ℕ → ℤ → List Bytes → Option (List Bytes × Option ε)
  | 0, _, _ => none
  | fuel+1, next, calls => if next < 0 then some (calls,none) else match b.slice next with
    | none => none
    | some (p,next) => if p.length = 0 then iterateLoop fn b fuel next calls
      else match fn (calls++[p]) with
        | some e => some (calls++[p],some e)
        | none => iterateLoop fn b fuel next (calls++[p])

def sliceIterate {ε : Type} (fn : List Bytes → Option ε) (b : Buffer) :
    Option (List Bytes × Option ε) :=
  if b.isEmpty then some ([],none) else iterateLoop fn b (b.offset+1) b.startOffset []

def offsetsLoop (b : Buffer) : ℕ → ℤ → List ℤ → Option (List ℤ)
  | 0, _, _ => none
  | fuel+1, next, offsets => if next < 0 then some offsets else match b.slice next with
    | none => none
    | some (_,after) => offsetsLoop b fuel after (offsets++[next])

def sliceOffsets (b : Buffer) : Option (List ℤ) := offsetsLoop b (b.offset+1) b.startOffset []

end Buffer

open Buffer

abbrev Payload := {p : Bytes // p.length < 2^63}

def written (capacity : ℤ) (ps : List Payload) : Option Buffer :=
  ps.foldlM (fun b p => b.writeSlice p.1) (new capacity)

/-! ## Overwriting -/

theorem copyAt_middle (pre g post p : Bytes) (hi : ℕ) (hp : p.length ≤ g.length)
    (hhi : pre.length+p.length ≤ hi) :
    copyAt (pre++(g++post)) pre.length hi p = pre++(p++(g.drop p.length++post)) := by
  have hmin : min p.length (hi-pre.length) = p.length := by omega
  rw [copyAt, hmin, take_left' rfl, take_of_length_le (by omega), ← drop_drop,
    drop_left' rfl, drop_append_of_le_length hp, append_assoc]

theorem copyAt_whole (pre g post p : Bytes) (hi : ℕ) (hp : p.length = g.length)
    (hhi : pre.length+p.length ≤ hi) :
    copyAt (pre++(g++post)) pre.length hi p = pre++(p++post) := by
  rw [copyAt_middle pre g post p hi (by omega) hhi, drop_eq_nil_of_le (by omega),
    nil_append]

/-! ## What a buffer holds -/

structure Holds (b : Buffer) (bs : Bytes) : Prop where
  stored : ∃ pre post, b.data = pre++(bs++post) ∧ pre.length = b.padding
  offset : b.offset = b.padding+bs.length
  length : b.data.length = b.cap
  unlimited : b.max ≤ 0

section Holds
variable {b : Buffer} {bs : Bytes}

theorem new_holds (capacity : ℤ) : Holds (new capacity) [] := by
  have hcap : headerSize ≤ (new capacity).cap := by
    change headerSize ≤ if capacity < defaultCapacity then defaultCapacity else capacity.toNat
    rw [headerSize, defaultCapacity]
    split_ifs <;> omega
  refine ⟨⟨(new capacity).data.take headerSize,(new capacity).data.drop headerSize,?_,?_⟩,rfl,?_,
    le_rfl⟩
  · rw [nil_append, take_append_drop]
  · simpa [new] using hcap
  · simp [new]

theorem Holds.bytes (h : Holds b bs) : b.bytes = bs := by
  obtain ⟨pre,post,hd,hp⟩ := h.stored
  rw [Buffer.bytes, hd, h.offset, ← hp, ← append_assoc, take_left' (by simp),
    drop_left' rfl]

theorem Holds.reset (h : Holds b bs) : Holds b.reset [] := by
  obtain ⟨pre,post,hd,hp⟩ := h.stored
  exact ⟨⟨pre,bs++post,hd,hp⟩,rfl,h.length,h.unlimited⟩

theorem Holds.grow (h : Holds b bs) (n : ℕ) :
    ∃ b', b.grow n = some b' ∧ Holds b' bs ∧ b'.padding = b.padding ∧ b'.offset+n ≤ b'.cap := by
  obtain ⟨pre,post,hd,hp⟩ := h.stored
  have hlen := h.length
  have hoff := h.offset
  have hlim := h.unlimited
  have hfit : b.offset ≤ b.cap := by
    rw [← hlen, hd, hoff, ← hp]
    simp
  rw [Buffer.grow, if_neg (by omega)]
  split
  · exact ⟨b,rfl,h,rfl,‹_›⟩
  have hroom : ∀ g, g = (if maxGrowth < b.cap+n then maxGrowth else b.cap+n) →
      n ≤ (if g < n then n else g) := by
    intro g _
    split <;> omega
  dsimp only
  generalize hg : (if maxGrowth < b.cap+n then maxGrowth else b.cap+n) = g
  have hgn := hroom g hg.symm
  generalize (if g < n then n else g) = growBy at hgn
  have hsrc : b.data.take b.offset = pre++bs := by
    rw [hd, hoff, ← hp, ← append_assoc, take_left' (by simp)]
  have hsrclen : (pre++bs).length = b.offset := by rw [length_append, hp, hoff]
  refine ⟨_,rfl,⟨⟨pre,List.replicate (b.cap+growBy-b.offset) 0,?_,hp⟩,hoff,?_,hlim⟩,rfl,?_⟩
  · rw [hsrc, copyAt, take_zero, nil_append, Nat.zero_add,
      take_of_length_le (by omega), drop_replicate, hsrclen,
      Nat.min_eq_left (by omega), append_assoc]
  · simp only [copyAt, hsrc, length_append, length_take, length_drop,
      length_replicate, Nat.sub_zero, Nat.zero_add] at hsrclen ⊢
    omega
  · change b.offset+n ≤ b.cap+growBy
    omega

theorem Holds.allocate (h : Holds b bs) (n : ℕ) :
    ∃ b' g, b.allocate n = some b' ∧ g.length = n ∧ Holds b' (bs++g) ∧ b'.padding = b.padding := by
  obtain ⟨b1,hb1,h1,hpad,hroom⟩ := h.grow n
  obtain ⟨pre,post,hd,hp⟩ := h1.stored
  have hpost : n ≤ post.length := by
    have hl := h1.length
    rw [hd] at hl
    simp only [length_append] at hl
    have := h1.offset
    omega
  refine ⟨{ b1 with offset := b1.offset+n },post.take n,by rw [Buffer.allocate, hb1]; rfl,
    by rw [length_take]; omega,⟨⟨pre,post.drop n,?_,hp⟩,?_,h1.length,h1.unlimited⟩,hpad⟩
  · rw [append_assoc, take_append_drop]
    exact hd
  · change b1.offset+n = b1.padding+(bs++post.take n).length
    rw [h1.offset, length_append, length_take]
    omega

theorem Holds.fill {g : Bytes} (h : Holds b (bs++g)) (p : Bytes) (hp : p.length = g.length) :
    Holds (b.fill p) (bs++p) := by
  obtain ⟨pre,post,hd,hpre⟩ := h.stored
  have hoff := h.offset
  rw [length_append] at hoff
  have hat : b.offset-p.length = (pre++bs).length := by
    rw [length_append]
    omega
  have hdata : (b.fill p).data = pre++((bs++p)++post) := by
    change copyAt b.data (b.offset-p.length) b.offset p = _
    rw [hd, hat, append_assoc bs, ← append_assoc pre, copyAt_whole _ g post p _ hp
      (by omega)]
    simp
  refine ⟨⟨pre,post,hdata,hpre⟩,?_,?_,h.unlimited⟩
  · change b.offset = b.padding+(bs++p).length
    rw [length_append]
    omega
  rw [hdata]
  have hl := h.length
  rw [hd] at hl
  simp only [length_append] at hl ⊢
  change _ = b.cap
  omega

theorem Holds.write (h : Holds b bs) (p : Bytes) :
    ∃ b', b.write p = some b' ∧ Holds b' (bs++p) ∧ b'.padding = b.padding := by
  obtain ⟨b1,hb1,h1,hpad,hroom⟩ := h.grow p.length
  obtain ⟨pre,post,hd,hp⟩ := h1.stored
  have hl := h1.length
  have hoff := h1.offset
  have hlen : b1.data.length = pre.length+(bs.length+post.length) := by
    rw [hd]
    simp
  have hat : b1.offset = (pre++bs).length := by rw [length_append, hp, hoff]
  have hdata : copyAt b1.data b1.offset b1.data.length p = pre++((bs++p)++post.drop p.length) := by
    have hcopy := copyAt_middle (pre++bs) post [] p b1.data.length (by omega)
      (by omega)
    rw [← hat] at hcopy
    simp only [append_nil, append_assoc] at hcopy ⊢
    rw [← hcopy, ← hd]
  refine ⟨{ b1 with
    data := copyAt b1.data b1.offset b1.data.length p
    offset := b1.offset+p.length },by rw [Buffer.write, hb1]; rfl,
    ⟨⟨pre,_,hdata,hp⟩,?_,?_,h1.unlimited⟩,hpad⟩
  · change b1.offset+p.length = b1.padding+(bs++p).length
    rw [length_append]
    omega
  rw [hdata]
  simp only [length_append, length_drop]
  omega

end Holds

/-! ## Records -/

def record (p : Payload) : Bytes := putUint 8 p.1.length++p.1

def encode (ps : List Payload) : Bytes := ps.flatMap record

variable (pos : ℕ) (p : Payload) (ps : List Payload)

theorem record_length : (record p).length = headerSize+p.1.length := by
  simp [record, headerSize]

@[simp] theorem encode_nil : encode [] = [] := rfl

@[simp] theorem encode_cons :
    encode (p::ps) = record p++encode ps := rfl

@[simp] theorem encode_append {ps qs : List Payload} :
    encode (ps++qs) = encode ps++encode qs := flatMap_append

theorem length_le_encode : ps.length ≤ (encode ps).length := by
  induction ps with
  | nil => exact le_rfl
  | cons p ps ih =>
    rw [encode_cons, length_append, record_length, length_cons, headerSize]
    omega

theorem record_header {rest : Bytes} : uint ((record p++rest).take headerSize) = p.1.length := by
  rw [record, append_assoc, take_left' (by simp [headerSize]),
    uint_putUint_of_lt 8 (by omega)]

theorem record_payload (rest : Bytes) : (record p++rest).drop headerSize = p.1++rest := by
  rw [record, append_assoc, drop_left' (by simp [headerSize])]

theorem Holds.writeSlice {b : Buffer} {bs : Bytes} (h : Holds b bs) (p : Payload) :
    ∃ b', b.writeSlice p.1 = some b' ∧ Holds b' (bs++record p) ∧ b'.padding = b.padding := by
  obtain ⟨b1,hb1,h1,hpad1,_⟩ := h.grow (headerSize+p.1.length)
  obtain ⟨b2,g,hb2,hg,h2,hpad2⟩ := h1.allocate headerSize
  have h3 := h2.fill (putUint 8 p.1.length) (by rw [hg]; exact putUint_length 8)
  obtain ⟨b4,g',hb4,hg',h4,hpad4⟩ := h3.allocate p.1.length
  have h5 := h4.fill p.1 hg'.symm
  refine ⟨b4.fill p.1,?_,by rwa [append_assoc] at h5,?_⟩
  · rw [Buffer.writeSlice, Buffer.sliceAllocate, hb1, Option.bind_some, Buffer.writeLen, hb2,
      Option.map_some, Option.bind_some, hb4, Option.map_some]
  · exact hpad4.trans (hpad2.trans hpad1)

theorem foldlM_holds (b : Buffer) (bs : Bytes) (h : Holds b bs) :
    ∃ b', ps.foldlM (fun b p => b.writeSlice p.1) b = some b' ∧ Holds b' (bs++encode ps) ∧
      b'.padding = b.padding := by
  induction ps generalizing b bs with
  | nil => exact ⟨b,rfl,by simpa using h,rfl⟩
  | cons p ps ih =>
    obtain ⟨b1,hb1,h1,hpad1⟩ := h.writeSlice p
    obtain ⟨b2,hb2,h2,hpad2⟩ := ih b1 _ h1
    refine ⟨b2,?_,by rwa [append_assoc] at h2,hpad2.trans hpad1⟩
    rw [foldlM_cons, hb1]
    exact hb2

theorem written_holds (capacity : ℤ) (ps : List Payload) :
    ∃ b, written capacity ps = some b ∧ Holds b (encode ps) ∧ b.padding = headerSize := by
  obtain ⟨b,hb,h,hpad⟩ := foldlM_holds ps (new capacity) [] (new_holds capacity)
  exact ⟨b,hb,h,hpad⟩

/-! ## Walking -/

def following (b : Buffer) (pos : ℕ) : ℤ := if b.offset ≤ pos then -1 else pos

theorem slice_at (b : Buffer) (pre post : Bytes) (p : Payload) (hd : b.data = pre++(record p++post))
    (hoff : pre.length+(record p).length ≤ b.offset) :
    b.slice pre.length = some (p.1,following b (pre.length+(record p).length)) := by
  have hr := record_length p
  have hlen : b.data.length = pre.length+((record p).length+post.length) := by
    rw [hd]
    simp
  have hh : headerSize = 8 := rfl
  have hdrop : b.data.drop pre.length = record p++post := by rw [hd, drop_left' rfl]
  have hint : int64 (p.1.length : ℤ) = p.1.length := int64_of_range (by omega) (by omega)
  have hpay : b.data.drop (pre.length+headerSize) = p.1++post := by
    rw [← drop_drop, hdrop, record_payload]
  rw [Buffer.slice, if_neg (by omega), if_neg (by omega)]
  dsimp only
  have hstart : (pre.length:ℤ)+(headerSize:ℕ) = ((pre.length+headerSize : ℕ):ℤ) := by omega
  have hnext : ((pre.length+headerSize : ℕ):ℤ)+p.1.length =
      ((pre.length+(record p).length : ℕ):ℤ) := by omega
  have hcount : (((pre.length+(record p).length : ℕ):ℤ)-((pre.length+headerSize : ℕ):ℤ)).toNat =
      p.1.length := by omega
  rw [Int.toNat_natCast, hdrop, record_header, hint, hstart, hnext, if_neg (by omega), hcount,
    Int.toNat_natCast, hpay, take_left' rfl]
  simp only [following, Nat.cast_le]

def starts : ℕ → List Payload → List ℤ
  | _, [] => []
  | pos, p::ps => pos::starts (pos+(record p).length) ps

theorem starts_length : (starts pos ps).length = ps.length := by
  induction ps generalizing pos with
  | nil => rfl
  | cons p ps ih => rw [starts, length_cons, ih, length_cons]

theorem starts_get (i : ℕ) (hi : i < ps.length) :
    (starts pos ps)[i]? = some ((pos+(encode (ps.take i)).length : ℕ):ℤ) := by
  induction ps generalizing pos i with
  | nil => exact absurd hi (Nat.not_lt_zero _)
  | cons p ps ih =>
    cases i with
    | zero => simp [starts]
    | succ i =>
      rw [starts, List.getElem?_cons_succ, ih _ i (by simpa using hi), take_succ_cons,
        encode_cons, length_append, Nat.add_assoc]

def entry (pos : ℕ) (ps : List Payload) : ℤ := if ps = [] then -1 else pos

theorem entry_cons : entry pos (p::ps) = pos :=
  if_neg (cons_ne_nil p ps)

theorem following_entry (b : Buffer) {pos : ℕ} (ps : List Payload)
    (h : pos+(encode ps).length = b.offset) : following b pos = entry pos ps := by
  rw [following, entry]
  by_cases hp : ps = []
  · rw [if_pos hp]
    rw [hp] at h
    simp only [encode_nil, length_nil] at h
    omega
  · have := length_le_encode ps
    have := length_pos_iff.mpr hp
    rw [if_neg hp, if_neg (by omega)]

section Walk
variable (b : Buffer) (post : Bytes)

theorem slice_first (pre : Bytes) (p : Payload) (ps : List Payload)
    (hd : b.data = pre++(encode (p::ps)++post))
    (hoff : pre.length+(encode (p::ps)).length = b.offset) :
    b.slice pre.length = some (p.1,entry (pre.length+(record p).length) ps) := by
  rw [encode_cons, append_assoc] at hd
  rw [encode_cons, length_append] at hoff
  rw [slice_at b pre _ p hd (by omega), following_entry b ps (by omega)]

theorem offsetsLoop_eq (ps : List Payload) (pre : Bytes) (fuel : ℕ) (acc : List ℤ)
    (hd : b.data = pre++(encode ps++post)) (hoff : pre.length+(encode ps).length = b.offset)
    (hfuel : ps.length < fuel) :
    offsetsLoop b fuel (entry pre.length ps) acc = some (acc++starts pre.length ps) := by
  induction ps generalizing pre fuel acc with
  | nil =>
    obtain ⟨fuel,rfl⟩ := Nat.exists_eq_succ_of_ne_zero (show fuel ≠ 0 by omega)
    simp [offsetsLoop, entry, starts]
  | cons p ps ih =>
    obtain ⟨fuel,rfl⟩ := Nat.exists_eq_succ_of_ne_zero (show fuel ≠ 0 by omega)
    have hfirst := slice_first b post pre p ps hd hoff
    have hrest := ih (pre++record p) fuel (acc++[(pre.length:ℤ)]) (by simpa using hd)
      (by simp only [encode_cons, length_append] at hoff ⊢; omega) (by simpa using hfuel)
    rw [length_append] at hrest
    rw [offsetsLoop, entry_cons, hfirst]
    dsimp only
    rw [hrest, append_assoc]
    rfl

def nonempty (ps : List Payload) : List Bytes := (ps.map Subtype.val).filter (fun p => p ≠ [])

structure PassedOn {ε : Type} (fn : List Bytes → Option ε) (slices calls : List Bytes)
    (err : Option ε) : Prop where
  first : calls <+: slices
  accepted : ∀ k, 0 < k → k < calls.length → fn (calls.take k) = none
  stopped : match err with
    | some e => calls ≠ [] ∧ fn calls = some e
    | none => calls = slices ∧ (calls ≠ [] → fn calls = none)

theorem iterateLoop_passes {ε : Type} (fn : List Bytes → Option ε) (ps : List Payload) (pre : Bytes)
    (fuel : ℕ) (calls : List Bytes) (hd : b.data = pre++(encode ps++post))
    (hoff : pre.length+(encode ps).length = b.offset) (hfuel : ps.length < fuel)
    (hcalls : ∀ k, 0 < k → k ≤ calls.length → fn (calls.take k) = none) :
    ∃ calls' err, iterateLoop fn b fuel (entry pre.length ps) calls = some (calls',err) ∧
      PassedOn fn (calls++nonempty ps) calls' err := by
  induction ps generalizing pre fuel calls with
  | nil =>
    obtain ⟨fuel,rfl⟩ := Nat.exists_eq_succ_of_ne_zero (show fuel ≠ 0 by omega)
    refine ⟨calls,none,by simp [iterateLoop, entry],⟨by simp [nonempty],
      fun k h1 h2 => hcalls k h1 (by omega),by simp [nonempty],fun hne => ?_⟩⟩
    simpa using hcalls calls.length (length_pos_iff.mpr hne) le_rfl
  | cons p ps ih =>
    obtain ⟨fuel,rfl⟩ := Nat.exists_eq_succ_of_ne_zero (show fuel ≠ 0 by omega)
    have hfirst := slice_first b post pre p ps hd hoff
    have hrest := fun calls' => ih (pre++record p) fuel calls' (by simpa using hd)
      (by simp only [encode_cons, length_append] at hoff ⊢; omega) (by simpa using hfuel)
    simp only [length_append] at hrest
    rw [iterateLoop, entry_cons, if_neg (by omega), hfirst]
    dsimp only
    by_cases hp : p.1 = []
    · have hskip : nonempty (p::ps) = nonempty ps := by simp [nonempty, hp]
      rw [if_pos (by simp [hp]), hskip]
      exact hrest calls hcalls
    have hpass : nonempty (p::ps) = p.1::nonempty ps := by simp [nonempty, hp]
    have hbefore : ∀ k, 0 < k → k < (calls++[p.1]).length →
        fn ((calls++[p.1]).take k) = none := by
      intro k h1 h2
      rw [length_append, length_singleton] at h2
      rw [take_append_of_le_length (by omega)]
      exact hcalls k h1 (by omega)
    rw [if_neg (by simp [hp]), hpass]
    cases hfn : fn (calls++[p.1]) with
    | some e =>
      refine ⟨_,_,rfl,⟨⟨nonempty ps,by simp⟩,hbefore,by simp,hfn⟩⟩
    | none =>
      have happ : calls++p.1::nonempty ps = calls++[p.1]++nonempty ps := by simp
      rw [happ]
      refine hrest (calls++[p.1]) (fun k h1 h2 => ?_)
      rcases Nat.lt_or_eq_of_le h2 with h2 | h2
      · exact hbefore k h1 h2
      · rw [h2, take_length]
        exact hfn

end Walk

/-- Slices written to a new buffer are found again by their offsets, each with the
offset of the next one, and those that are not empty are passed on in order up to
the first error. -/
theorem slices_round_trip {ε : Type} (capacity : ℤ) (ps : List Payload) (hps : ps ≠ [])
    (fn : List Bytes → Option ε) :
    ∃ b offsets calls err, written capacity ps = some b ∧ b.sliceOffsets = some offsets ∧
      offsets.length = ps.length ∧
      (∀ i (hi : i < ps.length), ∃ off, offsets[i]? = some off ∧
        b.slice off = some (ps[i].1,(offsets[i+1]?).getD (-1))) ∧
      b.sliceIterate fn = some (calls,err) ∧ PassedOn fn (nonempty ps) calls err := by
  obtain ⟨b,hb,h,hpad⟩ := written_holds capacity ps
  obtain ⟨pre,post,hd,hpre⟩ := h.stored
  have hoff := h.offset
  rw [← hpre] at hoff
  have hlen := length_le_encode ps
  have hpos := length_pos_iff.mpr hps
  have hentry : ((b.startOffset:ℕ):ℤ) = entry pre.length ps := by
    rw [entry, if_neg hps, hpre]
    rfl
  have hoffsets := offsetsLoop_eq b post ps pre (b.offset+1) [] hd hoff.symm (by omega)
  obtain ⟨calls,err,hcalls,hpassed⟩ := iterateLoop_passes b post fn ps pre (b.offset+1) [] hd
    hoff.symm (by omega) (fun k h1 h2 => absurd h2 (by simp; omega))
  refine ⟨b,starts pre.length ps,calls,err,hb,?_,starts_length _ _,fun i hi => ?_,?_,hpassed⟩
  · rw [Buffer.sliceOffsets, hentry, hoffsets, nil_append]
  · refine ⟨_,starts_get _ ps i hi,?_⟩
    have henc : encode ps = encode (ps.take i)++encode (ps[i]::ps.drop (i+1)) := by
      rw [← encode_append, cons_getElem_drop_succ, take_append_drop]
    have hdi : b.data = (pre++encode (ps.take i))++(encode (ps[i]::ps.drop (i+1))++post) := by
      rw [hd, henc, append_assoc, append_assoc]
    have hoi : (pre++encode (ps.take i)).length+(encode (ps[i]::ps.drop (i+1))).length =
        b.offset := by
      rw [hoff, henc, length_append, length_append, Nat.add_assoc]
    have hslice := slice_first b post _ _ _ hdi hoi
    rw [length_append] at hslice
    rw [hslice, entry]
    congr 2
    by_cases hlast : i+1 < ps.length
    · have htake : (encode (ps.take (i+1))).length =
          (encode (ps.take i)).length+(record ps[i]).length := by
        rw [take_succ_eq_append_getElem hi, encode_append, length_append, encode_cons,
          encode_nil, append_nil]
      rw [if_neg (by simp; omega), starts_get _ ps (i+1) hlast, Option.getD_some, htake,
        Nat.add_assoc]
    · rw [if_pos (by simp; omega), List.getElem?_eq_none (by rw [starts_length]; omega),
        Option.getD_none]
  rw [Buffer.sliceIterate, if_neg, hentry, hcalls]
  rw [Buffer.isEmpty, Buffer.startOffset]
  simp only [decide_eq_true_eq]
  omega

/-- Three slices, the second of them empty. -/
theorem three_slices_round_trip :
    ∃ b offsets, written 0 [⟨[1,2],by decide⟩,⟨[],by decide⟩,⟨[3],by decide⟩] = some b ∧
      b.sliceOffsets = some offsets ∧ offsets.length = 3 := by
  obtain ⟨b,offsets,_,_,hb,ho,hl,_⟩ := slices_round_trip 0
    [⟨[1,2],by decide⟩,⟨[],by decide⟩,⟨[3],by decide⟩] (by simp) (fun _ => (none : Option Unit))
  exact ⟨b,offsets,hb,ho,hl⟩

end GoCommon.SliceBuffer
