import GoCommon.SliceBuffer

/-!
# Sorting slices in place

Chunks of slices are sorted through a second buffer, then merged pairwise: the
left run is copied out, and the runs are merged from the front of the place of
both, where the right run is read behind the part that is written. Sorting a
small slice of offsets is a parameter, as is the initial capacity of the second
buffer, a rounded product of floating point numbers.
-/

set_option autoImplicit false

namespace GoCommon.SliceSort
open List ByteWords SliceBuffer

def sortChunkSize : ℕ := 1024

abbrev LessFunc := Bytes → Bytes → Bool

structure Sorter where
  run : {α : Type} → (α → α → Bool) → List α → List α
  perm : ∀ {α : Type} (less : α → α → Bool) (xs : List α), (run less xs).Perm xs
  ordered : ∀ {α : Type} (less : α → α → Bool) (xs : List α),
    IsStrictWeakOrder α (fun a b => less a b) →
      (run less xs).Pairwise (fun a b => less b a = false)

section Order
variable {α : Type} (less : α → α → Bool) (h : IsStrictWeakOrder α (fun a b => less a b))
include h

theorem notLess_trans (a b c : α) (hab : (!less b a) = true) (hbc : (!less c b) = true) :
    (!less c a) = true := by
  simp only [Bool.not_eq_true', ← Bool.not_eq_true] at hab hbc ⊢
  intro hca
  have hbc' : ¬less b c := fun hl => hab (h.trans b c a hl hca)
  have hab' : ¬less a b := fun hl => hbc (h.trans c a b hca hl)
  exact (h.incomp_trans c b a ⟨hbc,hbc'⟩ ⟨hab,hab'⟩).1 hca

theorem notLess_total (a b : α) : (!less b a || !less a b) = true := by
  simp only [Bool.or_eq_true, Bool.not_eq_true', ← Bool.not_eq_true]
  by_contra hno
  push Not at hno
  exact h.irrefl a (h.trans a b a hno.2 hno.1)

end Order

def byMergeSort : Sorter where
  run less xs := xs.mergeSort (fun a b => !less b a)
  perm less xs := mergeSort_perm xs _
  ordered less xs h := by
    have := pairwise_mergeSort (notLess_trans less h) (notLess_total less h) xs
    simpa using this

structure SortHelper where
  b : Buffer
  tmp : Buffer
  deriving DecidableEq, Repr

def rawSlice (p : Bytes) : Option Bytes :=
  if p.length < headerSize then none
  else
    let stop := headerSize+int64 (uint (p.take headerSize))
    if stop < 0 ∨ p.length < stop then none else some (p.take stop.toNat)

def offsetsEvery (every : ℕ) (b : Buffer) (stop : ℕ) : ℕ → ℤ → ℕ → List ℕ → Option (List ℕ)
  | 0, _, _, _ => none
  | fuel+1, next, count, offsets => if 0 ≤ next ∧ next < stop then match b.slice next with
      | none => none
      | some (_,after) => offsetsEvery every b stop fuel after (count+1)
        (if count%every = 0 then offsets++[next.toNat] else offsets)
    else some offsets

def payloadAt (b : Buffer) (off : ℕ) : Bytes := ((b.slice off).map Prod.fst).getD []

def writeRaws (b : Buffer) : List ℕ → Buffer → Option Buffer
  | [], tmp => some tmp
  | off::offs, tmp => (rawSlice (b.data.drop off)).bind (fun raw =>
      (tmp.write raw).bind (writeRaws b offs))

def sortSmall (sorter : Sorter) (less : LessFunc) (start stop : ℕ) (s : SortHelper) :
    Option SortHelper :=
  (offsetsEvery 1 s.b stop (stop-start+1) start 0 []).bind (fun small =>
    (writeRaws s.b (sorter.run (fun x y => less (payloadAt s.b x) (payloadAt s.b y)) small)
      s.tmp.reset).map (fun tmp => ⟨{ s.b with data := copyAt s.b.data start stop tmp.bytes },tmp⟩))

def sortSmalls (sorter : Sorter) (less : LessFunc) : ℕ → List ℕ → SortHelper → Option SortHelper
  | _, [], s => some s
  | left, off::offs, s => (sortSmall sorter less left off s).bind (sortSmalls sorter less off offs)

def mergeLoop (less : LessFunc) (stop rightEnd : ℕ) : ℕ → Bytes → Bytes → ℕ → ℕ → Option Bytes
  | 0, _, _, _, _ => none
  | fuel+1, data, left, right, start =>
    if stop ≤ start then some data
    else if left.length = 0 then some (copyAt data start stop ((data.take rightEnd).drop right))
    else if rightEnd ≤ right then some (copyAt data start stop left)
    else (rawSlice left).bind (fun ls =>
      (rawSlice ((data.take rightEnd).drop right)).bind (fun rs =>
      if less (ls.drop headerSize) (rs.drop headerSize) then
        mergeLoop less stop rightEnd fuel (copyAt data start data.length ls)
          (left.drop ls.length) right (start+ls.length)
      else mergeLoop less stop rightEnd fuel (copyAt data start data.length rs) left
        (right+rs.length) (start+rs.length)))

def merge (less : LessFunc) (left right : ℕ × ℕ) (start stop : ℕ) (s : SortHelper) :
    Option SortHelper :=
  if left.2-left.1 = 0 ∨ right.2-right.1 = 0 then some s
  else (s.tmp.reset.write ((s.b.data.take left.2).drop left.1)).bind (fun tmp =>
    (mergeLoop less stop right.2 (stop-start+1) s.b.data tmp.bytes right.1 start).map (fun data =>
      ⟨{ s.b with data := data },tmp⟩))

def sliceEnds (s : SortHelper) (lo hi : ℕ) : Option (SortHelper × ℕ × ℕ) :=
  if lo ≤ hi ∧ hi ≤ s.b.data.length then some (s,lo,hi) else none

def sort (less : LessFunc) (offsets : List ℕ) :
    ℕ → ℕ → ℕ → SortHelper → Option (SortHelper × ℕ × ℕ)
  | 0, _, _, _ => none
  | fuel+1, lo, hi, s => if hi < lo then none
    else
      let mid := lo+(hi-lo)/2
      match offsets[lo]?, offsets[hi]? with
      | some loff, some hoff => if lo = mid then sliceEnds s loff hoff
        else (sort less offsets fuel lo mid s).bind (fun l =>
          (sort less offsets fuel mid hi l.1).bind (fun r =>
            (merge less l.2 r.2 loff hoff r.1).bind (fun s => sliceEnds s loff hoff)))
      | _, _ => none

def sortSliceBetween (sorter : Sorter) (less : LessFunc) (szTmp : ℤ) (start stop : ℕ) (b : Buffer) :
    Option Buffer :=
  if stop ≤ start then some b
  else if start = 0 then none
  else (offsetsEvery sortChunkSize b stop (stop-start+1) start 0 []).bind (fun offsets =>
    match offsets with
    | [] => some b
    | left::rest =>
      let rest := if (left::rest).getLast? = some stop then rest else rest++[stop]
      (sortSmalls sorter less left rest ⟨b,new szTmp⟩).bind (fun s =>
        (sort less (left::rest) (rest.length+1) 0 rest.length s).map (fun r => r.1.b)))

def sortSlice (sorter : Sorter) (less : LessFunc) (szTmp : ℤ) (b : Buffer) : Option Buffer :=
  sortSliceBetween sorter less szTmp b.startOffset b.offset b

/-! ## Records in an array -/

theorem rawSlice_record (p : Payload) (rest : Bytes) :
    rawSlice (record p++rest) = some (record p) := by
  have hr := record_length p
  have hint : int64 (p.1.length : ℤ) = p.1.length := int64_of_range (by omega) (by omega)
  have hstop : (headerSize:ℤ)+p.1.length = ((record p).length:ℕ) := by omega
  have hlen : (record p++rest).length = (record p).length+rest.length := length_append
  rw [rawSlice, if_neg (by omega), record_header, hint, hstop]
  rw [if_neg (by omega), Int.toNat_natCast, take_left' rfl]

def marks (every : ℕ) : ℕ → ℕ → List Payload → List ℕ
  | _, _, [] => []
  | count, pos, p::ps => (if count%every = 0 then [pos] else [])++
      marks every (count+1) (pos+(record p).length) ps

theorem marks_lt (every count pos : ℕ) (ps : List Payload) :
    ∀ x ∈ marks every count pos ps, x < pos+(encode ps).length := by
  induction ps generalizing count pos with
  | nil => simp [marks]
  | cons p ps ih =>
    intro x hx
    have hr := record_length p
    rw [encode_cons, length_append]
    rcases mem_append.mp hx with hx | hx
    · split at hx
      · rw [mem_singleton.mp hx, hr, headerSize]
        omega
      · cases hx
    · have := ih _ _ x hx
      omega

theorem offsetsEvery_eq (every : ℕ) (b : Buffer) (post : Bytes) (ps : List Payload) (pre : Bytes)
    (fuel count stop : ℕ) (acc : List ℕ) (hd : b.data = pre++(encode ps++post))
    (hstop : pre.length+(encode ps).length = stop) (hoff : stop ≤ b.offset)
    (hfuel : ps.length < fuel) :
    offsetsEvery every b stop fuel (following b pre.length) count acc =
      some (acc++marks every count pre.length ps) := by
  induction ps generalizing pre fuel count acc with
  | nil =>
    obtain ⟨fuel,rfl⟩ := Nat.exists_eq_succ_of_ne_zero (show fuel ≠ 0 by omega)
    have hnot : ¬(0 ≤ following b pre.length ∧ following b pre.length < stop) := by
      simp only [encode_nil, length_nil] at hstop
      rw [following]
      split <;> omega
    rw [offsetsEvery, if_neg hnot, marks, append_nil]
  | cons p ps ih =>
    obtain ⟨fuel,rfl⟩ := Nat.exists_eq_succ_of_ne_zero (show fuel ≠ 0 by omega)
    have hr := record_length p
    have hh : headerSize = 8 := rfl
    simp only [encode_cons, length_append, append_assoc] at hstop hd
    have hnext : following b pre.length = (pre.length:ℕ) := if_neg (by omega)
    have hrest := ih (pre++record p) fuel (count+1)
      (if count%every = 0 then acc++[pre.length] else acc) (by rw [hd, append_assoc])
      (by rw [length_append]; omega) (by simpa using hfuel)
    rw [length_append] at hrest
    rw [offsetsEvery, hnext, if_pos (by omega), slice_at b pre _ p hd (by omega)]
    dsimp only
    rw [Int.toNat_natCast, hrest, marks]
    split <;> simp

/-! ## Chunks -/

def bounds : ℕ → List (List Payload) → List ℕ
  | pos, [] => [pos]
  | pos, c::cs => pos::bounds (pos+(encode c).length) cs

theorem exists_chunks (every count pos : ℕ) (ps : List Payload) :
    ∃ first chunks, ps = first++List.flatten chunks ∧ (count%every = 0 → first = []) ∧
      marks every count pos ps++[pos+(encode ps).length] =
        bounds (pos+(encode first).length) chunks := by
  induction ps generalizing count pos with
  | nil => exact ⟨[],[],rfl,fun _ => rfl,by simp [marks, bounds]⟩
  | cons p ps ih =>
    obtain ⟨first,chunks,hps,_,hb⟩ := ih (count+1) (pos+(record p).length)
    have hend : pos+(encode (p::ps)).length = pos+(record p).length+(encode ps).length := by
      rw [encode_cons, length_append]
      omega
    have hfirst : pos+(record p).length+(encode first).length =
        pos+(encode (p::first)).length := by
      rw [encode_cons, length_append]
      omega
    rw [marks, append_assoc, hend, hb, hfirst]
    by_cases hc : count%every = 0
    · refine ⟨[],(p::first)::chunks,by simp [hps],fun _ => rfl,?_⟩
      rw [if_pos hc]
      rfl
    · exact ⟨p::first,chunks,by simp [hps],fun h => absurd h hc,by rw [if_neg hc]; rfl⟩

theorem bounds_get {pos : ℕ} {xs ys : List (List Payload)} :
    (bounds pos (xs++ys))[xs.length]? = some (pos+(encode xs.flatten).length) := by
  induction xs generalizing pos with
  | nil => cases ys <;> simp [bounds]
  | cons x xs ih =>
    rw [cons_append, bounds, length_cons, List.getElem?_cons_succ, ih,
      flatten_cons, encode_append, length_append, Nat.add_assoc]

theorem bounds_length (pos : ℕ) (cs : List (List Payload)) :
    (bounds pos cs).length = cs.length+1 := by
  induction cs generalizing pos with
  | nil => rfl
  | cons c cs ih => rw [bounds, length_cons, ih, length_cons]

theorem encode_perm_length (ps qs : List Payload) (h : ps.Perm qs) :
    (encode ps).length = (encode qs).length := by
  rw [encode, encode, length_flatMap, length_flatMap]
  exact (h.map _).sum_eq

def Sorted (less : LessFunc) (ps : List Payload) : Prop :=
  ps.Pairwise (fun p q => less q.1 p.1 = false)

/-! ## One chunk -/

def loadAt (b : Buffer) (off : ℕ) : Payload :=
  if h : (payloadAt b off).length < 2^63 then ⟨payloadAt b off,h⟩ else ⟨[],by simp⟩

variable {b : Buffer} {ps : List Payload}

theorem loadAt_eq {off : ℕ} {p : Payload} (h : payloadAt b off = p.1) : loadAt b off = p := by
  rw [loadAt, dif_pos (by rw [h]; exact p.2)]
  exact Subtype.ext h

theorem marks_payloads (b : Buffer) (post : Bytes) (ps : List Payload) (pre : Bytes) (count : ℕ)
    (hd : b.data = pre++(encode ps++post)) (hoff : pre.length+(encode ps).length ≤ b.offset) :
    (marks 1 count pre.length ps).map (loadAt b) = ps ∧
    ∀ x ∈ marks 1 count pre.length ps, payloadAt b x = (loadAt b x).1 ∧
      rawSlice (b.data.drop x) = some (record (loadAt b x)) := by
  induction ps generalizing pre count with
  | nil => simp [marks]
  | cons p ps ih =>
    simp only [encode_cons, length_append, append_assoc] at hoff hd
    have hrest := ih (pre++record p) (count+1) (by rw [hd, append_assoc])
      (by rw [length_append]; omega)
    rw [length_append] at hrest
    obtain ⟨hmap,hall⟩ := hrest
    have hpay : payloadAt b pre.length = p.1 := by
      rw [payloadAt, slice_at b pre _ p hd (by omega)]
      rfl
    have hload := loadAt_eq hpay
    have hraw : rawSlice (b.data.drop pre.length) = some (record p) := by
      rw [hd, drop_left' rfl, rawSlice_record]
    rw [marks, if_pos (Nat.mod_one _), singleton_append]
    refine ⟨by rw [map_cons, hload, hmap],fun x hx => ?_⟩
    rcases mem_cons.mp hx with rfl | hx
    · rw [hload]
      exact ⟨hpay,hraw⟩
    · exact hall x hx

theorem writeRaws_holds (b : Buffer) (offs : List ℕ)
    (h : ∀ x ∈ offs, rawSlice (b.data.drop x) = some (record (loadAt b x))) (tmp : Buffer)
    (bs : Bytes) (htmp : Holds tmp bs) :
    ∃ tmp', writeRaws b offs tmp = some tmp' ∧
      Holds tmp' (bs++encode (offs.map (loadAt b))) := by
  induction offs generalizing tmp bs with
  | nil => exact ⟨tmp,rfl,by simpa using htmp⟩
  | cons x offs ih =>
    obtain ⟨tmp1,h1,hold1,_⟩ := htmp.write (record (loadAt b x))
    obtain ⟨tmp2,h2,hold2⟩ := ih (fun y hy => h y (by simp [hy])) tmp1 _ hold1
    refine ⟨tmp2,?_,by simpa using hold2⟩
    rw [writeRaws, h x (by simp), Option.bind_some, h1, Option.bind_some, h2]

section Chunk
variable (sorter : Sorter) (less : LessFunc)

variable (hless : IsStrictWeakOrder Bytes (fun a b => less a b))

include hless in
theorem sortSmall_sorts {s : SortHelper} {pre post : Bytes} {tmp0 : Bytes}
    (hd : s.b.data = pre++(encode ps++post)) (hoff : pre.length+(encode ps).length ≤ s.b.offset)
    (htmp : Holds s.tmp tmp0) :
    ∃ s' qs tmp1, sortSmall sorter less pre.length (pre.length+(encode ps).length) s = some s' ∧
      s'.b = { s.b with data := pre++(encode qs++post) } ∧ Holds s'.tmp tmp1 ∧ qs.Perm ps ∧
      Sorted less qs := by
  have hlen := length_le_encode ps
  obtain ⟨hmap,hall⟩ := marks_payloads s.b post ps pre 0 hd hoff
  have hsmall : offsetsEvery 1 s.b (pre.length+(encode ps).length)
      (pre.length+(encode ps).length-pre.length+1) pre.length 0 [] =
      some (marks 1 0 pre.length ps) := by
    by_cases hps : ps = []
    · subst hps
      simp [offsetsEvery, marks]
    have hpos := length_pos_iff.mpr hps
    have hnext : following s.b pre.length = (pre.length:ℕ) := if_neg (by omega)
    have hwalk := offsetsEvery_eq 1 s.b post ps pre (pre.length+(encode ps).length-pre.length+1)
      0 _ [] hd rfl hoff (by omega)
    rw [hnext, nil_append] at hwalk
    exact hwalk
  let f : ℕ → ℕ → Bool := fun x y => less (payloadAt s.b x) (payloadAt s.b y)
  have hf : IsStrictWeakOrder ℕ (fun x y => f x y) := inferInstanceAs
    (IsStrictWeakOrder ℕ (Order.Preimage (payloadAt s.b) (fun a b => less a b = true)))
  have hperm := sorter.perm f (marks 1 0 pre.length ps)
  have hord := sorter.ordered f (marks 1 0 pre.length ps) hf
  have hmem : ∀ x ∈ sorter.run f (marks 1 0 pre.length ps), payloadAt s.b x = (loadAt s.b x).1 ∧
      rawSlice (s.b.data.drop x) = some (record (loadAt s.b x)) := fun x hx =>
    hall x (hperm.mem_iff.mp hx)
  obtain ⟨tmp,hw,hhold⟩ := writeRaws_holds s.b _ (fun x hx => (hmem x hx).2) s.tmp.reset []
    htmp.reset
  rw [nil_append] at hhold
  have hqs : ((sorter.run f (marks 1 0 pre.length ps)).map (loadAt s.b)).Perm ps := by
    have := hperm.map (loadAt s.b)
    rwa [hmap] at this
  have hsame := encode_perm_length _ _ hqs
  refine ⟨⟨{ s.b with
    data := copyAt s.b.data pre.length (pre.length+(encode ps).length) tmp.bytes },tmp⟩,
    (sorter.run f (marks 1 0 pre.length ps)).map (loadAt s.b),_,?_,?_,hhold,hqs,?_⟩
  · rw [sortSmall, hsmall, Option.bind_some, hw, Option.map_some]
  · rw [hhold.bytes, hd, copyAt_whole _ _ _ _ _ hsame (by omega)]
  rw [Sorted, pairwise_map]
  refine hord.imp_of_mem (fun hx hy hxy => ?_)
  rw [← (hmem _ hx).1, ← (hmem _ hy).1]
  exact hxy

def Sorts (c c' : List Payload) : Prop := c'.Perm c ∧ Sorted less c'

include hless in
theorem sortSmalls_sorts (chunks : List (List Payload)) (s : SortHelper) (pre post : Bytes)
    (tmp0 : Bytes) (hd : s.b.data = pre++(encode chunks.flatten++post))
    (hoff : pre.length+(encode chunks.flatten).length ≤ s.b.offset) (htmp : Holds s.tmp tmp0) :
    ∃ s' chunks' tmp1, sortSmalls sorter less pre.length (bounds pre.length chunks).tail s =
        some s' ∧
      s'.b = { s.b with data := pre++(encode chunks'.flatten++post) } ∧ Holds s'.tmp tmp1 ∧
      List.Forall₂ (Sorts less) chunks chunks' := by
  induction chunks generalizing s pre tmp0 with
  | nil => exact ⟨s,[],tmp0,rfl,by rw [← hd],htmp,.nil⟩
  | cons c cs ih =>
    simp only [flatten_cons, encode_append, length_append, append_assoc] at hd hoff
    obtain ⟨s1,c',tmp1,h1,hb1,ht1,hp1,ho1⟩ := sortSmall_sorts sorter less hless hd
      (by omega) htmp
    have hsame := encode_perm_length _ _ hp1
    obtain ⟨s2,cs',tmp2,h2,hb2,ht2,hall⟩ := ih s1 (pre++encode c') tmp1
      (by rw [hb1, append_assoc])
      (by rw [hb1, length_append]; change _ ≤ s.b.offset; omega) ht1
    refine ⟨s2,c'::cs',tmp2,?_,?_,ht2,.cons ⟨hp1,ho1⟩ hall⟩
    · have hb : (bounds pre.length (c::cs)).tail =
          (pre.length+(encode c).length)::(bounds (pre.length+(encode c).length) cs).tail := by
        cases cs <;> rfl
      rw [hb, sortSmalls, h1, Option.bind_some]
      rw [length_append, hsame] at h2
      exact h2
    · rw [hb2, hb1]
      simp

end Chunk

/-! ## Merging -/

section Merge
variable (less : LessFunc)

def merged (left right : List Payload) : List Payload :=
  List.merge right left (fun r l => !less l.1 r.1)

theorem merged_perm (left right : List Payload) : (merged less left right).Perm (left++right) :=
  (merge_perm_append _).trans perm_append_comm

theorem merged_sorted (hless : IsStrictWeakOrder Bytes (fun a b => less a b))
    {left right : List Payload} (hl : Sorted less left) (hr : Sorted less right) :
    Sorted less (merged less left right) := by
  have hle : ∀ ps, Sorted less ps ↔ ps.Pairwise (fun a b => (!less b.1 a.1) = true) := by
    intro ps
    simp only [Sorted, Bool.not_eq_true']
  rw [hle] at hl hr ⊢
  exact pairwise_merge (fun a b c => notLess_trans less hless a.1 b.1 c.1)
    (fun a b => notLess_total less hless a.1 b.1) right left hr hl

theorem record_drop {p : Payload} : (record p).drop headerSize = p.1 := by
  simpa using record_payload p []

theorem mergeLoop_eq (stop : ℕ) (post : Bytes) (fuel pos : ℕ) (left right : List Payload)
    (pre hole data : Bytes) (hd : data = pre++(hole++(encode right++post)))
    (hhole : hole.length = (encode left).length) (hpos : pos = pre.length+hole.length)
    (hstop : stop = pos+(encode right).length) (hfuel : left.length+right.length < fuel) :
    mergeLoop less stop stop fuel data (encode left) pos pre.length =
      some (pre++(encode (merged less left right)++post)) := by
  induction fuel generalizing pos left right pre hole data with
  | zero => exact absurd hfuel (Nat.not_lt_zero _)
  | succ fuel ih =>
    have hright : (data.take stop).drop pos = encode right := by
      rw [hd, hstop, hpos, ← append_assoc hole, ← append_assoc pre, take_left'
        (by simp [Nat.add_assoc]), ← append_assoc, drop_left' (by simp)]
    have hlen : data.length = stop+post.length := by
      rw [hd]
      simp only [length_append]
      omega
    rw [mergeLoop, hright]
    rcases left with _ | ⟨l,left⟩
    · have hnil : hole = [] := length_eq_zero_iff.mp (by simpa using hhole)
      subst hnil
      rw [nil_append] at hd
      rw [merged, merge_right]
      split
      · rename_i hend
        have hz : encode right = [] := length_eq_zero_iff.mp
          (by simp only [length_nil] at hpos; omega)
        rw [hd, hz]
      · simp only [length_nil] at hpos
        rw [if_pos (by simp), hd, copyAt_whole pre _ post _ _ rfl (by omega)]
    have hrl := record_length l
    have hh : headerSize = 8 := rfl
    have hleft : (encode (l::left)).length = (record l).length+(encode left).length := by
      rw [encode_cons, length_append]
    rw [if_neg (by omega), if_neg (by omega)]
    rcases right with _ | ⟨r,right⟩
    · simp only [encode_nil, length_nil, nil_append] at hstop hd
      rw [if_pos (by omega), merged, nil_merge, hd,
        copyAt_whole pre hole post _ _ (by omega) (by omega)]
    have hrr := record_length r
    have hrlen : (encode (r::right)).length = (record r).length+(encode right).length := by
      rw [encode_cons, length_append]
    simp only [length_cons] at hfuel
    rw [if_neg (by omega), encode_cons, rawSlice_record, Option.bind_some, encode_cons,
      rawSlice_record, Option.bind_some, record_drop, record_drop, merged, cons_merge_cons]
    by_cases hlr : less l.1 r.1 = true
    · rw [if_pos hlr, if_neg (by simp [hlr]), drop_left' rfl, encode_cons, ← append_assoc]
      have hnext := ih pos left (r::right) (pre++record l) (hole.drop (record l).length)
        (copyAt data pre.length data.length (record l))
        (by rw [hd, copyAt_middle pre hole _ _ _ (by omega) (by rw [← hd]; omega),
          append_assoc]) (by rw [length_drop]; omega)
        (by rw [length_append, length_drop]; omega) hstop
        (by simp only [length_cons]; omega)
      rw [length_append] at hnext
      rw [hnext, merged, append_assoc, append_assoc, append_assoc]
    rw [if_neg hlr, if_pos (by simpa using hlr), ← encode_cons l left]
    have hnext := ih (pos+(record r).length) (l::left) right (pre++record r)
      ((hole++record r).drop (record r).length)
      (copyAt data pre.length data.length (record r))
      (by rw [hd, encode_cons, append_assoc, ← append_assoc hole,
        copyAt_middle pre _ _ _ _ (by simp) (by simp; omega), append_assoc])
      (by rw [length_drop, length_append]; omega)
      (by rw [length_append, length_drop, length_append]; omega)
      (by omega) (by simp only [length_cons]; omega)
    rw [length_append] at hnext
    rw [hnext, merged, encode_cons, append_assoc, append_assoc]

theorem merge_eq {s : SortHelper} (left right : List Payload) (pre post : Bytes) {tmp0 : Bytes}
    (hd : s.b.data = pre++(encode left++(encode right++post))) (htmp : Holds s.tmp tmp0) :
    ∃ s' tmp1, merge less (pre.length,pre.length+(encode left).length)
        (pre.length+(encode left).length,
          pre.length+(encode left).length+(encode right).length)
        pre.length (pre.length+(encode left).length+(encode right).length) s = some s' ∧
      s'.b = { s.b with data := pre++(encode (merged less left right)++post) } ∧
      Holds s'.tmp tmp1 := by
  have hll := length_le_encode left
  have hlr := length_le_encode right
  rw [merge]
  split
  · rename_i hz
    refine ⟨s,tmp0,rfl,?_,htmp⟩
    have hsame : encode left++encode right = encode (merged less left right) := by
      rcases hz with hz | hz
      · have hnil : left = [] := length_eq_zero_iff.mp (by omega)
        rw [hnil, merged, merge_right]
        rfl
      · have hnil : right = [] := length_eq_zero_iff.mp (by omega)
        rw [hnil, merged, nil_merge, encode_nil, append_nil]
    rw [← hsame, append_assoc, ← hd]
  have hleft : (s.b.data.take (pre.length+(encode left).length)).drop pre.length =
      encode left := by
    rw [hd, ← append_assoc, take_left' (by simp), drop_left' rfl]
  obtain ⟨tmp,hw,hhold,_⟩ := htmp.reset.write (encode left)
  rw [nil_append] at hhold
  have hloop := mergeLoop_eq less _ post
    (pre.length+(encode left).length+(encode right).length-pre.length+1) _ left right pre
    (encode left) s.b.data hd rfl rfl rfl (by omega)
  refine ⟨⟨{ s.b with data := _ },tmp⟩,encode left,?_,rfl,hhold⟩
  rw [hleft, hw, Option.bind_some, hhold.bytes, hloop, Option.map_some]

theorem bounds_at (pos : ℕ) (xs ys : List (List Payload)) (i n : ℕ) (hi : i = xs.length)
    (hn : n = pos+(encode xs.flatten).length) : (bounds pos (xs++ys))[i]? = some n := by
  rw [hi, hn, bounds_get]

theorem sort_sorts (hless : IsStrictWeakOrder Bytes (fun a b => less a b)) (pos : ℕ) (fuel : ℕ)
    (before xs after : List (List Payload)) (s : SortHelper) (pre post tmp0 : Bytes)
    (hxs : ∀ c ∈ xs, Sorted less c) (hd : s.b.data = pre++(encode xs.flatten++post))
    (hpre : pre.length = pos+(encode before.flatten).length) (hfuel : xs.length < fuel)
    (htmp : Holds s.tmp tmp0) :
    ∃ s' qs tmp1, sort less (bounds pos (before++(xs++after))) fuel before.length
        (before.length+xs.length) s =
          some (s',pre.length,pre.length+(encode xs.flatten).length) ∧
      s'.b = { s.b with data := pre++(encode qs++post) } ∧ Holds s'.tmp tmp1 ∧
      qs.Perm xs.flatten ∧ Sorted less qs := by
  induction fuel generalizing before xs after s pre post tmp0 with
  | zero => exact absurd hfuel (Nat.not_lt_zero _)
  | succ fuel ih =>
    have hlo := bounds_at pos before (xs++after) before.length pre.length rfl hpre
    have hhi : (bounds pos (before++(xs++after)))[before.length+xs.length]? =
        some (pre.length+(encode xs.flatten).length) := by
      rw [← append_assoc]
      refine bounds_at pos (before++xs) after _ _ (by simp) ?_
      rw [flatten_append, encode_append, length_append]
      omega
    have hends : ∀ s' qs, s'.b = { s.b with data := pre++(encode qs++post) } →
        qs.Perm xs.flatten → sliceEnds s' pre.length (pre.length+(encode xs.flatten).length) =
          some (s',pre.length,pre.length+(encode xs.flatten).length) := by
      intro s' qs hb hp
      have hsame := encode_perm_length _ _ hp
      rw [sliceEnds, if_pos]
      rw [hb]
      simp only [length_append]
      omega
    rw [sort, if_neg (by omega)]
    dsimp only
    rw [hlo, hhi, Nat.add_sub_cancel_left]
    dsimp only
    by_cases hn : xs.length/2 = 0
    · have hone : Sorted less xs.flatten := by
        rcases xs with _ | ⟨c,_ | ⟨c2,xs⟩⟩
        · exact List.Pairwise.nil
        · simpa using hxs c (by simp)
        · simp only [length_cons] at hn
          omega
      rw [if_pos (by omega), hends s xs.flatten (by rw [← hd]) (List.Perm.refl _)]
      exact ⟨s,xs.flatten,tmp0,rfl,by rw [← hd],htmp,List.Perm.refl _,hone⟩
    -- both halves are shorter than the range
    have hsplit : xs.take (xs.length/2)++xs.drop (xs.length/2) = xs := take_append_drop ..
    have hflat : encode xs.flatten = encode (xs.take (xs.length/2)).flatten++
        encode (xs.drop (xs.length/2)).flatten := by
      rw [← encode_append, ← flatten_append, hsplit]
    have hl1 : (xs.take (xs.length/2)).length = xs.length/2 := by
      rw [length_take]
      omega
    have hl2 : (xs.drop (xs.length/2)).length = xs.length-xs.length/2 := length_drop
    generalize hx1 : xs.take (xs.length/2) = xs1 at hsplit hflat hl1
    generalize hx2 : xs.drop (xs.length/2) = xs2 at hsplit hflat hl2
    obtain ⟨s1,qs1,tmp1,h1,hb1,ht1,hp1,ho1⟩ := ih before xs1 (xs2++after) s pre
      (encode xs2.flatten++post) tmp0 (fun c hc => hxs c (by rw [← hsplit]; simp [hc]))
      (by rw [hd, hflat, append_assoc]) hpre (by omega) htmp
    have hs1 := encode_perm_length _ _ hp1
    obtain ⟨s2,qs2,tmp2,h2,hb2,ht2,hp2,ho2⟩ := ih (before++xs1) xs2 after s1 (pre++encode qs1)
      post tmp1 (fun c hc => hxs c (by rw [← hsplit]; simp [hc]))
      (by rw [hb1, append_assoc])
      (by rw [length_append, flatten_append, encode_append, length_append]; omega)
      (by omega) ht1
    have hs2 := encode_perm_length _ _ hp2
    obtain ⟨s3,tmp3,h3,hb3,ht3⟩ := merge_eq less qs1 qs2 pre post
      (by rw [hb2, append_assoc]) ht2
    have hperm : (merged less qs1 qs2).Perm xs.flatten := by
      rw [← hsplit, flatten_append]
      exact (merged_perm less qs1 qs2).trans (hp1.append hp2)
    have hb : s3.b = { s.b with data := pre++(encode (merged less qs1 qs2)++post) } := by
      rw [hb3, hb2, hb1]
    refine ⟨s3,merged less qs1 qs2,tmp3,?_,hb,ht3,hperm,merged_sorted less hless ho1 ho2⟩
    have hoffs : before++(xs1++(xs2++after)) = before++(xs++after) := by
      rw [← append_assoc xs1, hsplit]
    have hmid : (before++xs1).length = before.length+xs.length/2 := by
      rw [length_append, hl1]
    have hend : before.length+xs.length/2+xs2.length = before.length+xs.length := by omega
    have hm : (pre++encode qs1).length = pre.length+(encode qs1).length := length_append
    have hlast : pre.length+(encode qs1).length+(encode qs2).length =
        pre.length+(encode xs.flatten).length := by
      rw [hflat, length_append]
      omega
    rw [hoffs, hl1, ← hs1] at h1
    rw [append_assoc, hoffs, hmid, hend, hm, ← hs2, hlast] at h2
    rw [hlast] at h3
    rw [if_neg (by omega), h1, Option.bind_some]
    dsimp only
    rw [h2, Option.bind_some]
    dsimp only
    rw [h3]
    exact hends s3 _ hb hperm

end Merge

/-! ## The whole sort -/

section Whole
variable (less : LessFunc)

theorem sorts_flatten {cs cs' : List (List Payload)} (h : List.Forall₂ (Sorts less) cs cs') :
    cs'.flatten.Perm cs.flatten ∧ (∀ c ∈ cs', Sorted less c) ∧
      ∀ pos, bounds pos cs = bounds pos cs' := by
  induction h with
  | nil => exact ⟨List.Perm.refl _,by simp,fun _ => rfl⟩
  | @cons c c' cs cs' hc _ ih =>
    obtain ⟨hp,hs,hb⟩ := ih
    refine ⟨hc.1.append hp,?_,fun pos => ?_⟩
    · intro x hx
      rcases mem_cons.mp hx with rfl | hx
      · exact hc.2
      · exact hs x hx
    · rw [bounds, bounds, encode_perm_length _ _ hc.1, hb]

theorem sortSliceBetween_sorts (sorter : Sorter)
    (hless : IsStrictWeakOrder Bytes (fun a b => less a b)) (szTmp : ℤ) (b : Buffer)
    (pre post : Bytes) (ps : List Payload) (hd : b.data = pre++(encode ps++post))
    (hpos : 0 < pre.length) (hoff : pre.length+(encode ps).length ≤ b.offset) :
    ∃ qs, sortSliceBetween sorter less szTmp pre.length (pre.length+(encode ps).length) b =
        some { b with data := pre++(encode qs++post) } ∧ qs.Perm ps ∧ Sorted less qs := by
  have hlen := length_le_encode ps
  by_cases hps : ps = []
  · subst hps
    refine ⟨[],?_,List.Perm.refl _,List.Pairwise.nil⟩
    rw [sortSliceBetween, if_pos (by simp), ← hd]
  have hne := length_pos_iff.mpr hps
  obtain ⟨first,chunks,hchunks,hfirst,hbounds⟩ := exists_chunks sortChunkSize 0 pre.length ps
  have hnil := hfirst (Nat.zero_mod _)
  subst hnil
  rw [nil_append] at hchunks
  rw [encode_nil, length_nil, Nat.add_zero] at hbounds
  have hnext : following b pre.length = (pre.length:ℕ) := if_neg (by omega)
  have hwalk := offsetsEvery_eq sortChunkSize b post ps pre
    (pre.length+(encode ps).length-pre.length+1) 0 _ [] hd rfl hoff (by omega)
  rw [hnext, nil_append] at hwalk
  -- the marks are the bounds without the end
  have hmarks : ∃ rest, marks sortChunkSize 0 pre.length ps = pre.length::rest := by
    rcases ps with _ | ⟨p,ps⟩
    · exact (hps rfl).elim
    · exact ⟨_,by rfl⟩
  obtain ⟨rest,hrest⟩ := hmarks
  have hlast : (pre.length::rest).getLast? ≠ some (pre.length+(encode ps).length) := by
    intro hl
    have := marks_lt sortChunkSize 0 pre.length ps _ (by rw [hrest]; exact mem_of_getLast? hl)
    omega
  rw [hrest, cons_append] at hbounds
  have htail : (bounds pre.length chunks).tail = rest++[pre.length+(encode ps).length] := by
    rw [← hbounds, tail_cons]
  obtain ⟨s1,chunks',tmp1,h1,hb1,ht1,hall⟩ := sortSmalls_sorts sorter less hless chunks
    ⟨b,new szTmp⟩ pre post [] (by rw [← hchunks]; exact hd) (by rw [← hchunks]; exact hoff)
    (new_holds szTmp)
  obtain ⟨hperm,hsorted,hsame⟩ := sorts_flatten less hall
  have hcount : (rest++[pre.length+(encode ps).length]).length = chunks'.length := by
    have := bounds_length pre.length chunks'
    rw [← hsame, ← hbounds, length_cons] at this
    omega
  obtain ⟨s2,qs,tmp2,h2,hb2,_,hp2,ho2⟩ := sort_sorts less hless pre.length (chunks'.length+1) []
    chunks' [] s1 pre post tmp1 hsorted (by rw [hb1]) rfl (by omega) ht1
  rw [nil_append, append_nil, ← hsame, ← hbounds, length_nil, Nat.zero_add] at h2
  refine ⟨qs,?_,hp2.trans (hperm.trans (by rw [← hchunks])),ho2⟩
  rw [sortSliceBetween, if_neg (by omega), if_neg (by omega), hwalk, Option.bind_some, hrest]
  dsimp only
  rw [if_neg hlast, hcount, ← htail, h1, Option.bind_some, htail, h2, Option.map_some, hb2, hb1]

end Whole

/-! ## Slices of a buffer -/

def slicesLoop (b : Buffer) : ℕ → ℤ → List Bytes → Option (List Bytes)
  | 0, _, _ => none
  | fuel+1, next, acc => if next < 0 ∨ b.offset ≤ next then some acc else match b.slice next with
    | none => none
    | some (p,after) => slicesLoop b fuel after (acc++[p])

def slices (b : Buffer) : Option (List Bytes) := slicesLoop b (b.len+1) b.startOffset []

theorem slicesLoop_eq (b : Buffer) (post : Bytes) (ps : List Payload) (pre : Bytes) (fuel : ℕ)
    (next : ℤ) (acc : List Bytes) (hd : b.data = pre++(encode ps++post))
    (hoff : pre.length+(encode ps).length = b.offset) (hfuel : ps.length < fuel)
    (hnext : next = pre.length ∨ next = entry pre.length ps) :
    slicesLoop b fuel next acc = some (acc++ps.map Subtype.val) := by
  induction ps generalizing pre fuel next acc with
  | nil =>
    obtain ⟨fuel,rfl⟩ := Nat.exists_eq_succ_of_ne_zero (show fuel ≠ 0 by omega)
    simp only [encode_nil, length_nil, entry, if_pos] at hoff hnext
    rw [slicesLoop, if_pos (by omega), map_nil, append_nil]
  | cons p ps ih =>
    obtain ⟨fuel,rfl⟩ := Nat.exists_eq_succ_of_ne_zero (show fuel ≠ 0 by omega)
    rw [entry_cons, or_self] at hnext
    have hpos := length_le_encode (p::ps)
    rw [length_cons] at hpos
    have hfirst := slice_first b post pre p ps hd hoff
    rw [hnext, slicesLoop, if_neg (by omega), hfirst]
    dsimp only
    rw [ih (pre++record p) fuel _ _ (by simpa using hd)
      (by simp only [encode_cons, length_append] at hoff ⊢; omega) (by simpa using hfuel)
      (.inr (by rw [length_append]))]
    simp

theorem slices_eq (h : Holds b (encode ps)) : slices b = some (ps.map Subtype.val) := by
  obtain ⟨pre,post,hd,hpre⟩ := h.stored
  have hoff := h.offset
  have hlen := length_le_encode ps
  rw [slices, slicesLoop_eq b post ps pre (b.len+1) _ [] hd (by omega)
    (by rw [Buffer.len]; omega) (.inl (by rw [hpre]; rfl)), nil_append]

def boundary (ps : List Payload) (i : ℕ) : ℕ := headerSize+(encode (ps.take i)).length

theorem boundary_offset {capacity : ℤ} (hb : written capacity ps = some b) :
    b.startOffset = boundary ps 0 ∧ b.len = boundary ps ps.length ∧ (ps ≠ [] →
      ∃ offsets, b.sliceOffsets = some offsets ∧
        ∀ i < ps.length, offsets[i]? = some (boundary ps i : ℤ)) := by
  obtain ⟨b',hb',h,hpad⟩ := written_holds capacity ps
  cases hb.symm.trans hb'
  obtain ⟨pre,post,hd,hpre⟩ := h.stored
  have hoff := h.offset
  have hlen := length_le_encode ps
  refine ⟨by rw [Buffer.startOffset, hpad, boundary]; simp,
    by rw [Buffer.len, hoff, hpad, boundary, take_length],fun hps => ?_⟩
  have hentry : ((b.startOffset:ℕ):ℤ) = entry pre.length ps := by
    rw [entry, if_neg hps, hpre]
    rfl
  refine ⟨starts pre.length ps,?_,fun i hi => ?_⟩
  · rw [Buffer.sliceOffsets, hentry,
      offsetsLoop_eq b post ps pre (b.offset+1) [] hd (by omega) (by omega), nil_append]
  · rw [starts_get _ ps i hi, hpre, hpad, boundary]

structure SortedBetween (less : LessFunc) (ps : List Payload) (i j : ℕ) (b b' : Buffer) : Prop where
  len : b'.len = b.len
  before : b'.data.take (boundary ps i) = b.data.take (boundary ps i)
  after : b'.data.drop (boundary ps j) = b.data.drop (boundary ps j)
  sorted : ∃ qs : List Bytes, slices b' = some ((ps.take i).map Subtype.val++
    (qs++(ps.drop j).map Subtype.val)) ∧ qs.Perm (((ps.take j).drop i).map Subtype.val) ∧
      qs.Pairwise (fun p q => less q p = false)

theorem sortSliceBetween_between (sorter : Sorter) (less : LessFunc)
    (hless : IsStrictWeakOrder Bytes (fun a b => less a b)) (szTmp : ℤ)
    (h : Holds b (encode ps)) (hpad : b.padding = headerSize) (i j : ℕ)
    (hij : i ≤ j) :
    ∃ b', sortSliceBetween sorter less szTmp (boundary ps i) (boundary ps j) b = some b' ∧
      SortedBetween less ps i j b b' := by
  obtain ⟨pad,rest,hd,hpre⟩ := h.stored
  have hsplit : ps = ps.take i++((ps.take j).drop i++ps.drop j) := by
    have h1 : (ps.take j).take i = ps.take i := by rw [take_take, Nat.min_eq_left hij]
    rw [← append_assoc, ← h1, take_append_drop, take_append_drop]
  have htake : ps.take j = ps.take i++(ps.take j).drop i := by
    conv_lhs => rw [← take_append_drop i (ps.take j), take_take, Nat.min_eq_left hij]
  generalize hms : (ps.take j).drop i = ms at hsplit htake
  have hdata : b.data = (pad++encode (ps.take i))++(encode ms++(encode (ps.drop j)++rest)) := by
    rw [hd]
    conv_lhs => rw [hsplit]
    simp only [encode_append, append_assoc]
  have hstart : boundary ps i = (pad++encode (ps.take i)).length := by
    rw [boundary, length_append, hpre, hpad]
  have hstop : boundary ps j = (pad++encode (ps.take i)).length+(encode ms).length := by
    rw [boundary, htake, encode_append, length_append, length_append, hpre, hpad,
      Nat.add_assoc]
  have hoff : (pad++encode (ps.take i)).length+(encode ms).length ≤ b.offset := by
    have := h.offset
    rw [hsplit] at this
    simp only [encode_append, length_append] at this ⊢
    omega
  obtain ⟨qs,hsort,hperm,hsorted⟩ := sortSliceBetween_sorts less sorter hless szTmp b
    (pad++encode (ps.take i)) (encode (ps.drop j)++rest) ms hdata
    (by rw [length_append, hpre, hpad, headerSize]; omega) hoff
  have hsame := encode_perm_length _ _ hperm
  rw [hstart, hstop]
  refine ⟨_,hsort,rfl,?_,?_,qs.map Subtype.val,?_,?_,?_⟩
  · rw [hstart, hdata, take_left' rfl, take_left' rfl]
  · rw [hstop, hdata, ← drop_drop, ← drop_drop, drop_left' rfl,
      drop_left' rfl, drop_left' hsame, drop_left' rfl]
  · have hholds : Holds { b with
        data := pad++encode (ps.take i)++(encode qs++(encode (ps.drop j)++rest)) }
        (encode (ps.take i++(qs++ps.drop j))) := by
      refine ⟨⟨pad,rest,by simp only [encode_append, append_assoc],hpre⟩,?_,?_,h.unlimited⟩
      · rw [h.offset]
        conv_lhs => rw [hsplit]
        simp only [encode_append, length_append, hsame]
      · rw [← h.length, hdata]
        simp only [length_append, hsame]
    rw [slices_eq hholds]
    simp
  · rw [hms]
    exact hperm.map _
  · rw [pairwise_map]
    exact hsorted

/-- Sorting a buffer to which slices were written sorts all slices, and sorting
between two boundaries sorts those between them. -/
theorem sort_slices_in_place (sorter : Sorter) (less : LessFunc)
    (hless : IsStrictWeakOrder Bytes (fun a b => less a b)) (capacity szTmp : ℤ)
    (ps : List Payload) :
    ∃ b, written capacity ps = some b ∧
      (∃ b', sortSlice sorter less szTmp b = some b' ∧ SortedBetween less ps 0 ps.length b b') ∧
      ∀ i j, i ≤ j →
        ∃ b', sortSliceBetween sorter less szTmp (boundary ps i) (boundary ps j) b = some b' ∧
          SortedBetween less ps i j b b' := by
  obtain ⟨b,hb,h,hpad⟩ := written_holds capacity ps
  obtain ⟨hstart,hlen,_⟩ := boundary_offset hb
  have hall := sortSliceBetween_between sorter less hless szTmp h hpad
  refine ⟨b,hb,?_,hall⟩
  rw [sortSlice, hstart, show b.offset = boundary ps ps.length from hlen]
  exact hall 0 ps.length (Nat.zero_le _)

/-- Shorter slices first. -/
theorem three_slices_sorted :
    ∃ b, written 0 [⟨[1,2],by decide⟩,⟨[],by decide⟩,⟨[3],by decide⟩] = some b ∧
      ∃ b', sortSlice byMergeSort (fun p q => decide (p.length < q.length)) 0 b = some b' := by
  have hless : IsStrictWeakOrder Bytes (fun p q => decide (p.length < q.length) = true) :=
    { irrefl := fun p => by simp
      trans := fun p q r h1 h2 => by
        simp only [decide_eq_true_eq] at h1 h2 ⊢
        omega
      incomp_trans := fun p q r h1 h2 => by
        simp only [decide_eq_true_eq] at h1 h2 ⊢
        omega }
  obtain ⟨b,hb,⟨b',hb',_⟩,_⟩ := sort_slices_in_place byMergeSort
    (fun p q => decide (p.length < q.length)) hless 0 0
    [⟨[1,2],by decide⟩,⟨[],by decide⟩,⟨[3],by decide⟩]
  exact ⟨b,hb,b',hb'⟩

end GoCommon.SliceSort
