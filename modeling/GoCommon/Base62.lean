import GoCommon.PositionalNumerals

/-!
# The base62 encoding

Bytes are the digits of a number in base 256, letters the digits in base 62. Leading
zero bytes are kept as leading zero letters. Strings are their bytes.
-/

set_option autoImplicit false

namespace GoCommon.Base62
open List PositionalNumerals

def alphabet : List UInt8 :=
  ['0','1','2','3','4','5','6','7','8','9',
   'A','B','C','D','E','F','G','H','I','J','K','L','M','N','O','P','Q','R','S','T','U','V','W','X','Y','Z',
   'a','b','c','d','e','f','g','h','i','j','k','l','m','n','o','p','q','r','s','t','u','v','w','x','y','z'].map
    (fun c => UInt8.ofNat c.toNat)

def base : ℕ := alphabet.length

def letter (d : ℕ) : UInt8 := alphabet.getD d 0

def decodeMap : UInt8 → ℤ :=
  (List.range alphabet.length).foldl (fun m i => Function.update m (letter i) (i : ℤ)) (fun _ => -1)

def setBytes (bs : List UInt8) : ℕ := bs.foldl (fun n b => n*256+b.toNat) 0

def bytes (n : ℕ) : List UInt8 := (Nat.digits 256 n).reverse.map UInt8.ofNat

def letterLoop (n : ℕ) : List UInt8 :=
  if _h : 0 < n then letter (n%base)::letterLoop (n/base) else []
termination_by n
decreasing_by exact Nat.div_lt_self _h (by decide)

def encode (b : List UInt8) : List UInt8 :=
  let zeros := (b.takeWhile (· = 0)).length
  let n := setBytes (b.drop zeros)
  (letterLoop n++List.replicate zeros (letter 0)).reverse

inductive DecodeError where
  | invalidCharacter (c : UInt8) (position : ℕ)
deriving DecidableEq, Repr

def digitLoop : List UInt8 → ℕ → ℕ → Except DecodeError ℕ
  | [], _, n => .ok n
  | c::cs, i, n => if 128 ≤ c.toNat ∨ decodeMap c < 0 then .error (.invalidCharacter c i)
      else digitLoop cs (i+1) (n*base+(decodeMap c).toNat)

def decode (s : List UInt8) : Except DecodeError (List UInt8) := do
  let zeros := (s.takeWhile (· = letter 0)).length
  let n ← digitLoop (s.drop zeros) zeros 0
  .ok (List.replicate zeros 0++bytes n)

/-! ## Letters and digits -/

def index (c : UInt8) : ℕ := alphabet.idxOf c

theorem alphabet_length : alphabet.length = 62 := by decide

theorem index_letter : ∀ d < 62, index (letter d) = d := by decide +kernel

theorem letter_index : ∀ c ∈ alphabet, letter (index c) = c := by decide +kernel

theorem index_lt : ∀ c ∈ alphabet, index c < 62 := by decide +kernel

theorem letter_mem : ∀ d < 62, letter d ∈ alphabet := by decide +kernel

theorem alphabet_ascii : ∀ c ∈ alphabet, c.toNat < 128 := by decide +kernel

theorem decodeMap_ofNat : ∀ n < 256, decodeMap (UInt8.ofNat n) =
    if UInt8.ofNat n ∈ alphabet then (index (UInt8.ofNat n) : ℤ) else -1 := by decide +kernel

theorem decodeMap_spec {c : UInt8} : decodeMap c = if c ∈ alphabet then (index c : ℤ) else -1 := by
  have h := decodeMap_ofNat c.toNat c.toNat_lt
  rwa [UInt8.ofNat_toNat] at h

theorem decodeMap_invalid (c : UInt8) : (128 ≤ c.toNat ∨ decodeMap c < 0) ↔ c ∉ alphabet := by
  rw [decodeMap_spec]
  split
  · rename_i hc
    have := alphabet_ascii c hc
    exact iff_of_false (by omega) (fun hno => hno hc)
  · rename_i hc
    exact iff_of_true (Or.inr (by decide)) hc

theorem letter_zero {c : UInt8} (hc : c ∈ alphabet) : c = letter 0 ↔ index c = 0 := by
  constructor
  · rintro rfl
    exact index_letter 0 (by decide)
  · intro h
    rw [← h, letter_index c hc]

/-! ## Encoding and decoding recode the digits -/

theorem letterLoop_eq {n : ℕ} : letterLoop n = (Nat.digits 62 n).map letter := by
  induction n using Nat.strong_induction_on with
  | _ n ih =>
    rw [letterLoop]
    split
    · rename_i hn
      rw [Nat.digits_def' (by decide) hn, map_cons, show base = 62 from alphabet_length,
        ih (n/62) (Nat.div_lt_self hn (by decide))]
    · rw [show n = 0 by omega, Nat.digits_zero, map_nil]

theorem setBytes_eq {bs : List UInt8} : setBytes bs = value 256 (bs.map UInt8.toNat) := by
  rw [setBytes, value, foldl_map]

theorem leading_eq {f : UInt8 → ℕ} {z : UInt8} {s : List UInt8} (hz : ∀ c ∈ s, c = z ↔ f c = 0) :
    (s.takeWhile (· = z)).length = zeros (s.map f) ∧
      (s.drop (s.takeWhile (· = z)).length).map f = (s.map f).dropWhile (· = 0) := by
  induction s with
  | nil => exact ⟨rfl,rfl⟩
  | cons c s ih =>
    have ih := ih (fun d hd => hz d (mem_cons_of_mem _ hd))
    have hc := hz c (mem_cons_self ..)
    by_cases h : c = z
    · have hf := hc.mp h
      rw [zeros, map_cons, takeWhile_cons_of_pos (by simpa using h),
        takeWhile_cons_of_pos (by simpa using hf),
        dropWhile_cons_of_pos (by simpa using hf)]
      exact ⟨congrArg (·+1) ih.1,ih.2⟩
    have hf : f c ≠ 0 := fun hf => h (hc.mpr hf)
    rw [zeros, map_cons, takeWhile_cons_of_neg (by simpa using h),
      takeWhile_cons_of_neg (by simpa using hf),
      dropWhile_cons_of_neg (by simpa using hf)]
    exact ⟨rfl,rfl⟩

theorem encode_eq {b : List UInt8} : encode b = (recode 256 62 (b.map UInt8.toNat)).map letter := by
  obtain ⟨hlen,hdrop⟩ := @leading_eq UInt8.toNat 0 b (fun c _ => UInt8.toNat_inj.symm)
  rw [encode, setBytes_eq, hdrop, letterLoop_eq, hlen, recode, numerals, map_append,
    reverse_append, reverse_replicate, map_replicate, map_reverse]

theorem digitLoop_ok {cs : List UInt8} (hcs : ∀ c ∈ cs, c ∈ alphabet) (i n : ℕ) :
    digitLoop cs i n = .ok ((cs.map index).foldl (fun n d => n*62+d) n) := by
  induction cs generalizing i n with
  | nil => rfl
  | cons c cs ih =>
    have hc := hcs c (mem_cons_self ..)
    have hmap : decodeMap c = index c := by rw [decodeMap_spec, if_pos hc]
    rw [digitLoop, if_neg (fun hno => (decodeMap_invalid c).mp hno hc),
      ih (fun d hd => hcs d (mem_cons_of_mem _ hd)), hmap, Int.toNat_natCast, map_cons,
      foldl_cons, show base = 62 from alphabet_length]

theorem digitLoop_error (cs : List UInt8) (hcs : ∃ c ∈ cs, c ∉ alphabet) (i n : ℕ) :
    ∃ c k, cs[k]? = some c ∧ c ∉ alphabet ∧ digitLoop cs i n = .error (.invalidCharacter c (i+k)) := by
  induction cs generalizing i n with
  | nil =>
    obtain ⟨c,hc,_⟩ := hcs
    cases hc
  | cons c cs ih =>
    rw [digitLoop]
    by_cases hc : c ∈ alphabet
    · rw [if_neg (fun hno => (decodeMap_invalid c).mp hno hc)]
      obtain ⟨d,hd,hno⟩ := hcs
      have hmem : d ∈ cs := (mem_cons.mp hd).resolve_left (fun heq => hno (heq ▸ hc))
      obtain ⟨e,k,he,hout,herr⟩ := ih ⟨d,hmem,hno⟩ (i+1) (n*base+(decodeMap c).toNat)
      exact ⟨e,k+1,he,hout,by rw [herr, Nat.add_right_comm]; rfl⟩
    · rw [if_pos ((decodeMap_invalid c).mpr hc)]
      exact ⟨c,0,rfl,hc,rfl⟩

theorem decode_eq (s : List UInt8) (hs : ∀ c ∈ s, c ∈ alphabet) :
    decode s = .ok ((recode 62 256 (s.map index)).map UInt8.ofNat) := by
  obtain ⟨hlen,hdrop⟩ := @leading_eq index (letter 0) s (fun c hc => letter_zero (hs c hc))
  rw [decode, digitLoop_ok (fun c hc => hs c (mem_of_mem_drop hc)), hdrop, hlen, recode,
    map_append, map_replicate]
  rfl

/-! ## The bijection -/

theorem decode_encode (b : List UInt8) : decode (encode b) = .ok b := by
  have hbytes : ∀ d ∈ b.map UInt8.toNat, d < 256 := by
    intro d hd
    obtain ⟨c,_,rfl⟩ := mem_map.mp hd
    exact c.toNat_lt
  have hlt : ∀ d ∈ recode 256 62 (b.map UInt8.toNat), d < 62 := recode_lt (by decide)
  have hindex : (encode b).map index = recode 256 62 (b.map UInt8.toNat) := by
    rw [encode_eq, map_map]
    exact (map_congr_left (fun d hd => index_letter d (hlt d hd))).trans (map_id _)
  have hmem : ∀ c ∈ encode b, c ∈ alphabet := by
    intro c hc
    rw [encode_eq] at hc
    obtain ⟨d,hd,rfl⟩ := mem_map.mp hc
    exact letter_mem d (hlt d hd)
  rw [decode_eq _ hmem, hindex, recode_recode (by decide) hbytes, map_map]
  exact congrArg Except.ok
    ((map_congr_left (fun c _ => UInt8.ofNat_toNat)).trans (map_id b))

theorem encode_decode (s : List UInt8) (hs : ∀ c ∈ s, c ∈ alphabet) :
    ∃ b, decode s = .ok b ∧ encode b = s := by
  refine ⟨_,decode_eq s hs,?_⟩
  have hdigits : ∀ d ∈ s.map index, d < 62 := by
    intro d hd
    obtain ⟨c,hc,rfl⟩ := mem_map.mp hd
    exact index_lt c (hs c hc)
  have hbytes : ((recode 62 256 (s.map index)).map UInt8.ofNat).map UInt8.toNat =
      recode 62 256 (s.map index) := by
    rw [map_map]
    refine (map_congr_left (fun d hd => ?_)).trans (map_id _)
    exact UInt8.toNat_ofNat_of_lt (recode_lt (by decide) d hd)
  rw [encode_eq, hbytes, recode_recode (by decide) hdigits, map_map]
  exact (map_congr_left (fun c hc => letter_index c (hs c hc))).trans (map_id s)

theorem decode_error (s : List UInt8) (hs : ∃ c ∈ s, c ∉ alphabet) :
    ∃ c k, s[k]? = some c ∧ c ∉ alphabet ∧ decode s = .error (.invalidCharacter c k) := by
  have hzero : letter 0 ∈ alphabet := letter_mem 0 (by decide)
  have hprefix := prefix_iff_eq_take.mp (@List.takeWhile_prefix _ s (· = letter 0))
  generalize hz : (s.takeWhile (· = letter 0)).length = z at hprefix
  have hrest : ∃ c ∈ s.drop z, c ∉ alphabet := by
    obtain ⟨c,hc,hno⟩ := hs
    rw [← take_append_drop z s] at hc
    refine ⟨c,(mem_append.mp hc).resolve_left (fun hmem => hno ?_),hno⟩
    rw [← hprefix] at hmem
    have heq : c = letter 0 := by simpa using mem_takeWhile_imp hmem
    rw [heq]
    exact hzero
  obtain ⟨c,k,hk,hno,herr⟩ := digitLoop_error _ hrest z 0
  refine ⟨c,z+k,by rw [← List.getElem?_drop]; exact hk,hno,?_⟩
  rw [decode, hz, herr]
  rfl

/-- Encoding is a bijection between byte strings and strings over the alphabet, and other
strings are refused. -/
theorem base62_bijection : (∀ b, decode (encode b) = .ok b) ∧
    (∀ s, (∀ c ∈ s, c ∈ alphabet) → ∃ b, decode s = .ok b ∧ encode b = s) ∧
      ∀ s, (∃ c ∈ s, c ∉ alphabet) →
        ∃ c k, s[k]? = some c ∧ c ∉ alphabet ∧ decode s = .error (.invalidCharacter c k) :=
  ⟨decode_encode,encode_decode,decode_error⟩

/-! ## Order -/

theorem letter_lt : ∀ d < 62, ∀ e < 62, letter d < letter e ↔ d < e := by decide +kernel

theorem letter_inj {d e : ℕ} (hd : d < 62) (he : e < 62) : letter d = letter e ↔ d = e := by
  constructor
  · intro h
    rw [← index_letter d hd, h, index_letter e he]
  · rintro rfl
    rfl

theorem bytes_lt_iff (a b : List UInt8) : a.map UInt8.toNat < b.map UInt8.toNat ↔ a < b :=
  lists_lt_map_iff a b (fun _ _ _ _ => UInt8.lt_iff_toNat_lt.symm) (fun _ _ _ _ => UInt8.toNat_inj)

theorem encode_lt_iff (a b : List UInt8) : encode a < encode b ↔
    recode 256 62 (a.map UInt8.toNat) < recode 256 62 (b.map UInt8.toNat) := by
  have hlt : ∀ s : List UInt8, ∀ d ∈ recode 256 62 (s.map UInt8.toNat), d < 62 :=
    fun s => recode_lt (by decide)
  rw [encode_eq, encode_eq]
  apply lists_lt_map_iff
  · exact fun x hx y hy => letter_lt x (hlt a x hx) y (hlt b y hy)
  · exact fun x hx y hy => letter_inj (hlt a x hx) (hlt b y hy)

/-- Encodings of one length of byte strings of one length sort as the byte strings. -/
theorem encode_keeps_order (a b : List UInt8) (hlen : a.length = b.length)
    (henc : (encode a).length = (encode b).length) : a < b ↔ encode a < encode b := by
  have hbytes : ∀ s : List UInt8, ∀ d ∈ s.map UInt8.toNat, d < 256 := by
    intro s d hd
    obtain ⟨c,_,rfl⟩ := mem_map.mp hd
    exact c.toNat_lt
  rw [encode_eq, encode_eq, length_map, length_map] at henc
  calc a < b ↔ a.map UInt8.toNat < b.map UInt8.toNat := (bytes_lt_iff a b).symm
    _ ↔ value 256 (a.map UInt8.toNat) < value 256 (b.map UInt8.toNat) :=
      lt_iff_value_lt (by decide) _ _ (by rw [length_map, length_map, hlen])
        (hbytes a) (hbytes b)
    _ ↔ recode 256 62 (a.map UInt8.toNat) < recode 256 62 (b.map UInt8.toNat) := by
      rw [lt_iff_value_lt (by decide) _ _ henc (recode_lt (by decide)) (recode_lt (by decide)),
        value_recode, value_recode]
    _ ↔ encode a < encode b := (encode_lt_iff a b).symm

/-- A leading zero byte against none. -/
theorem zero_byte_sorts_first : encode [0,1] = [48,49] ∧ encode [1,0] = [52,56] ∧
    (([0,1] : List UInt8) < [1,0] ↔ encode [0,1] < encode [1,0]) := by
  have hone : encode [0,1] = [48,49] := by
    simp [encode, setBytes, letterLoop, base, letter, alphabet]
  have htwo : encode [1,0] = [52,56] := by
    simp [encode, setBytes, letterLoop, base, letter, alphabet]
  exact ⟨hone,htwo,encode_keeps_order [0,1] [1,0] rfl (by rw [hone, htwo]; rfl)⟩

end GoCommon.Base62
