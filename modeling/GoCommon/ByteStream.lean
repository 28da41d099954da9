import GoCommon.ByteWords

/-!
# Streams of self-delimiting frames

A reader looks at the front of a buffer and either stops, takes one frame of a
stated length, or fails. The laws say that a frame depends on its own bytes
only. They determine what a scan of a concatenation, of a truncated
concatenation and of an arbitrary buffer returns.
-/

set_option autoImplicit false

namespace GoCommon.ByteStream
open List ByteWords

variable {α ε : Type}

abbrev Reader (ε α : Type) := Bytes → Except ε (Option (α × ℕ))

def scan (next : Reader ε α) : ℕ → Bytes → Except ε (List α × ℕ)
  | 0, _ => .ok ([],0)
  | n+1, buf => match next buf with
    | .error e => .error e
    | .ok none => .ok ([],0)
    | .ok (some (a,k)) => match scan next n (buf.drop k) with
      | .error e => .error e
      | .ok (as,c) => .ok (a::as,k+c)

def scanAll (next : Reader ε α) (buf : Bytes) : Except ε (List α × ℕ) :=
  scan next buf.length buf

structure Framing (next : Reader ε α) : Prop where
  empty : next [] = .ok none
  bounded : ∀ buf a k, next buf = .ok (some (a,k)) → 0 < k ∧ k ≤ buf.length
  own : ∀ buf a k, next buf = .ok (some (a,k)) → next (buf.take k) = .ok (some (a,k))
  extend : ∀ buf rest a k, next buf = .ok (some (a,k)) → next (buf++rest) = .ok (some (a,k))
  fails : ∀ buf rest e, next buf = .error e → next (buf++rest) = .error e

def Piece (next : Reader ε α) (p : Bytes × α) : Prop := next p.1 = .ok (some (p.2,p.1.length))

def flat (ps : List (Bytes × α)) : Bytes := (ps.map Prod.fst).flatten

@[simp] theorem flat_nil : flat ([] : List (Bytes × α)) = [] := rfl

variable {p : Bytes × α}

@[simp] theorem flat_cons {ps : List (Bytes × α)} :
    flat (p::ps) = p.1++flat ps := by simp [flat]

@[simp] theorem flat_append {ps qs : List (Bytes × α)} : flat (ps++qs) = flat ps++flat qs := by
  simp [flat]

section Scanning
variable {next : Reader ε α} (law : Framing next)
include law

theorem scan_empty (n : ℕ) : scan next n [] = .ok ([],0) := by
  cases n with
  | zero => rfl
  | succ n => simp [scan, law.empty]

theorem scan_fuel (n m : ℕ) (buf : Bytes) (hn : buf.length ≤ n) (hm : buf.length ≤ m) :
    scan next n buf = scan next m buf := by
  induction n generalizing m buf with
  | zero =>
    have hb : buf = [] := length_eq_zero_iff.mp (by omega)
    rw [hb, scan_empty law, scan_empty law]
  | succ n ih =>
    cases m with
    | zero =>
      have hb : buf = [] := length_eq_zero_iff.mp (by omega)
      rw [hb, scan_empty law, scan_empty law]
    | succ m =>
      unfold scan
      rcases hx : next buf with e | _ | ⟨a,k⟩
      · rfl
      · rfl
      · have hk := law.bounded buf a k hx
        have hd : (buf.drop k).length = buf.length-k := length_drop
        simp only [ih m (buf.drop k) (by omega) (by omega)]

theorem scanAll_eq (buf : Bytes) : scanAll next buf =
    match next buf with
    | .error e => .error e
    | .ok none => .ok ([],0)
    | .ok (some (a,k)) => match scanAll next (buf.drop k) with
      | .error e => .error e
      | .ok (as,c) => .ok (a::as,k+c) := by
  have h := scan_fuel law buf.length (buf.length+1) buf (le_refl _) (by omega)
  rw [scanAll, h, scan]
  rcases hx : next buf with e | _ | ⟨a,k⟩
  · rfl
  · rfl
  · have hd : (buf.drop k).length = buf.length-k := length_drop
    simp only [scanAll, scan_fuel law buf.length (buf.drop k).length (buf.drop k)
      (by omega) (le_refl _)]

theorem scanAll_stop (buf : Bytes) (h : next buf = .ok none) : scanAll next buf = .ok ([],0) := by
  rw [scanAll_eq law, h]

theorem piece_pos (hp : Piece next p) : 0 < p.1.length :=
  (law.bounded _ _ _ hp).1

theorem piece_extend (rest : Bytes) (hp : Piece next p) :
    next (p.1++rest) = .ok (some (p.2,p.1.length)) := law.extend _ _ _ _ hp

theorem piece_cut (m : ℕ) (hp : Piece next p) (hm : m < p.1.length) :
    next (p.1.take m) = .ok none := by
  rcases hx : next (p.1.take m) with e | _ | ⟨a,k⟩
  · have he := law.fails _ (p.1.drop m) e hx
    rw [take_append_drop, hp] at he
    cases he
  · rfl
  have hk := (law.bounded _ _ _ hx).2
  have he := law.extend _ (p.1.drop m) a k hx
  rw [take_append_drop, hp] at he
  simp only [Except.ok.injEq, Option.some.injEq, Prod.mk.injEq] at he
  rw [length_take] at hk
  omega

theorem scanAll_pieces (ps : List (Bytes × α)) (rest : Bytes) (hp : ∀ p ∈ ps, Piece next p) :
    scanAll next (flat ps++rest) = match scanAll next rest with
      | .error e => .error e
      | .ok (as,c) => .ok (ps.map Prod.snd++as,(flat ps).length+c) := by
  induction ps with
  | nil => rcases hr : scanAll next rest with e | r <;> simp [hr]
  | cons p ps ih =>
    have h := piece_extend law (flat ps++rest) (hp p (by simp))
    rw [flat_cons, append_assoc, scanAll_eq law, h]
    simp only [drop_left', ih (fun q hq => hp q (by simp [hq]))]
    cases scanAll next rest with
    | error e => rfl
    | ok r => simp [add_assoc]

/-- The scan of a buffer splits it into whole frames and a rest at which the
reader stops. -/
theorem scanAll_split (buf : Bytes) (as : List α) (c : ℕ) (h : scanAll next buf = .ok (as,c)) :
    ∃ ps : List (Bytes × α), (∀ p ∈ ps, Piece next p) ∧ ps.map Prod.snd = as ∧
      (flat ps).length = c ∧ buf = flat ps++buf.drop c ∧ next (buf.drop c) = .ok none := by
  induction hn : buf.length using Nat.strong_induction_on generalizing buf as c with
  | _ n ih =>
    rw [scanAll_eq law] at h
    rcases hx : next buf with e | _ | ⟨a,k⟩
    · simp [hx] at h
    · simp only [hx, Except.ok.injEq, Prod.mk.injEq] at h
      obtain ⟨rfl,rfl⟩ := h
      exact ⟨[],by simp,rfl,rfl,by simp,by simpa using hx⟩
    have hk := law.bounded buf a k hx
    have hd : (buf.drop k).length = buf.length-k := length_drop
    simp only [hx] at h
    rcases ht : scanAll next (buf.drop k) with e | ⟨bs,d⟩
    · simp [ht] at h
    simp only [ht, Except.ok.injEq, Prod.mk.injEq] at h
    obtain ⟨rfl,rfl⟩ := h
    obtain ⟨ps,hp,hm,hl,hb,hs⟩ := ih _ (by omega) (buf.drop k) bs d ht rfl
    have hlen : (buf.take k).length = k := by simp [hk.2]
    refine ⟨(buf.take k,a)::ps,?_,by simp [hm],by simp [hl,hk.2],?_,?_⟩
    · intro p hpm
      rcases mem_cons.mp hpm with rfl | hpm
      · rw [Piece, hlen]
        exact law.own buf a k hx
      · exact hp p hpm
    · rw [flat_cons, append_assoc, ← drop_drop, ← hb, take_append_drop]
    · rwa [← drop_drop]

/-- No concatenation of frames at the front of the buffer is longer than the
scanned part. -/
theorem scanAll_longest {buf rest : Bytes} {qs : List (Bytes × α)} {as : List α} {c : ℕ}
    (h : scanAll next buf = .ok (as,c)) (hq : ∀ q ∈ qs, Piece next q)
    (hb : buf = flat qs++rest) : (flat qs).length ≤ c := by
  rw [hb, scanAll_pieces law qs rest hq] at h
  rcases hr : scanAll next rest with e | ⟨bs,d⟩
  · simp [hr] at h
  · simp only [hr, Except.ok.injEq, Prod.mk.injEq] at h
    omega

theorem scanAll_le {buf : Bytes} {as : List α} {c : ℕ} (h : scanAll next buf = .ok (as,c)) :
    c ≤ buf.length := by
  obtain ⟨ps,_,_,hl,hb,_⟩ := scanAll_split law buf as c h
  have hlen := congrArg List.length hb
  rw [length_append] at hlen
  omega

theorem scanAll_fail (buf : Bytes) (e : ε) (h : scanAll next buf = .error e) :
    ∃ (ps : List (Bytes × α)) (rest : Bytes), (∀ p ∈ ps, Piece next p) ∧ buf = flat ps++rest ∧
      next rest = .error e := by
  induction hn : buf.length using Nat.strong_induction_on generalizing buf with
  | _ n ih =>
    rw [scanAll_eq law] at h
    rcases hx : next buf with d | _ | ⟨a,k⟩
    · simp only [hx, Except.error.injEq] at h
      exact ⟨[],buf,by simp,rfl,by rw [hx, h]⟩
    · simp [hx] at h
    have hk := law.bounded buf a k hx
    have hd : (buf.drop k).length = buf.length-k := length_drop
    simp only [hx] at h
    rcases ht : scanAll next (buf.drop k) with d | r
    · simp only [ht, Except.error.injEq] at h
      obtain ⟨ps,rest,hp,hb,hr⟩ := ih _ (by omega) (buf.drop k) (by rw [ht, h]) rfl
      refine ⟨(buf.take k,a)::ps,rest,?_,?_,hr⟩
      · intro p hpm
        rcases mem_cons.mp hpm with rfl | hpm
        · rw [Piece, length_take, Nat.min_eq_left hk.2]
          exact law.own buf a k hx
        · exact hp p hpm
      · rw [flat_cons, append_assoc, ← hb, take_append_drop]
    · simp [ht] at h

end Scanning

def fitting : ℕ → List (Bytes × α) → List (Bytes × α)
  | _, [] => []
  | m, p::ps => if p.1.length ≤ m then p::fitting (m-p.1.length) ps else []

variable (w : ℕ) {next : Reader ε α}

theorem scanAll_take (law : Framing next) (ps : List (Bytes × α)) (m : ℕ)
    (hp : ∀ p ∈ ps, Piece next p) : scanAll next ((flat ps).take m) =
      .ok ((fitting m ps).map Prod.snd,(flat (fitting m ps)).length) := by
  induction ps generalizing m with
  | nil => simp [fitting, scanAll_stop law [] law.empty]
  | cons p ps ih =>
    have hh := hp p (by simp)
    have ht : ∀ q ∈ ps, Piece next q := fun q hq => hp q (by simp [hq])
    unfold fitting
    split
    · rename_i hle
      have he : (flat (p::ps)).take m = flat [p]++(flat ps).take (m-p.1.length) := by
        rw [flat_cons, take_append, take_of_length_le hle]
        simp
      rw [he, scanAll_pieces law [p] _ (by simpa using hh), ih _ ht]
      simp
    have he : (flat (p::ps)).take m = p.1.take m := by
      rw [flat_cons, take_append_of_le_length (by omega)]
    rw [he, scanAll_stop law _ (piece_cut law m hh (by omega))]
    simp

def within (w : ℕ) (next : Reader ε α) : Reader ε α := fun buf => next (buf.take w)

theorem within_framing (law : Framing next) :
    Framing (within w next) where
  empty := by simp [within, law.empty]
  bounded := by
    intro buf a k h
    have hk := law.bounded _ _ _ h
    rw [length_take] at hk
    omega
  own := by
    intro buf a k h
    have hk := (law.bounded _ _ _ h).2
    rw [length_take] at hk
    have ho := law.own _ _ _ h
    rw [take_take, Nat.min_eq_left (by omega)] at ho
    rw [within, take_take, Nat.min_eq_right (by omega), ho]
  extend := by
    intro buf rest a k h
    rw [within, take_append]
    exact law.extend _ _ _ _ h
  fails := by
    intro buf rest e h
    rw [within, take_append]
    exact law.fails _ _ _ h

theorem within_short (next : Reader ε α) (buf : Bytes) (h : buf.length ≤ w) :
    within w next buf = next buf := by
  rw [within, take_of_length_le h]

theorem within_piece (law : Framing next)
    (hp : Piece (within w next) p) : Piece next p ∧ p.1.length ≤ w := by
  have hk := (law.bounded _ _ _ hp).2
  rw [length_take] at hk
  have hle : p.1.length ≤ w := by omega
  exact ⟨by simpa [Piece, within_short w next p.1 hle] using hp,hle⟩

theorem piece_within (hp : Piece next p) (hw : p.1.length ≤ w) : Piece (within w next) p := by
  rw [Piece, within_short w next p.1 hw]
  exact hp

/-- A scan through a window is a scan of the first window followed by a scan
through the window from where the first one stopped. -/
theorem scanAll_window (law : Framing next) (buf : Bytes) :
    scanAll (within w next) buf = match scanAll next (buf.take w) with
      | .error e => .error e
      | .ok (as,c) => match scanAll (within w next) (buf.drop c) with
        | .error e => .error e
        | .ok (bs,d) => .ok (as++bs,c+d) := by
  have lw := within_framing w law
  have hpiece : ∀ (ps : List (Bytes × α)) (rest : Bytes), buf.take w = flat ps++rest →
      (∀ p ∈ ps, Piece next p) → ∀ p ∈ ps, Piece (within w next) p := by
    intro ps rest hb hp p hm
    refine piece_within w (hp p hm) ?_
    obtain ⟨xs,ys,rfl⟩ := append_of_mem hm
    have hl := congrArg List.length hb
    simp only [flat_append, flat_cons, length_append, length_take] at hl
    omega
  rcases hs : scanAll next (buf.take w) with e | ⟨as,c⟩
  · obtain ⟨ps,rest,hp,hb,hr⟩ := scanAll_fail law _ e hs
    have hbuf : buf = flat ps++(rest++buf.drop w) := by
      rw [← append_assoc, ← hb, take_append_drop]
    have hl := congrArg List.length hb
    rw [length_append, length_take] at hl
    have hw : within w next (rest++buf.drop w) = .error e := by
      rw [within, take_append, take_of_length_le (by omega)]
      exact law.fails _ _ _ hr
    rw [hbuf, scanAll_pieces lw ps _ (hpiece ps rest hb hp), scanAll_eq lw, hw]
  obtain ⟨ps,hp,hm,hl,hb,_⟩ := scanAll_split law _ as c hs
  have hc := scanAll_le law hs
  rw [length_take] at hc
  have hbuf : buf = flat ps++buf.drop c := by
    have ht : buf.take c = flat ps := by
      have := congrArg (List.take c) hb
      rwa [take_take, Nat.min_eq_left (by omega), take_left' hl] at this
    rw [← ht, take_append_drop]
  have h := scanAll_pieces lw ps (buf.drop c) (hpiece ps _ hb hp)
  rw [← hbuf, hm, hl] at h
  exact h

theorem scanAll_within_short (law : Framing next) {buf : Bytes}
    (h : buf.length ≤ w) : scanAll (within w next) buf = scanAll next buf := by
  rw [scanAll_window w law, take_of_length_le h]
  rcases hs : scanAll next buf with e | ⟨as,c⟩
  · rfl
  obtain ⟨_,_,_,_,_,hn⟩ := scanAll_split law buf as c hs
  have hd : (buf.drop c).length ≤ w := by rw [length_drop]; omega
  have hz := scanAll_stop (within_framing w law) (buf.drop c) (by rw [within_short w next _ hd, hn])
  simp only [hz, append_nil, add_zero]

end GoCommon.ByteStream
