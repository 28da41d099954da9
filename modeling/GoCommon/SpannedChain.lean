import Mathlib.Tactic

/-!
# Chains with spans

A chain visits some of the nodes of a list, in order. Every node it visits links to
the next one and knows how many nodes of the list lie on the way. The nodes that
are visited are called tall. Splitting a chain at a place of the list gives the last
tall node before the place and the nodes that have been passed since.
-/

set_option autoImplicit false

namespace GoCommon.SpannedChain
open List Function

variable {A : Type}

structure Links (A : Type) where
  next : A → Option A
  span : A → ℤ

def Links.set [DecidableEq A] (L : Links A) (a : A) (next : Option A) (span : ℤ) : Links A :=
  ⟨update L.next a next,update L.span a span⟩

theorem Links.set_self [DecidableEq A] (L : Links A) (a : A) (next : Option A) (span : ℤ) :
    (L.set a next span).next a = next ∧ (L.set a next span).span a = span :=
  ⟨update_self ..,update_self ..⟩

theorem Links.set_ne [DecidableEq A] {L : Links A} {a b : A} {next : Option A} {span : ℤ} (h : b ≠ a) :
    (L.set a next span).next b = L.next b ∧ (L.set a next span).span b = L.span b :=
  ⟨update_of_ne h ..,update_of_ne h ..⟩

variable (L : Links A) (tall : A → Bool)

def Chain : A → ℕ → List A → Prop
  | a, _, [] => L.next a = none
  | a, g, x::xs => if tall x then L.next a = some x ∧ L.span a = g+1 ∧ Chain x 0 xs
      else Chain a (g+1) xs

def Part : A → ℕ → List A → Prop
  | _, _, [] => True
  | a, g, x::xs => if tall x then L.next a = some x ∧ L.span a = g+1 ∧ Part x 0 xs
      else Part a (g+1) xs

def stop : A → List A → List A → A × List A
  | a, passed, [] => (a,passed)
  | a, passed, x::xs => if tall x then stop x [] xs else stop a (passed++[x]) xs

variable {L tall}

theorem stop_append (a : A) (passed xs ys : List A) :
    stop tall a passed (xs++ys) = stop tall (stop tall a passed xs).1 (stop tall a passed xs).2 ys := by
  induction xs generalizing a passed with
  | nil => rfl
  | cons x xs ih =>
    rw [cons_append, stop, stop]
    split
    · exact ih x []
    · exact ih a (passed++[x])

theorem stop_mem (a : A) (passed xs : List A) :
    (stop tall a passed xs).1 = a ∨ (stop tall a passed xs).1 ∈ xs := by
  induction xs generalizing a passed with
  | nil => exact Or.inl rfl
  | cons x xs ih =>
    rw [stop]
    split
    · rcases ih x [] with h | h
      · exact Or.inr (by rw [h]; exact mem_cons_self ..)
      · exact Or.inr (mem_cons_of_mem _ h)
    · exact (ih a (passed++[x])).imp id (mem_cons_of_mem _)

variable {xs : List A} {a : A} {g : ℕ} {tall' : A → Bool}

theorem stop_ne {passed xs ys : List A} (hnodup : (a::(xs++ys)).Nodup) {y : A} (hy : y ∈ ys) :
    y ≠ (stop tall a passed xs).1 := by
  rw [← cons_append, nodup_append] at hnodup
  rcases @stop_mem _ tall a passed xs with h | h
  · rw [h]
    exact (hnodup.2.2 a (mem_cons_self ..) y hy).symm
  · exact (hnodup.2.2 _ (mem_cons_of_mem _ h) y hy).symm

theorem stop_start {passed xs : List A} (ha : a ∉ xs) :
    (stop tall a passed xs).1 = a ↔ ∀ x ∈ xs, tall x = false := by
  induction xs generalizing passed with
  | nil => exact ⟨fun _ => nofun,fun _ => rfl⟩
  | cons x xs ih =>
    obtain ⟨hx,hxs⟩ := ne_and_not_mem_of_not_mem_cons ha
    rw [stop, forall_mem_cons]
    cases htall : tall x with
    | true =>
      refine ⟨fun hstop => ?_,fun hall => nomatch hall.1⟩
      rcases @stop_mem _ tall x [] xs with h | h
      · exact absurd (hstop.symm.trans h) hx
      · exact absurd (hstop ▸ h) hxs
    | false => exact (ih hxs).trans (and_iff_right rfl).symm

theorem stop_last (a : A) (passed xs : List A) (h : (stop tall a passed xs).2 = []) :
    (stop tall a passed xs).1 = xs.getLast?.getD a := by
  induction xs generalizing a passed with
  | nil => rfl
  | cons x xs ih =>
    rw [stop] at h ⊢
    split at h
    · rename_i hx
      rw [if_pos hx, ih x [] h, List.getLast?_cons]
      rfl
    rename_i hx
    rw [if_neg hx, ih a (passed++[x]) h]
    cases xs with
    | nil =>
      rw [stop] at h
      exact absurd h (by simp)
    | cons y ys => simp [List.getLast?_cons]

theorem stop_suffix (a : A) (passed xs : List A) :
    ∃ front, passed++xs = front++(stop tall a passed xs).2 := by
  induction xs generalizing a passed with
  | nil => exact ⟨[],by rw [append_nil]; rfl⟩
  | cons x xs ih =>
    rw [stop]
    split
    · obtain ⟨front,hfront⟩ := ih x []
      refine ⟨passed++x::front,?_⟩
      rw [append_assoc, cons_append, ← hfront]
      rfl
    · obtain ⟨front,hfront⟩ := ih a (passed++[x])
      exact ⟨front,by rw [← hfront]; simp⟩

theorem stop_of_tall (a : A) (xs : List A) (h : ∀ x ∈ xs, tall x = true) :
    stop tall a [] xs = (xs.getLast?.getD a,[]) := by
  induction xs generalizing a with
  | nil => rfl
  | cons x xs ih =>
    rw [stop, if_pos (h x (mem_cons_self ..)), ih x (fun y hy => h y (mem_cons_of_mem _ hy)),
      List.getLast?_cons]
    rfl

theorem stop_of_short (a : A) (passed xs : List A) (h : ∀ x ∈ xs, tall x = false) :
    stop tall a passed xs = (a,passed++xs) := by
  induction xs generalizing passed with
  | nil => rw [stop, append_nil]
  | cons x xs ih =>
    rw [stop, h x (mem_cons_self ..), ih (passed++[x]) (fun y hy => h y (mem_cons_of_mem _ hy)), append_assoc]
    rfl

theorem stop_congr (a : A) (passed xs : List A) (h : ∀ x ∈ xs, tall' x = tall x) :
    stop tall' a passed xs = stop tall a passed xs := by
  induction xs generalizing a passed with
  | nil => rfl
  | cons x xs ih =>
    have hrest := fun a passed => ih a passed (fun y hy => h y (mem_cons_of_mem _ hy))
    rw [stop, stop, h x (mem_cons_self ..), hrest, hrest]

theorem chain_append (a : A) (passed xs ys : List A) :
    Chain L tall a passed.length (xs++ys) ↔ Part L tall a passed.length xs ∧
      Chain L tall (stop tall a passed xs).1 (stop tall a passed xs).2.length ys := by
  induction xs generalizing a passed with
  | nil => exact (and_iff_right trivial).symm
  | cons x xs ih =>
    rw [cons_append, Chain, Part, stop]
    split
    · rw [and_assoc, and_assoc]
      exact and_congr_right (fun _ => and_congr_right (fun _ => ih x []))
    · have := ih a (passed++[x])
      rw [length_append] at this
      exact this

theorem chain_of_short (a : A) (g : ℕ) (h : ∀ x ∈ xs, tall x = false) :
    Chain L tall a g xs ↔ L.next a = none := by
  induction xs generalizing g with
  | nil => exact Iff.rfl
  | cons x xs ih =>
    rw [Chain, h x (mem_cons_self ..)]
    exact ih (g+1) (fun y hy => h y (mem_cons_of_mem _ hy))

theorem Chain.next_cases (h : Chain L tall a g xs) :
    L.next a = none ∧ (∀ x ∈ xs, tall x = false) ∨
      ∃ (k : ℕ) (x : A), xs[k]? = some x ∧ tall x = true ∧ L.next a = some x ∧ L.span a = g+k+1 := by
  induction xs generalizing g with
  | nil => exact Or.inl ⟨h,fun x hx => by cases hx⟩
  | cons x xs ih =>
    rw [Chain] at h
    split at h
    · exact Or.inr ⟨0,x,rfl,‹_›,h.1,by rw [h.2.1]; simp⟩
    rename_i hshort
    rcases ih h with ⟨hn,hs⟩ | ⟨k,y,hy,ht,hn,hs⟩
    · refine Or.inl ⟨hn,fun y hy => ?_⟩
      rcases mem_cons.mp hy with rfl | hy
      · exact Bool.eq_false_iff.mpr hshort
      · exact hs y hy
    refine Or.inr ⟨k+1,y,hy,ht,hn,?_⟩
    rw [hs]
    push_cast
    ring

theorem Chain.next_eq (h : Chain L tall a g xs) : L.next a = xs.find? tall := by
  induction xs generalizing g with
  | nil => exact h
  | cons x xs ih =>
    rw [Chain] at h
    split at h
    · rename_i hx
      rw [h.1, List.find?_cons_of_pos hx]
    · rename_i hx
      rw [ih h, List.find?_cons_of_neg hx]

def Listed (L : Links A) : A → List A → Prop
  | a, [] => L.next a = none
  | a, x::xs => L.next a = some x ∧ Listed L x xs

theorem Chain.listed (h : Chain L tall a g xs) : Listed L a (xs.filter tall) := by
  induction xs generalizing a g with
  | nil => exact h
  | cons x xs ih =>
    rw [Chain] at h
    rw [filter_cons]
    split at h
    · rename_i hx
      rw [if_pos hx]
      exact ⟨h.1,ih h.2.2⟩
    · rename_i hx
      rw [if_neg hx]
      exact ih h

theorem Chain.from_node {a b : A} (h : Chain L tall a 0 xs)
    (hb : b = a ∨ b ∈ xs ∧ tall b = true) : ∃ front rest, a::xs = front++b::rest ∧ Chain L tall b 0 rest := by
  rcases hb with rfl | ⟨hmem,hb⟩
  · exact ⟨[],xs,rfl,h⟩
  obtain ⟨front,rest,rfl⟩ := append_of_mem hmem
  have hrest := ((chain_append a [] front (b::rest)).mp h).2
  rw [Chain, if_pos hb] at hrest
  exact ⟨a::front,rest,rfl,hrest.2.2⟩

theorem Chain.span_eq [DecidableEq A] {a b c : A} (h : Chain L tall a 0 xs)
    (hnodup : (a::xs).Nodup) (hb : b = a ∨ b ∈ xs ∧ tall b = true) (hnext : L.next b = some c) :
    L.span b = ((a::xs).idxOf c : ℤ)-(a::xs).idxOf b := by
  obtain ⟨front,rest,hsplit,hchain⟩ := h.from_node hb
  have hpos : ∀ (k : ℕ) x, (a::xs)[k]? = some x → (a::xs).idxOf x = k := by
    intro k x hx
    obtain ⟨hk,rfl⟩ := List.getElem?_eq_some_iff.mp hx
    exact hnodup.idxOf_getElem k hk
  rcases hchain.next_cases with ⟨hnone,_⟩ | ⟨k,x,hx,_,hn,hspan⟩
  · exact absurd (hnone.symm.trans hnext) nofun
  obtain rfl : x = c := Option.some.inj (hn.symm.trans hnext)
  rw [hpos front.length b (by rw [hsplit]; simp), hpos (front.length+(k+1)) x (by
    rw [hsplit, List.getElem?_append_right (by omega), Nat.add_sub_cancel_left]
    exact hx), hspan]
  push_cast
  ring

theorem Chain.rebase {L' : Links A} {u n : A} (h : Chain L tall u g xs) (g' : ℕ)
    (hnext : L'.next n = L.next u) (hspan : L'.span n = L.span u-g+g')
    (hrest : ∀ x ∈ xs, L'.next x = L.next x ∧ L'.span x = L.span x) : Chain L' tall n g' xs := by
  induction xs generalizing u n g g' with
  | nil => exact hnext.trans h
  | cons x xs ih =>
    have hx := hrest x (mem_cons_self ..)
    have hxs := fun y hy => hrest y (mem_cons_of_mem x hy)
    rw [Chain] at h ⊢
    split at h
    · rename_i htall
      rw [if_pos htall]
      refine ⟨hnext.trans h.1,by rw [hspan, h.2.1]; ring,ih h.2.2 0 hx.1 ?_ hxs⟩
      rw [hx.2]
      simp
    rename_i htall
    rw [if_neg htall]
    refine ih h (g'+1) hnext ?_ hxs
    rw [hspan]
    push_cast
    ring

theorem Chain.congr_tall (h : Chain L tall a g xs)
    (ht : ∀ x ∈ xs, tall' x = tall x) : Chain L tall' a g xs := by
  induction xs generalizing a g with
  | nil => exact h
  | cons x xs ih =>
    have hxs := fun y hy => ht y (mem_cons_of_mem x hy)
    rw [Chain] at h ⊢
    rw [ht x (mem_cons_self ..)]
    split at h
    · rename_i hx
      rw [if_pos hx]
      exact ⟨h.1,h.2.1,ih h.2.2 hxs⟩
    · rename_i hx
      rw [if_neg hx]
      exact ih h hxs

theorem Part.congr_tall (h : Part L tall a g xs)
    (ht : ∀ x ∈ xs, tall' x = tall x) : Part L tall' a g xs := by
  induction xs generalizing a g with
  | nil => exact h
  | cons x xs ih =>
    have hxs := fun y hy => ht y (mem_cons_of_mem x hy)
    rw [Part] at h ⊢
    rw [ht x (mem_cons_self ..)]
    split at h
    · rename_i hx
      rw [if_pos hx]
      exact ⟨h.1,h.2.1,ih h.2.2 hxs⟩
    · rename_i hx
      rw [if_neg hx]
      exact ih h hxs

theorem Part.congr {L' : Links A} {passed xs : List A} (h : Part L tall a g xs)
    (hnodup : (a::xs).Nodup)
    (hsame : ∀ b ∈ a::xs, b ≠ (stop tall a passed xs).1 →
      L'.next b = L.next b ∧ L'.span b = L.span b) : Part L' tall a g xs := by
  induction xs generalizing a g passed with
  | nil => trivial
  | cons x xs ih =>
    obtain ⟨ha,hx⟩ := nodup_cons.mp hnodup
    rw [Part] at h ⊢
    rw [stop] at hsame
    split at h
    · rename_i htall
      rw [if_pos htall] at hsame ⊢
      have hne : a ≠ (stop tall x [] xs).1 := by
        rcases @stop_mem _ tall x [] xs with heq | hmem
        · exact fun heq' => ha (by rw [heq', heq]; exact mem_cons_self ..)
        · exact fun heq' => ha (by rw [heq']; exact mem_cons_of_mem _ hmem)
      obtain ⟨hnext,hspan⟩ := hsame a (mem_cons_self ..) hne
      exact ⟨hnext.trans h.1,hspan.trans h.2.1,
        ih h.2.2 hx (fun b hb => hsame b (mem_cons_of_mem _ hb))⟩
    rename_i htall
    rw [if_neg htall] at hsame ⊢
    refine ih h ?_ (fun b hb => hsame b ?_)
    · exact nodup_cons.mpr ⟨fun hmem => ha (mem_cons_of_mem _ hmem),(nodup_cons.mp hx).2⟩
    · rcases mem_cons.mp hb with rfl | hb
      · exact mem_cons_self ..
      · exact mem_cons_of_mem _ (mem_cons_of_mem _ hb)

/-! ## Changing a chain -/

section Change
variable {L' : Links A} {ys : List A}

theorem Chain.replace (h : Chain L tall a 0 (xs++ys)) (hnodup : (a::xs).Nodup) (zs : List A)
    (htall : ∀ x ∈ xs, tall' x = tall x)
    (hsame : ∀ b ∈ a::xs, b ≠ (stop tall a [] xs).1 → L'.next b = L.next b ∧ L'.span b = L.span b)
    (hrest : Chain L' tall' (stop tall a [] xs).1 (stop tall a [] xs).2.length zs) :
    Chain L' tall' a 0 (xs++zs) := by
  have hpart := ((chain_append a [] xs ys).mp h).1
  refine (chain_append a [] xs zs).mpr ⟨(hpart.congr hnodup hsame).congr_tall htall,?_⟩
  rw [stop_congr a [] xs htall]
  exact hrest

theorem Chain.insert_tall (h : Chain L tall a 0 (xs++ys)) (hnodup : (a::(xs++ys)).Nodup) (n : A)
    (htall : ∀ x ∈ xs++ys, tall' x = tall x) (hn : tall' n = true)
    (hnext : L'.next (stop tall a [] xs).1 = some n)
    (hspan : L'.span (stop tall a [] xs).1 = (stop tall a [] xs).2.length+1)
    (hnext' : L'.next n = L.next (stop tall a [] xs).1)
    (hspan' : L'.span n = L.span (stop tall a [] xs).1-(stop tall a [] xs).2.length)
    (hsame : ∀ b ∈ a::(xs++ys), b ≠ (stop tall a [] xs).1 →
      L'.next b = L.next b ∧ L'.span b = L.span b) : Chain L' tall' a 0 (xs++n::ys) := by
  have hleft : (a::xs).Nodup := hnodup.sublist (List.Sublist.cons_cons a (sublist_append_left xs ys))
  refine h.replace hleft (n::ys) (fun x hx => htall x (mem_append_left _ hx)) ?_ ?_
  · intro b hb
    exact hsame b (by exact mem_append_left _ hb)
  rw [Chain, if_pos hn]
  have hold := ((chain_append a [] xs ys).mp h).2
  refine ⟨hnext,hspan,Chain.congr_tall ?_ (fun x hx => htall x (mem_append_right _ hx))⟩
  refine hold.rebase 0 hnext' (by rw [hspan']; simp) (fun y hy => ?_)
  exact hsame y (mem_cons_of_mem _ (mem_append_right _ hy)) (stop_ne hnodup hy)

theorem Chain.insert_short (h : Chain L tall a 0 (xs++ys)) (hnodup : (a::(xs++ys)).Nodup) (n : A)
    (htall : ∀ x ∈ xs++ys, tall' x = tall x) (hn : tall' n = false)
    (hnext : L'.next (stop tall a [] xs).1 = L.next (stop tall a [] xs).1)
    (hspan : L'.span (stop tall a [] xs).1 = L.span (stop tall a [] xs).1+1)
    (hsame : ∀ b ∈ a::(xs++ys), b ≠ (stop tall a [] xs).1 →
      L'.next b = L.next b ∧ L'.span b = L.span b) : Chain L' tall' a 0 (xs++n::ys) := by
  have hleft : (a::xs).Nodup := hnodup.sublist (List.Sublist.cons_cons a (sublist_append_left xs ys))
  refine h.replace hleft (n::ys) (fun x hx => htall x (mem_append_left _ hx)) ?_ ?_
  · intro b hb
    exact hsame b (by exact mem_append_left _ hb)
  rw [Chain, hn]
  have hold := ((chain_append a [] xs ys).mp h).2
  refine Chain.congr_tall ?_ (fun x hx => htall x (mem_append_right _ hx))
  refine hold.rebase _ hnext (by rw [hspan]; push_cast; ring) (fun y hy => ?_)
  exact hsame y (mem_cons_of_mem _ (mem_append_right _ hy)) (stop_ne hnodup hy)

theorem Chain.remove_tall {x : A} (h : Chain L tall a 0 (xs++x::ys)) (hnodup : (a::(xs++x::ys)).Nodup)
    (hx : tall x = true) (hnext : L'.next (stop tall a [] xs).1 = L.next x)
    (hspan : L'.span (stop tall a [] xs).1 = L.span (stop tall a [] xs).1+(L.span x-1))
    (hsame : ∀ b, b ≠ (stop tall a [] xs).1 → L'.next b = L.next b ∧ L'.span b = L.span b) :
    Chain L' tall a 0 (xs++ys) := by
  have hleft : (a::xs).Nodup :=
    hnodup.sublist (List.Sublist.cons_cons a (sublist_append_left xs (x::ys)))
  refine h.replace hleft ys (fun _ _ => rfl) (fun b _ => hsame b) ?_
  have hold := ((chain_append a [] xs (x::ys)).mp h).2
  rw [Chain, if_pos hx] at hold
  refine hold.2.2.rebase _ hnext (by rw [hspan, hold.2.1]; simp; ring) (fun y hy => ?_)
  exact hsame y (stop_ne hnodup (mem_cons_of_mem _ hy))

theorem Chain.remove_short {x : A} (h : Chain L tall a 0 (xs++x::ys)) (hnodup : (a::(xs++x::ys)).Nodup)
    (hx : tall x = false) (hnext : L'.next (stop tall a [] xs).1 = L.next (stop tall a [] xs).1)
    (hspan : L'.span (stop tall a [] xs).1 = L.span (stop tall a [] xs).1-1)
    (hsame : ∀ b, b ≠ (stop tall a [] xs).1 → L'.next b = L.next b ∧ L'.span b = L.span b) :
    Chain L' tall a 0 (xs++ys) := by
  have hleft : (a::xs).Nodup :=
    hnodup.sublist (List.Sublist.cons_cons a (sublist_append_left xs (x::ys)))
  refine h.replace hleft ys (fun _ _ => rfl) (fun b _ => hsame b) ?_
  have hold := ((chain_append a [] xs (x::ys)).mp h).2
  rw [Chain, hx] at hold
  refine hold.rebase _ hnext (by rw [hspan]; push_cast; ring) (fun y hy => ?_)
  exact hsame y (stop_ne hnodup (mem_cons_of_mem _ hy))

end Change

/-! ## Walking along a chain -/

def walk (L : Links A) (go : A → ℤ → Bool) : ℕ → A → ℤ → Option (A × ℤ)
  | 0, _, _ => none
  | fuel+1, a, r => match L.next a with
    | none => some (a,r)
    | some b => if go b (r+L.span a) then walk L go fuel b (r+L.span a) else some (a,r)

theorem walk_stops (go : A → ℤ → Bool) (fuel : ℕ) (a : A) (r : ℤ) (passed xs ys : List A)
    (h : Chain L tall a passed.length (xs++ys))
    (hgo : ∀ (k : ℕ) x, xs[k]? = some x → go x (r+passed.length+k+1) = true)
    (hno : ∀ (k : ℕ) y, ys[k]? = some y → go y (r+passed.length+xs.length+k+1) = false)
    (hfuel : xs.length < fuel) :
    walk L go fuel a r = some ((stop tall a passed xs).1,
      r+passed.length+xs.length-(stop tall a passed xs).2.length) := by
  induction xs generalizing a r passed fuel with
  | nil =>
    obtain ⟨fuel,rfl⟩ := Nat.exists_eq_succ_of_ne_zero (show fuel ≠ 0 by omega)
    have hstay : walk L go (fuel+1) a r = some (a,r) := by
      rw [walk]
      rcases h.next_cases with ⟨hn,_⟩ | ⟨k,y,hy,_,hn,hs⟩
      · rw [hn]
      have hend := hno k y hy
      rw [length_nil, Nat.cast_zero, add_zero] at hend
      rw [hn, hs]
      dsimp only
      rw [show r+(passed.length+k+1) = r+passed.length+k+1 by ring, hend, if_neg Bool.false_ne_true]
    rw [hstay, stop]
    simp
  | cons x xs ih =>
    rw [cons_append, Chain] at h
    rw [stop]
    split at h
    · rename_i htall
      obtain ⟨fuel,rfl⟩ := Nat.exists_eq_succ_of_ne_zero (show fuel ≠ 0 by omega)
      rw [if_pos htall, walk, h.1]
      dsimp only
      have hfirst := hgo 0 x rfl
      rw [Nat.cast_zero, add_zero] at hfirst
      rw [h.2.1, show r+(passed.length+1) = r+passed.length+1 by ring, hfirst, if_pos rfl]
      rw [length_cons] at hfuel
      have hrest := ih fuel x (r+passed.length+1) [] h.2.2 ?_ ?_ (by omega)
      · rw [hrest, length_cons, length_nil]
        push_cast
        ring_nf
      · intro k y hy
        have := hgo (k+1) y hy
        rw [← this, length_nil]
        exact congrArg (go y) (by push_cast; ring)
      intro k y hy
      have := hno k y hy
      rw [← this, length_nil, length_cons]
      exact congrArg (go y) (by push_cast; ring)
    rename_i htall
    rw [if_neg htall]
    rw [length_cons] at hfuel
    have hrest := ih fuel a r (passed++[x]) (by
      rw [length_append]
      exact h) ?_ ?_ (by omega)
    · rw [hrest, length_cons, length_append, length_singleton]
      push_cast
      ring_nf
    · intro k y hy
      have := hgo (k+1) y hy
      rw [← this, length_append, length_singleton]
      exact congrArg (go y) (by push_cast; ring)
    intro k y hy
    have := hno k y hy
    rw [← this, length_append, length_singleton, length_cons]
    exact congrArg (go y) (by push_cast; ring)

/-! ## Two chains over one list -/

theorem stop_descend {low high : A → Bool} (hle : ∀ x, high x = true → low x = true) (a : A)
    (passed xs : List A) : stop low a [] (passed++xs) =
      stop low (stop high a passed xs).1 [] (stop high a passed xs).2 := by
  induction xs generalizing a passed with
  | nil =>
    rw [append_nil]
    rfl
  | cons x xs ih =>
    rw [stop]
    split
    · rename_i hhigh
      rw [stop_append, stop, if_pos (hle x hhigh), ← ih x [], nil_append]
    · rw [← ih a (passed++[x]), append_assoc]
      rfl

theorem Chain.descend {low high : A → Bool} (hle : ∀ x, high x = true → low x = true)
    {passed xs ys : List A} (h : Chain L low a 0 (passed++(xs++ys))) :
    Chain L low (stop high a passed xs).1 0 ((stop high a passed xs).2++ys) := by
  induction xs generalizing a passed with
  | nil => exact h
  | cons x xs ih =>
    rw [stop]
    split
    · rename_i hhigh
      have hsplit := (@chain_append _ L low a [] passed (x::(xs++ys))).mp h
      rw [Chain, if_pos (hle x hhigh)] at hsplit
      exact ih (by exact hsplit.2.2.2)
    · refine ih ?_
      rw [append_assoc]
      exact h

end GoCommon.SpannedChain
