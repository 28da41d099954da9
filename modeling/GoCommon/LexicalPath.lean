import Mathlib.Tactic
import Mathlib.Data.List.TakeWhile

/-!
# Path strings

A path is cleaned by dropping empty and dot components and by letting a parent
component take back the one before it. Without symbolic links a cleaned path
leads to the same directory as the path itself.
-/

set_option autoImplicit false

namespace GoCommon.LexicalPath
open List

abbrev Bytes := List UInt8

def slash : UInt8 := 47
def dot : Bytes := [46]
def dotdot : Bytes := [46,46]

structure Plain (c : Bytes) : Prop where
  ne_nil : c ≠ []
  ne_dot : c ≠ dot
  ne_dotdot : c ≠ dotdot
  no_slash : slash ∉ c

theorem plain_iff (c : Bytes) : Plain c ↔ c ≠ [] ∧ c ≠ dot ∧ c ≠ dotdot ∧ slash ∉ c :=
  ⟨fun h => ⟨h.1,h.2,h.3,h.4⟩,fun h => ⟨h.1,h.2.1,h.2.2.1,h.2.2.2⟩⟩

instance (c : Bytes) : Decidable (Plain c) := decidable_of_iff _ (plain_iff c).symm

/-! ## Components -/

def components (s : Bytes) : List Bytes := s.splitOn slash

theorem components_no_slash (s : Bytes) : ∀ c ∈ components s, slash ∉ c := by
  induction s with
  | nil => simp [components]
  | cons x s ih =>
    rw [components, splitOn_cons_eq_if_modifyHead]
    rw [components] at ih
    split
    · intro c hc
      rcases mem_cons.mp hc with rfl | hc
      · simp
      · exact ih c hc
    rename_i hx
    rcases hs : s.splitOn slash with _ | ⟨a,as⟩
    · exact (splitOn_ne_nil _ s hs).elim
    rw [hs] at ih
    intro c hc
    rcases mem_cons.mp hc with rfl | hc
    · intro hm
      rcases mem_cons.mp hm with he | hm
      · exact hx (by rw [he]; exact beq_self_eq_true _)
      · exact ih a (by simp) hm
    · exact ih c (by simp [hc])

theorem components_append (a b : Bytes) :
    components (a++slash::b) = components a++components b := splitOn_append_cons_self ..

variable {c : Bytes}

theorem components_single (h : slash ∉ c) : components c = [c] :=
  splitOn_eq_singleton h

theorem components_intercalate {cs : List Bytes} (h : ∀ c ∈ cs, slash ∉ c) (hne : cs ≠ []) :
    components ([slash].intercalate cs) = cs := splitOn_intercalate slash h hne

/-! ## Cleaning and joining -/

def cleanStep (rooted : Bool) (out : List Bytes) (c : Bytes) : List Bytes :=
  if c = [] ∨ c = dot then out
  else if c = dotdot then match out with
    | [] => if rooted then [] else [dotdot]
    | top::rest => if top = dotdot then dotdot::top::rest else rest
  else c::out

def rooted (s : Bytes) : Bool := s.head? = some slash

def kept (s : Bytes) : List Bytes := (components s).foldl (cleanStep (rooted s)) []

def clean (s : Bytes) : Bytes :=
  if rooted s then slash::[slash].intercalate (kept s).reverse
  else if kept s = [] then dot
  else [slash].intercalate (kept s).reverse

def join (es : List Bytes) : Bytes := match es.dropWhile (fun e => e = []) with
  | [] => []
  | e::es => clean ([slash].intercalate (e::es))

def dir (s : Bytes) : Bytes := clean (s.reverse.dropWhile (fun c => c ≠ slash)).reverse

/-! ## Where a path leads -/

abbrev Dir := List {c : Bytes // Plain c}

def walk (d : Dir) (c : Bytes) : Dir :=
  if h : Plain c then ⟨c,h⟩::d else if c = dotdot then d.tail else d

def resolve (cwd : Dir) (s : Bytes) : Dir :=
  (components s).foldl walk (if rooted s then [] else cwd)

theorem walk_plain {d : Dir} (h : Plain c) : walk d c = ⟨c,h⟩::d := by
  rw [walk, dif_pos h]

theorem not_plain_dotdot : ¬Plain dotdot := fun h => h.ne_dotdot rfl

theorem walk_dotdot {d : Dir} : walk d dotdot = d.tail := by
  rw [walk, dif_neg not_plain_dotdot, if_pos rfl]

theorem walk_other {d : Dir} (h : ¬Plain c) (hd : c ≠ dotdot) : walk d c = d := by
  rw [walk, dif_neg h, if_neg hd]

theorem cleanStep_kept (r : Bool) (out : List Bytes) (hc : slash ∉ c)
    (h : ∀ x ∈ out, Plain x ∨ x = dotdot) : ∀ x ∈ cleanStep r out c, Plain x ∨ x = dotdot := by
  unfold cleanStep
  split
  · exact h
  rename_i hn
  split
  · split
    · split
      · simp
      · intro x hx
        exact .inr (mem_singleton.mp hx)
    split
    · intro x hx
      rcases mem_cons.mp hx with rfl | hx
      · exact .inr rfl
      · exact h x hx
    · intro x hx
      exact h x (mem_cons_of_mem _ hx)
  rename_i hd
  intro x hx
  rcases mem_cons.mp hx with rfl | hx
  · exact .inl ⟨fun he => hn (.inl he),fun he => hn (.inr he),hd,hc⟩
  · exact h x hx

theorem cleanStep_walk (r : Bool) (base : Dir) (hb : r = true → base = []) (out : List Bytes)
    (c : Bytes) (h : ∀ x ∈ out, Plain x ∨ x = dotdot) :
    (cleanStep r out c).reverse.foldl walk base = walk (out.reverse.foldl walk base) c := by
  unfold cleanStep
  split
  · rename_i hn
    rw [walk_other]
    · exact fun hp => hn.elim hp.ne_nil hp.ne_dot
    · rintro rfl
      exact absurd hn (by decide)
  split
  · rename_i hd
    subst hd
    rw [walk_dotdot]
    rcases out with _ | ⟨top,rest⟩
    · cases r with
      | false => simp [walk_dotdot]
      | true => simp [hb rfl]
    by_cases ht : top = dotdot
    · simp [ht, walk_dotdot]
    · have hp : Plain top := (h top (by simp)).resolve_right ht
      simp [ht, walk_plain hp]
  · simp

theorem kept_walk (r : Bool) (base : Dir) (hb : r = true → base = []) {cs : List Bytes} (out : List Bytes)
    (hc : ∀ c ∈ cs, slash ∉ c) (h : ∀ x ∈ out, Plain x ∨ x = dotdot) :
    (∀ x ∈ cs.foldl (cleanStep r) out, Plain x ∨ x = dotdot) ∧
    (cs.foldl (cleanStep r) out).reverse.foldl walk base =
      cs.foldl walk (out.reverse.foldl walk base) := by
  induction cs generalizing out with
  | nil => exact ⟨h,rfl⟩
  | cons c cs ih =>
    obtain ⟨h1,h2⟩ := ih (cleanStep r out c) (fun x hx => hc x (by simp [hx]))
      (cleanStep_kept r out (hc c (by simp)) h)
    refine ⟨h1,?_⟩
    rw [foldl_cons, foldl_cons, h2, cleanStep_walk r base hb out c h]

theorem kept_proper (s : Bytes) : ∀ x ∈ kept s, Plain x ∨ x = dotdot :=
  (kept_walk (rooted s) [] (fun _ => rfl) _ (components_no_slash s) (by simp)).1

theorem proper_no_slash {x : Bytes} (h : Plain x ∨ x = dotdot) : slash ∉ x ∧ x ≠ [] := by
  rcases h with h | rfl
  · exact ⟨h.no_slash,h.ne_nil⟩
  · decide

theorem rooted_intercalate (cs : List Bytes) (h : slash ∉ c) (hne : c ≠ []) :
    rooted ([slash].intercalate (c::cs)) = false := by
  rcases c with _ | ⟨x,c⟩
  · exact (hne rfl).elim
  · have hx : x ≠ slash := fun he => h (by simp [he])
    cases cs <;> simp [rooted, List.intercalate, List.intersperse, hx]

theorem resolve_clean {cwd : Dir} {s : Bytes} : resolve cwd (clean s) = resolve cwd s := by
  have hk := kept_proper s
  have hno : ∀ c ∈ (kept s).reverse, slash ∉ c := fun c hc =>
    (proper_no_slash (hk c (mem_reverse.mp hc))).1
  have hwalk : ∀ base : Dir, (rooted s = true → base = []) →
      (kept s).reverse.foldl walk base = (components s).foldl walk base := fun base hb =>
    (kept_walk (rooted s) base hb [] (components_no_slash s) (by simp)).2
  unfold clean
  split
  · rename_i hr
    have hroot : rooted (slash::[slash].intercalate (kept s).reverse) = true := by simp [rooted]
    rw [resolve, resolve, hroot, hr, if_pos rfl]
    have hcomp := components_append [] ([slash].intercalate (kept s).reverse)
    rw [nil_append] at hcomp
    rw [hcomp, foldl_append, ← hwalk [] (fun _ => rfl)]
    have hnil : (components []).foldl walk [] = [] := rfl
    rw [hnil]
    rcases hz : (kept s).reverse with _ | ⟨c,cs⟩
    · rfl
    · rw [components_intercalate (by rwa [hz] at hno) (by simp)]
  rename_i hr
  have hr' : rooted s = false := by simpa using hr
  rw [resolve, resolve, hr', ← hwalk _ (by simp [hr'])]
  split
  · rename_i hz
    rw [hz]
    rfl
  rename_i hz
  rcases hrev : (kept s).reverse with _ | ⟨c,cs⟩
  · exact (hz (by simpa using hrev)).elim
  · have hc : c ∈ kept s := by rw [← mem_reverse, hrev]; simp
    obtain ⟨h1,h2⟩ := proper_no_slash (hk c hc)
    rw [rooted_intercalate cs h1 h2, components_intercalate (by rwa [hrev] at hno) (by simp)]

/-! ## The last component -/

theorem rooted_head (a b c : Bytes) : rooted (a++slash::b) = rooted (a++slash::c) := by
  cases a <;> rfl

theorem rooted_slashless (h : slash ∉ c) : rooted c = false := by
  rcases c with _ | ⟨x,c⟩
  · rfl
  · have hx : x ≠ slash := fun he => h (by simp [he])
    simp [rooted, hx]

theorem resolve_dir (cwd : Dir) (s c : Bytes) (h : (components s).getLast? = some c) :
    resolve cwd s = walk (resolve cwd (dir s)) c := by
  have hs : (s.reverse.dropWhile (fun c => c ≠ slash)).reverse++
      (s.reverse.takeWhile (fun c => c ≠ slash)).reverse = s := by
    rw [← reverse_append, takeWhile_append_dropWhile, reverse_reverse]
  have hno : slash ∉ (s.reverse.takeWhile (fun c => c ≠ slash)).reverse := by
    intro hm
    simpa using mem_takeWhile_imp (mem_reverse.mp hm)
  rw [dir, resolve_clean]
  revert hs hno
  generalize (s.reverse.takeWhile (fun c => c ≠ slash)).reverse = b
  rcases hd : s.reverse.dropWhile (fun c => c ≠ slash) with _ | ⟨x,r⟩ <;> intro hs hno
  · have hb : b = s := hs
    subst hb
    rw [components_single hno] at h
    cases h
    rw [resolve, components_single hno, rooted_slashless hno]
    rfl
  have hx : x = slash := by
    have hh := head_dropWhile_not (fun c => decide (c ≠ slash)) (l := s.reverse)
      (by rw [hd]; exact cons_ne_nil x r)
    simp only [hd, head_cons] at hh
    simpa using hh
  subst hx
  rw [reverse_cons, append_assoc, singleton_append] at hs
  subst hs
  rw [components_append, components_single hno, List.getLast?_append] at h
  cases h
  rw [reverse_cons, resolve, resolve, components_append, components_single hno,
    rooted_head r.reverse b []]
  have hend : components (r.reverse++[slash]) = components r.reverse++[[]] :=
    components_append r.reverse []
  rw [hend, foldl_append, foldl_append]
  rfl

theorem clean_last {s c : Bytes} {rest : List Bytes} (h : kept s = c::rest) :
    (components (clean s)).getLast? = some c := by
  have hno : ∀ x ∈ (kept s).reverse, slash ∉ x := fun x hx =>
    (proper_no_slash (kept_proper s x (mem_reverse.mp hx))).1
  have hc : components ([slash].intercalate (kept s).reverse) = (kept s).reverse :=
    components_intercalate hno (by simp [h])
  unfold clean
  split
  · have happ := components_append [] ([slash].intercalate (kept s).reverse)
    rw [nil_append] at happ
    rw [happ, hc, h]
    simp
  · rw [if_neg (by simp [h]), hc, h]
    simp

end GoCommon.LexicalPath
