import Mathlib.Tactic

/-!
# Trees of directories and files

A place is the list of the names on the way to it, last one first. Whatever
exists is in a directory.
-/

set_option autoImplicit false

namespace GoCommon.FileTree
open List

inductive Node (β : Type) where
  | dir
  | file (data : β)
  deriving DecidableEq, Repr

inductive Fault where
  | notFound
  | notDirectory
  | isDirectory
  | taken
  deriving DecidableEq, Repr

structure Volume (α β : Type) where
  node : List α → Option (Node β)
  root : node [] = some .dir
  inside : ∀ c d, node (c::d) ≠ none → node d = some .dir

variable {α β : Type} [DecidableEq α] [DecidableEq β]

namespace Volume

def find (t : Volume α β) : List α → Except Fault (Node β)
  | [] => .ok .dir
  | c::d => match t.find d with
    | .ok .dir => match t.node (c::d) with
      | some n => .ok n
      | none => .error .notFound
    | .ok (.file _) => .error .notDirectory
    | .error e => .error e

def put (t : Volume α β) (c : α) (d : List α) (n : Node β) : Except Fault (Volume α β) :=
  if hd : t.node d = some .dir then
    if hc : t.node (c::d) = some .dir then .error .isDirectory
    else .ok
      { node := fun x => if x = c::d then some n else t.node x
        root := by rw [if_neg (cons_ne_nil c d).symm]; exact t.root
        inside := fun b x hx => by
          by_cases he : x = c::d
          · subst he
            rw [if_neg (by simp)] at hx
            exact (hc (t.inside b _ hx)).elim
          rw [if_neg he]
          by_cases hb : b::x = c::d
          · rw [(List.cons.inj hb).2]
            exact hd
          · rw [if_neg hb] at hx
            exact t.inside b x hx }
  else .error .notFound

def unlink (t : Volume α β) (c : α) (d : List α) : Except Fault (Volume α β) :=
  if hc : t.node (c::d) = some .dir then .error .isDirectory
  else .ok
    { node := fun x => if x = c::d then none else t.node x
      root := by rw [if_neg (cons_ne_nil c d).symm]; exact t.root
      inside := fun b x hx => by
        by_cases hb : b::x = c::d
        · rw [if_pos hb] at hx
          exact (hx rfl).elim
        · rw [if_neg hb] at hx
          have hn := t.inside b x hx
          rw [if_neg (fun he : x = c::d => hc (he ▸ hn)), hn] }

def rename (t : Volume α β) (c : α) (d : List α) : List α → Except Fault (Volume α β)
  | [] => .error .isDirectory
  | b::e => if b::e = c::d then .ok t else match t.node (c::d) with
    | none => .error .notFound
    | some .dir => .error .isDirectory
    | some (.file data) => match t.put b e (.file data) with
      | .error f => .error f
      | .ok u => u.unlink c d

def mkdirAll (t : Volume α β) : List α → Except Fault (Volume α β)
  | [] => .ok t
  | c::d => match t.mkdirAll d with
    | .error e => .error e
    | .ok u => match u.node (c::d) with
      | some .dir => .ok u
      | some (.file _) => .error .notDirectory
      | none => u.put c d .dir

def folders (a : List α) : Volume α β where
  node x := if x <:+ a then some .dir else none
  root := if_pos nil_suffix
  inside c d h := by
    by_cases hc : c::d <:+ a
    · rw [if_pos ((suffix_cons c d).trans hc)]
    · rw [if_neg hc] at h
      exact (h rfl).elim

end Volume

open Volume

/-! ## Looking up -/

section Find
variable {t u : Volume α β}

omit [DecidableEq α] [DecidableEq β]

theorem find_some (t : Volume α β) (d : List α) (n : Node β) (h : t.node d = some n) :
    t.find d = .ok n := by
  induction d generalizing n with
  | nil => rw [t.root] at h; cases h; rfl
  | cons c d ih =>
    rw [find, ih .dir (t.inside c d (by simp [h])), h]

theorem find_absent {t : Volume α β} {c : α} {d : List α} (hd : t.node d = some .dir)
    (h : t.node (c::d) = none) : t.find (c::d) = .error .notFound := by
  rw [find, find_some t d _ hd, h]

theorem find_below_absent {t : Volume α β} (b : α) {c : α} {d : List α} (hd : t.node d = some .dir)
    (h : t.node (c::d) = none) : t.find (b::c::d) = .error .notFound := by
  rw [find, find_absent hd h]

theorem find_below_file {t : Volume α β} {c : α} {d : List α} {data : β}
    (h : t.node d = some (.file data)) : t.find (c::d) = .error .notDirectory := by
  rw [find, find_some t d _ h]

theorem find_congr {d : List α} (h : ∀ x, x <:+ d → u.node x = t.node x) : u.find d = t.find d := by
  induction d with
  | nil => rfl
  | cons c d ih =>
    rw [find, find, ih (fun x hx => h x (hx.trans (suffix_cons c d))),
      h _ (suffix_refl _)]

end Find

/-! ## Changes -/

theorem put_ok {t u : Volume α β} {c : α} {d : List α} {n : Node β} (h : t.put c d n = .ok u) :
    t.node d = some .dir ∧ t.node (c::d) ≠ some .dir ∧
    ∀ x, u.node x = if x = c::d then some n else t.node x := by
  unfold put at h
  split_ifs at h with hd hc
  cases h
  exact ⟨hd,hc,fun x => rfl⟩

theorem put_fits {t : Volume α β} (c : α) {d : List α} (n : Node β) (hd : t.node d = some .dir)
    (hc : t.node (c::d) ≠ some .dir) : ∃ u, t.put c d n = .ok u := by
  unfold put
  rw [dif_pos hd, dif_neg hc]
  exact ⟨_,rfl⟩

theorem rename_ok {t u : Volume α β} {c b : α} {d e : List α} (hne : b::e ≠ c::d)
    (h : t.rename c d (b::e) = .ok u) :
    ∃ data, t.node (c::d) = some (.file data) ∧ t.node (b::e) ≠ some .dir ∧
      ∀ x, u.node x = if x = c::d then none else if x = b::e then some (.file data)
        else t.node x := by
  rw [rename, if_neg hne] at h
  rcases hc : t.node (c::d) with _ | _ | data <;> simp only [hc] at h <;> try cases h
  rcases hp : t.put b e (.file data) with f | v <;> simp only [hp] at h <;> try cases h
  obtain ⟨_,hb,hv⟩ := put_ok hp
  unfold unlink at h
  split_ifs at h
  cases h
  refine ⟨data,rfl,hb,fun x => ?_⟩
  simp only [hv]

theorem rename_fits (t : Volume α β) {c b : α} {d e : List α} {data : β} (hne : b::e ≠ c::d)
    (hc : t.node (c::d) = some (.file data)) (he : t.node e = some .dir)
    (hb : t.node (b::e) ≠ some .dir) : ∃ u, t.rename c d (b::e) = .ok u := by
  obtain ⟨v,hv⟩ := put_fits b (.file data) he hb
  have hn : v.node (c::d) ≠ some .dir := by
    rw [(put_ok hv).2.2, hc]
    simp
  rw [rename, if_neg hne, hc]
  simp only [hv]
  rw [unlink, dif_neg hn]
  exact ⟨_,rfl⟩

theorem rename_onto_dir {t : Volume α β} {c b : α} {d e : List α} (hne : b::e ≠ c::d)
    (hb : t.node (b::e) = some .dir) : ∃ f, t.rename c d (b::e) = .error f := by
  rcases hr : t.rename c d (b::e) with f | u
  · exact ⟨f,rfl⟩
  · obtain ⟨_,_,h,_⟩ := rename_ok hne hr
    exact (h hb).elim

omit [DecidableEq β] in
theorem find_made {t u : Volume α β} {c : α} {d : List α} (hd : t.node d = some .dir)
    (hc : t.node (c::d) = none)
    (hu : ∀ x, u.node x = if x = c::d then some .dir else t.node x) {x : List α}
    (hx : x ≠ c::d) : u.find x = t.find x := by
  induction x with
  | nil => rfl
  | cons b x ih =>
    by_cases he : x = c::d
    · subst he
      have hb : t.node (b::c::d) = none := by
        by_contra hn
        rw [t.inside b _ hn] at hc
        cases hc
      have hdir : u.node (c::d) = some .dir := by rw [hu, if_pos rfl]
      have hnone : u.node (b::c::d) = none := by rw [hu, if_neg (by simp), hb]
      rw [find_absent hdir hnone, find_below_absent b hd hc]
    · rw [find, find, ih he, hu, if_neg hx]

theorem mkdirAll_ok {t u : Volume α β} {d : List α} (h : t.mkdirAll d = .ok u) :
    u.node d = some .dir ∧ (∀ x, ¬x <:+ d → u.node x = t.node x ∧ u.find x = t.find x) := by
  induction d generalizing u with
  | nil =>
    cases h
    exact ⟨t.root,fun x _ => ⟨rfl,rfl⟩⟩
  | cons c d ih =>
    unfold mkdirAll at h
    rcases hm : t.mkdirAll d with e | v
    · rw [hm] at h
      cases h
    rw [hm] at h
    obtain ⟨hv,hsame⟩ := ih hm
    have hout : ∀ x, ¬x <:+ c::d → ¬x <:+ d := fun x hx hs => hx (hs.trans (suffix_cons c d))
    rcases hn : v.node (c::d) with _ | _ | data
    · simp only [hn] at h
      obtain ⟨_,_,hu⟩ := put_ok h
      refine ⟨by rw [hu, if_pos rfl],fun x hx => ?_⟩
      have hne : x ≠ c::d := by
        rintro rfl
        exact hx (suffix_refl _)
      obtain ⟨h1,h2⟩ := hsame x (hout x hx)
      exact ⟨by rw [hu, if_neg hne, h1],by rw [find_made hv hn hu hne, h2]⟩
    · simp only [hn] at h
      cases h
      exact ⟨hn,fun x hx => hsame x (hout x hx)⟩
    · simp only [hn] at h
      cases h

theorem mkdirAll_dir {t : Volume α β} {d : List α} (h : t.node d = some .dir) :
    t.mkdirAll d = .ok t := by
  induction d with
  | nil => rfl
  | cons c d ih =>
    unfold mkdirAll
    rw [ih (t.inside c d (by simp [h]))]
    simp only [h]

theorem mkdirAll_new {t : Volume α β} {c : α} {d : List α} (hd : t.node d = some .dir)
    (h : t.node (c::d) = none) : ∃ u, t.mkdirAll (c::d) = .ok u := by
  obtain ⟨u,hu⟩ := put_fits c .dir hd (by simp [h])
  refine ⟨u,?_⟩
  unfold mkdirAll
  rw [mkdirAll_dir hd]
  simp only [h]
  exact hu

end GoCommon.FileTree
