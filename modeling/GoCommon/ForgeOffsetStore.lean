import GoCommon.ByteWords
import GoCommon.FileTree
import GoCommon.ForgeBroker

/-!
# Committed offsets

The offset of a group and a topic is kept in a file whose path is joined from
the directory of the store and the sanitised names. Every such file is inside
the directory, but names that sanitise to the same text share a file, and a
group that sanitises to a dot has its files among the directories of the other
groups.
-/

set_option autoImplicit false

namespace GoCommon.ForgeOffsetStore
open List LexicalPath FileTree

abbrev Name := {c : Bytes // Plain c}
abbrev Files := Volume Name Bytes

def extOffset : Bytes := [46,111,102,102,115,101,116]
def offsetByteSize : ℕ := 8

/-! ## Names -/

def replaceFrom (old new : Bytes) : ℕ → Bytes → Bytes
  | _, [] => []
  | k+1, _::s => replaceFrom old new k s
  | 0, c::s => if old.isPrefixOf (c::s) then new++replaceFrom old new (old.length-1) s
    else c::replaceFrom old new 0 s

def replaceAll (s old new : Bytes) : Bytes := replaceFrom old new 0 s

def sanitizeName (name : Bytes) : Bytes :=
  if name = [] then [95]
  else replaceAll (replaceAll (replaceAll name [0] [95]) [slash] [95]) dotdot [95]

structure Pair where
  group : Bytes
  topic : Bytes
  deriving DecidableEq, Repr

structure OffsetStore where
  dir : Bytes
  deriving DecidableEq, Repr

def decimal (n : ℕ) : Bytes := (Nat.toDigits 10 n).map (fun c => UInt8.ofNat c.toNat)

def tempName (r : UInt32) : Bytes :=
  [46,111,102,102,115,101,116,45]++decimal r.toNat++[46,116,109,112]

theorem decimal_no_slash (n : ℕ) : slash ∉ decimal n := by
  intro h
  obtain ⟨c,hc,he⟩ := mem_map.mp h
  have hd : c.isDigit = true := Nat.isDigit_of_mem_toDigits (by omega) (by omega) hc
  simp only [Char.isDigit, Bool.and_eq_true, decide_eq_true_eq] at hd
  have h1 : 48 ≤ c.toNat := by simpa [UInt32.le_iff_toNat_le] using hd.1
  have h2 : c.toNat ≤ 57 := by simpa [UInt32.le_iff_toNat_le] using hd.2
  have := congrArg UInt8.toNat he
  rw [UInt8.toNat_ofNat'] at this
  have hs : slash.toNat = 47 := rfl
  omega

theorem tempName_plain (r : UInt32) : Plain (tempName r) := by
  refine ⟨by simp [tempName],by simp [tempName, dot],by simp [tempName, dotdot],?_⟩
  have := decimal_no_slash r.toNat
  simp only [tempName, mem_append, not_or]
  exact ⟨⟨by decide,this⟩,by decide⟩

def temp (r : UInt32) : Name := ⟨tempName r,tempName_plain r⟩

theorem mem_replaceFrom {old new : Bytes} {k : ℕ} {s : Bytes} {x : UInt8}
    (h : x ∈ replaceFrom old new k s) : x ∈ new ∨ x ∈ s := by
  fun_induction replaceFrom old new k s with
  | case1 => cases h
  | case2 k c s ih => exact (ih h).imp id (mem_cons_of_mem _)
  | case3 c s hp ih =>
    rcases mem_append.mp h with h | h
    · exact .inl h
    · exact (ih h).imp id (mem_cons_of_mem _)
  | case4 c s hp ih =>
    rcases mem_cons.mp h with rfl | h
    · exact .inr (by simp)
    · exact (ih h).imp id (mem_cons_of_mem _)

theorem replaceFrom_gone (b : UInt8) (new : Bytes) (hb : b ∉ new) {s : Bytes} :
    b ∉ replaceFrom [b] new 0 s := by
  induction s with
  | nil => simp [replaceFrom]
  | cons c s ih =>
    rw [replaceFrom]
    split
    · simpa using ⟨hb,ih⟩
    · rename_i hp
      have hc : b ≠ c := by simpa [List.isPrefixOf] using hp
      simpa using ⟨hc,ih⟩

theorem replaceAll_ne_nil {s old new : Bytes} (hs : s ≠ []) (hn : new ≠ []) :
    replaceAll s old new ≠ [] := by
  rcases s with _ | ⟨c,s⟩
  · exact (hs rfl).elim
  rw [replaceAll, replaceFrom]
  split
  · simp [hn]
  · simp

theorem replaceAll_dots {s : Bytes} : replaceAll s dotdot [95] ≠ dotdot := by
  rcases s with _ | ⟨a,_ | ⟨b,s⟩⟩
  · decide
  · rw [replaceAll, replaceFrom]
    split <;> simp [replaceFrom, dotdot]
  rw [replaceAll, replaceFrom]
  split
  · simp [dotdot]
  rename_i hp
  rw [replaceFrom]
  split
  · simp [dotdot]
  · intro he
    rw [dotdot, List.cons.injEq, List.cons.injEq] at he
    exact hp (by simp [dotdot, he.1, he.2.1])

theorem sanitizeName_ne_nil (n : Bytes) : sanitizeName n ≠ [] := by
  unfold sanitizeName
  split
  · simp
  · rename_i hn
    exact replaceAll_ne_nil (replaceAll_ne_nil (replaceAll_ne_nil hn (by simp))
      (by simp)) (by simp)

theorem sanitizeName_no_slash (n : Bytes) : slash ∉ sanitizeName n := by
  unfold sanitizeName
  split
  · decide
  intro h
  rcases mem_replaceFrom h with h | h
  · revert h
    decide
  · exact replaceFrom_gone slash [95] (by decide) h

theorem sanitizeName_ne_dotdot (n : Bytes) : sanitizeName n ≠ dotdot := by
  unfold sanitizeName
  split
  · decide
  · exact replaceAll_dots

theorem sanitizeName_plain {n : Bytes} (h : sanitizeName n ≠ dot) : Plain (sanitizeName n) :=
  ⟨sanitizeName_ne_nil n,h,sanitizeName_ne_dotdot n,sanitizeName_no_slash n⟩

theorem fileName_plain (n : Bytes) : Plain (sanitizeName n++extOffset) := by
  have hlen : 7 ≤ (sanitizeName n++extOffset).length := by simp [extOffset]
  refine ⟨?_,?_,?_,?_⟩
  · simp [extOffset]
  · intro h
    rw [h] at hlen
    exact absurd hlen (by decide)
  · intro h
    rw [h] at hlen
    exact absurd hlen (by decide)
  · rw [mem_append, not_or]
    exact ⟨sanitizeName_no_slash n,by decide⟩

def fileName (p : Pair) : Name := ⟨sanitizeName p.topic++extOffset,fileName_plain p.topic⟩

theorem temp_ne_fileName (r : UInt32) (p : Pair) : temp r ≠ fileName p := by
  intro h
  have h : tempName r = sanitizeName p.topic++extOffset := congrArg Subtype.val h
  have h1 : (tempName r).getLast? = some 112 := by rw [tempName, List.getLast?_append]; rfl
  have h2 : (sanitizeName p.topic++extOffset).getLast? = some 116 := by
    rw [List.getLast?_append]; rfl
  rw [h, h2] at h1
  exact absurd h1 (by decide)

/-! ## The store -/

namespace OffsetStore

def path (s : OffsetStore) (p : Pair) : Bytes :=
  join [s.dir,sanitizeName p.group,sanitizeName p.topic++extOffset]

def commit (cwd : Dir) (s : OffsetStore) (p : Pair) (offset : UInt64) (r : UInt32) (t : Files) :
    Except Fault Unit × Files :=
  let d := resolve cwd (LexicalPath.dir (s.path p))
  match t.mkdirAll d with
  | .error e => (.error e,t)
  | .ok t1 => if t1.node (temp r::d) ≠ none then (.error .taken,t1) else
    match t1.put (temp r) d (.file (ByteWords.putUint 8 offset.toNat)) with
    | .error e => (.error e,t1)
    | .ok t2 => match t2.rename (temp r) d (resolve cwd (s.path p)) with
      | .error e => (.error e,t2)
      | .ok t3 => (.ok (),t3)

def load (cwd : Dir) (s : OffsetStore) (p : Pair) (t : Files) : Except Fault UInt64 :=
  match t.find (resolve cwd (s.path p)) with
  | .error .notFound => .ok 0
  | .error e => .error e
  | .ok .dir => .error .isDirectory
  | .ok (.file data) =>
    .ok (if data.length < offsetByteSize then 0
      else UInt64.ofNat (ByteWords.uint (data.take offsetByteSize)))

end OffsetStore

def newOffsetStore (cwd : Dir) (dir : Bytes) (t : Files) : Except Fault (OffsetStore × Files) :=
  match t.mkdirAll (resolve cwd dir) with
  | .error e => .error e
  | .ok u => .ok (⟨dir⟩,u)

inductive Used (cwd : Dir) (s : OffsetStore) : Files → Prop
  | opened (t u : Files) (h : newOffsetStore cwd s.dir t = .ok (s,u)) : Used cwd s u
  | committed (t : Files) (p : Pair) (offset : UInt64) (r : UInt32) (h : Used cwd s t) :
      Used cwd s (s.commit cwd p offset r t).2

structure Isolated (cwd : Dir) (s : OffsetStore) (p q : Pair) : Prop where
  differ : s.path p ≠ s.path q
  unseen : ∀ t, Used cwd s t → ∀ offset r,
    s.load cwd q (s.commit cwd p offset r t).2 = s.load cwd q t

/-- The sanitised pairs differ, neither file is on the way to the other, and the
second group is not named like a temporary file beside the first file. -/
structure Separated (p q : Pair) : Prop where
  differ : (sanitizeName p.group,sanitizeName p.topic) ≠
    (sanitizeName q.group,sanitizeName q.topic)
  above : ¬(sanitizeName q.group = dot ∧ sanitizeName p.group = sanitizeName q.topic++extOffset)
  below : ¬(sanitizeName p.group = dot ∧ sanitizeName q.group = sanitizeName p.topic++extOffset)
  beside : ¬(sanitizeName p.group = dot ∧ ∃ r, sanitizeName q.group = tempName r)

/-! ## Places -/

section Places
variable (cwd : Dir) (s : OffsetStore) (p q : Pair)

def groupDir : Dir := walk (resolve cwd s.dir) (sanitizeName p.group)

theorem join_last (d : Bytes) {g f : Bytes} (hg : g ≠ []) (hgs : slash ∉ g) (hf : Plain f) :
    ∃ text rest, join [d,g,f] = clean text ∧ kept text = f::rest ∧
      resolve cwd text = walk (walk (resolve cwd d) g) f := by
  have hlast : ∀ a, kept (a++slash::f) =
      f::(components a).foldl (cleanStep (rooted (a++slash::f))) [] := by
    intro a
    rw [kept, components_append, components_single hf.no_slash, foldl_append,
      foldl_cons, foldl_nil]
    simp [cleanStep, hf.ne_nil, hf.ne_dot, hf.ne_dotdot]
  by_cases hd : d = []
  · subst hd
    refine ⟨g++slash::f,_,?_,hlast g,?_⟩
    · simp [join, List.dropWhile, hg, List.intercalate]
    · rw [ForgeBroker.resolve_append cwd f hg, components_single hf.no_slash]
      rw [resolve, components_single hgs, rooted_slashless hgs]
      rfl
  refine ⟨(d++slash::g)++slash::f,_,?_,hlast _,?_⟩
  · simp [join, List.dropWhile, hd, List.intercalate]
  · rw [ForgeBroker.resolve_append cwd f (by simp), ForgeBroker.resolve_append cwd g hd,
      components_single hf.no_slash, components_single hgs]
    rfl

theorem path_place : resolve cwd (s.path p) = fileName p::groupDir cwd s p ∧
    resolve cwd (dir (s.path p)) = groupDir cwd s p := by
  have hf := fileName_plain p.topic
  obtain ⟨text,rest,hj,hk,hr⟩ := join_last cwd s.dir
    (sanitizeName_ne_nil _) (sanitizeName_no_slash _) hf
  have hplace : resolve cwd (s.path p) = fileName p::groupDir cwd s p := by
    rw [OffsetStore.path, hj, resolve_clean, hr, walk_plain hf]
    rfl
  have hdir := resolve_dir cwd (s.path p) (sanitizeName p.topic++extOffset)
    (by rw [OffsetStore.path, hj]; exact clean_last hk)
  rw [hplace, walk_plain hf] at hdir
  exact ⟨hplace,(List.cons.inj hdir).2.symm⟩

theorem groupDir_dot (h : sanitizeName p.group = dot) : groupDir cwd s p = resolve cwd s.dir := by
  rw [groupDir, h]
  exact walk_other (by decide) (by decide)

theorem groupDir_name (h : sanitizeName p.group ≠ dot) :
    groupDir cwd s p = ⟨sanitizeName p.group,sanitizeName_plain h⟩::resolve cwd s.dir :=
  walk_plain _

/-- A directory in the store's directory is that of a group if the group has its
name. -/
theorem groupDir_eq (n : Name) :
    n::resolve cwd s.dir = groupDir cwd s p ↔ n.1 = sanitizeName p.group := by
  by_cases h : sanitizeName p.group = dot
  · rw [groupDir_dot cwd s p h, h]
    refine ⟨fun he => ?_,fun he => (n.2.ne_dot he).elim⟩
    have := congrArg List.length he
    simp at this
  · rw [groupDir_name cwd s p h, List.cons.injEq, Subtype.ext_iff]
    simp

theorem groupDir_inj : groupDir cwd s p = groupDir cwd s q ↔
    sanitizeName p.group = sanitizeName q.group := by
  refine ⟨fun h => ?_,fun h => by rw [groupDir, groupDir, h]⟩
  by_cases hp : sanitizeName p.group = dot
  · by_contra hne
    have hq : sanitizeName q.group ≠ dot := fun hq => hne (hp.trans hq.symm)
    rw [groupDir_dot cwd s p hp, groupDir_name cwd s q hq] at h
    have := congrArg List.length h
    simp at this
  · rw [groupDir_name cwd s p hp] at h
    exact (groupDir_eq cwd s q _).mp h

theorem fileName_inj : fileName p = fileName q ↔ sanitizeName p.topic = sanitizeName q.topic := by
  rw [fileName, fileName, Subtype.mk.injEq, append_left_inj]

theorem path_inj : s.path p = s.path q ↔
    (sanitizeName p.group,sanitizeName p.topic) = (sanitizeName q.group,sanitizeName q.topic) := by
  rw [Prod.mk.injEq]
  constructor
  · intro h
    have hr := congrArg (resolve ([] : Dir)) h
    rw [(path_place [] s p).1, (path_place [] s q).1, List.cons.injEq, fileName_inj,
      groupDir_inj] at hr
    exact hr.symm
  · rintro ⟨h1,h2⟩
    rw [OffsetStore.path, OffsetStore.path, h1, h2]

theorem store_above : resolve cwd s.dir <:+ groupDir cwd s p := by
  by_cases h : sanitizeName p.group = dot
  · rw [groupDir_dot cwd s p h]
  · rw [groupDir_name cwd s p h]
    exact suffix_cons _ _

theorem groupDir_length : (resolve cwd s.dir).length ≤ (groupDir cwd s p).length ∧
    (groupDir cwd s p).length ≤ (resolve cwd s.dir).length+1 := by
  by_cases h : sanitizeName p.group = dot
  · simp [groupDir_dot cwd s p h]
  · simp [groupDir_name cwd s p h]

/-- A place in the directory of a group is on the way to a file only if it is the
file, or the directory of the file's group. -/
theorem on_the_way {n : Name} (h : n::groupDir cwd s p <:+ fileName q::groupDir cwd s q) :
    n::groupDir cwd s p = fileName q::groupDir cwd s q ∨
    (sanitizeName p.group = dot ∧ n.1 = sanitizeName q.group) := by
  rcases suffix_cons_iff.mp h with h | h
  · exact .inl h
  right
  obtain ⟨_,hq⟩ := groupDir_length cwd s q
  have hl := h.length_le
  have hdot : sanitizeName p.group = dot := by
    by_contra hne
    rw [groupDir_name cwd s p hne] at hl
    simp only [length_cons] at hl
    omega
  refine ⟨hdot,(groupDir_eq cwd s q n).mp ?_⟩
  rw [groupDir_dot cwd s p hdot] at h hl
  exact h.eq_of_length (by simp only [length_cons] at hl ⊢; omega)

end Places

/-! ## What a commit leaves -/

section Commit
variable (cwd : Dir) (s : OffsetStore) (p : Pair) (offset : UInt64) (r : UInt32) (t : Files)

abbrev stored : Node Bytes := .file (ByteWords.putUint 8 offset.toNat)

/-- Nothing has changed, or the directory of the group has been made and the
number was taken, or the temporary file is left beside a directory in the place
of the file, or the file is written. -/
theorem commit_cases :
    (∃ e, t.mkdirAll (groupDir cwd s p) = .error e ∧
      s.commit cwd p offset r t = (.error e,t)) ∨
    ∃ t1, t.mkdirAll (groupDir cwd s p) = .ok t1 ∧
      ((t1.node (temp r::groupDir cwd s p) ≠ none ∧
          ∃ e, s.commit cwd p offset r t = (.error e,t1)) ∨
        (t1.node (temp r::groupDir cwd s p) = none ∧
          t1.node (fileName p::groupDir cwd s p) = some .dir ∧
          ∃ e t2, s.commit cwd p offset r t = (.error e,t2) ∧
            ∀ x, t2.node x = if x = temp r::groupDir cwd s p then some (stored offset)
              else t1.node x) ∨
        (t1.node (fileName p::groupDir cwd s p) ≠ some .dir ∧
          ∃ t3, s.commit cwd p offset r t = (.ok (),t3) ∧
            ∀ x, t3.node x = if x = fileName p::groupDir cwd s p then some (stored offset)
              else t1.node x)) := by
  obtain ⟨hplace,hdir⟩ := path_place cwd s p
  rcases hm : t.mkdirAll (groupDir cwd s p) with e | t1
  · exact .inl ⟨e,rfl,by simp only [OffsetStore.commit, hdir, hm]⟩
  refine .inr ⟨t1,rfl,?_⟩
  have hg : t1.node (groupDir cwd s p) = some .dir := (mkdirAll_ok hm).1
  by_cases htemp : t1.node (temp r::groupDir cwd s p) ≠ none
  · exact .inl ⟨htemp,.taken,by simp only [OffsetStore.commit, hdir, hm, if_pos htemp]⟩
  have hnone : t1.node (temp r::groupDir cwd s p) = none := not_not.mp htemp
  obtain ⟨t2,h2⟩ := put_fits (temp r) (stored offset) hg (by simp [hnone])
  have hput := (put_ok h2).2.2
  have hne : fileName p::groupDir cwd s p ≠ temp r::groupDir cwd s p := fun he =>
    temp_ne_fileName r p (List.cons.inj he).1.symm
  have hnode : t2.node (fileName p::groupDir cwd s p) =
      t1.node (fileName p::groupDir cwd s p) := by rw [hput, if_neg hne]
  have hcommit : s.commit cwd p offset r t =
      match t2.rename (temp r) (groupDir cwd s p) (fileName p::groupDir cwd s p) with
      | .error e => (.error e,t2)
      | .ok t3 => (.ok (),t3) := by
    simp only [OffsetStore.commit, hdir, hm, if_neg htemp, hplace, h2]
  right
  by_cases hd : t1.node (fileName p::groupDir cwd s p) = some .dir
  · obtain ⟨f,hf⟩ := rename_onto_dir hne (hnode.trans hd)
    exact .inl ⟨hnone,hd,f,t2,by rw [hcommit, hf],hput⟩
  obtain ⟨t3,h3⟩ := rename_fits t2 hne
    (by rw [hput, if_pos rfl]) (by rw [hput, if_neg (by simp), hg]) (by rwa [hnode])
  obtain ⟨data,hdata,_,hren⟩ := rename_ok hne h3
  rw [hput, if_pos rfl] at hdata
  refine .inr ⟨hd,t3,by rw [hcommit, h3],fun x => ?_⟩
  rw [hren, hput]
  by_cases hx : x = temp r::groupDir cwd s p
  · rw [if_pos hx, hx, if_neg hne.symm, hnone]
  · rw [if_neg hx, if_neg hx, ← hdata]

theorem commit_keeps_made {t1 : Files} (hm : t.mkdirAll (groupDir cwd s p) = .ok t1) {x : Dir}
    (hx : t1.node x = some .dir) : (s.commit cwd p offset r t).2.node x = some .dir := by
  rcases commit_cases cwd s p offset r t with ⟨e,he,_⟩ | ⟨t1',hm',h⟩
  · rw [hm] at he
    cases he
  cases hm.symm.trans hm'
  rcases h with ⟨_,e,h⟩ | ⟨hn,_,e,t2,h,h2⟩ | ⟨hd,t3,h,h3⟩
  · rw [h]
    exact hx
  · rw [h, h2, if_neg ?_, hx]
    rintro rfl
    rw [hn] at hx
    cases hx
  · rw [h, h3, if_neg ?_, hx]
    rintro rfl
    exact hd hx

/-- The files of a group that sanitises to a dot are in the directory of the
store. -/
theorem commit_dot (h1 : sanitizeName p.group = dot) (hd : t.node (resolve cwd s.dir) = some .dir) :
    t.node (temp r::resolve cwd s.dir) ≠ none ∨
    (t.node (fileName p::resolve cwd s.dir) = some .dir ∧
      ∃ e t2, s.commit cwd p offset r t = (.error e,t2) ∧
        ∀ x, t2.node x = if x = temp r::resolve cwd s.dir then some (stored offset)
          else t.node x) ∨
    (t.node (fileName p::resolve cwd s.dir) ≠ some .dir ∧
      ∃ t3, s.commit cwd p offset r t = (.ok (),t3) ∧
        ∀ x, t3.node x = if x = fileName p::resolve cwd s.dir then some (stored offset)
          else t.node x) := by
  have hc := commit_cases cwd s p offset r t
  rw [groupDir_dot cwd s p h1, mkdirAll_dir hd] at hc
  rcases hc with ⟨e,he,_⟩ | ⟨t1,hm,hc⟩
  · cases he
  cases hm
  exact hc.imp (fun h => h.1) (.imp (fun h => h.2) id)

theorem used_of_dir (h : t.node (resolve cwd s.dir) = some .dir) : Used cwd s t :=
  .opened t t (by rw [newOffsetStore, mkdirAll_dir h])

end Commit

/-! ## Loads -/

section Loads
variable (cwd : Dir) (s : OffsetStore) (p q : Pair)

theorem load_congr {t u : Files}
    (h : u.find (fileName q::groupDir cwd s q) = t.find (fileName q::groupDir cwd s q)) :
    s.load cwd q u = s.load cwd q t := by
  rw [OffsetStore.load, OffsetStore.load, (path_place cwd s q).1, h]

theorem load_notFound (t : Files) (h : t.find (fileName q::groupDir cwd s q) = .error .notFound) :
    s.load cwd q t = .ok 0 := by
  rw [OffsetStore.load, (path_place cwd s q).1, h]

theorem load_dir {t : Files} (h : t.node (fileName q::groupDir cwd s q) = some .dir) :
    s.load cwd q t = .error .isDirectory := by
  rw [OffsetStore.load, (path_place cwd s q).1, find_some _ _ _ h]

theorem load_blocked {t : Files} {data : Bytes}
    (h : t.node (groupDir cwd s q) = some (.file data)) :
    s.load cwd q t = .error .notDirectory := by
  rw [OffsetStore.load, (path_place cwd s q).1, find_below_file h]

theorem load_stored {t : Files} (offset : UInt64)
    (h : t.node (fileName q::groupDir cwd s q) = some (stored offset)) :
    s.load cwd q t = .ok offset := by
  rw [OffsetStore.load, (path_place cwd s q).1, find_some _ _ _ h]
  have hlen : (ByteWords.putUint 8 offset.toNat).length = 8 := ByteWords.putUint_length 8
  have hlt : offset.toNat < 256^8 := offset.toNat_lt
  dsimp only
  rw [hlen, if_neg (by decide), offsetByteSize, take_of_length_le hlen.le,
    ByteWords.uint_putUint_of_lt 8 hlt, UInt64.ofNat_toNat]

theorem load_written (t u : Files) {x : Dir} (n : Node Bytes)
    (hu : ∀ y, u.node y = if y = x then some n else t.node y)
    (hx : ¬x <:+ fileName q::groupDir cwd s q) : s.load cwd q u = s.load cwd q t := by
  refine load_congr cwd s q (find_congr (fun y hy => ?_))
  rw [hu, if_neg]
  rintro rfl
  exact hx hy

/-- Making the directory of a group is seen by no load but one that finds it in
the place of its file. -/
theorem load_made {t t1 : Files} (hm : t.mkdirAll (groupDir cwd s p) = .ok t1)
    (h : ¬(sanitizeName q.group = dot ∧ sanitizeName p.group = sanitizeName q.topic++extOffset)) :
    s.load cwd q t1 = s.load cwd q t := by
  refine load_congr cwd s q ((mkdirAll_ok hm).2 _ (fun hs => ?_)).2
  rcases on_the_way cwd s q p (hs.trans (suffix_cons (fileName p) _)) with
    hw | ⟨h1,h2⟩
  · rw [hw] at hs
    simpa using hs.length_le
  · exact h ⟨h1,h2.symm⟩

end Loads

/-! ## Isolation -/

section Isolation
variable (cwd : Dir) (s : OffsetStore) (p q : Pair)

theorem separated_unseen (h : Separated p q) (offset : UInt64) (r : UInt32) (t : Files) :
    s.load cwd q (s.commit cwd p offset r t).2 = s.load cwd q t := by
  rcases commit_cases cwd s p offset r t with ⟨e,_,hc⟩ | ⟨t1,hm,hc⟩
  · rw [hc]
  have h1 := load_made cwd s p q hm h.above
  rcases hc with ⟨_,e,hc⟩ | ⟨_,_,e,t2,hc,h2⟩ | ⟨_,t3,hc,h3⟩
  · rw [hc, ← h1]
  · rw [hc, ← h1]
    refine load_written cwd s q t1 t2 _ h2 (fun hs => ?_)
    rcases on_the_way cwd s p q hs with hw | ⟨hd,hn⟩
    · exact temp_ne_fileName r q (List.cons.inj hw).1
    · exact h.beside ⟨hd,r,hn.symm⟩
  rw [hc, ← h1]
  refine load_written cwd s q t1 t3 _ h3 (fun hs => ?_)
  rcases on_the_way cwd s p q hs with hw | ⟨hd,hn⟩
  · rw [List.cons.injEq, fileName_inj, groupDir_inj] at hw
    exact h.differ (Prod.ext hw.2 hw.1)
  · exact h.below ⟨hd,hn.symm⟩

theorem folders_above (c : Name) (d : Dir) : (Volume.folders d : Files).node (c::d) = none :=
  if_neg (fun h => by simpa using h.length_le)

/-- A file in the place of a directory of a group hides what the group has not
committed yet. -/
theorem blocked_seen {t : Files} (u : Files) {n : Name} {data : Bytes}
    (hq : n.1 = sanitizeName q.group) (ht : t.node (resolve cwd s.dir) = some .dir)
    (hn : t.node (n::resolve cwd s.dir) = none)
    (hu : u.node (n::resolve cwd s.dir) = some (.file data)) :
    s.load cwd q u ≠ s.load cwd q t := by
  have hg := (groupDir_eq cwd s q n).mpr hq
  rw [hg] at hu
  rw [load_blocked cwd s q hu, load_notFound cwd s q t
    (by rw [← hg]; exact find_below_absent _ ht hn)]
  simp

theorem seen_above (h1 : sanitizeName q.group = dot)
    (h2 : sanitizeName p.group = sanitizeName q.topic++extOffset) : ¬Isolated cwd s p q := by
  intro h
  have hq := groupDir_dot cwd s q h1
  have hp : fileName q::resolve cwd s.dir = groupDir cwd s p :=
    (groupDir_eq cwd s p (fileName q)).mpr h2.symm
  have hd : (Volume.folders (resolve cwd s.dir) : Files).node (resolve cwd s.dir) = some .dir :=
    if_pos (suffix_refl _)
  have hn := folders_above (fileName q) (resolve cwd s.dir)
  obtain ⟨t1,hm⟩ := mkdirAll_new hd hn
  have hmade := (mkdirAll_ok hm).1
  rw [hp] at hm
  have hdir := commit_keeps_made cwd s p 0 0 _ hm hmade
  have hsame := h.unseen _ (used_of_dir cwd s _ hd) 0 0
  have hbefore : s.load cwd q (.folders (resolve cwd s.dir)) = .ok 0 :=
    load_notFound cwd s q _ (by rw [hq]; exact find_absent hd hn)
  rw [hbefore, load_dir cwd s q (by rw [hq]; exact hdir)] at hsame
  cases hsame

theorem seen_below (h1 : sanitizeName p.group = dot)
    (h2 : sanitizeName q.group = sanitizeName p.topic++extOffset) : ¬Isolated cwd s p q := by
  intro h
  have hd : (Volume.folders (resolve cwd s.dir) : Files).node (resolve cwd s.dir) = some .dir :=
    if_pos (suffix_refl _)
  have hn := folders_above (fileName p) (resolve cwd s.dir)
  have hsame := h.unseen _ (used_of_dir cwd s _ hd) 0 0
  rcases commit_dot cwd s p 0 0 _ h1 hd with ht | ⟨hdir,_⟩ | ⟨_,t3,hc,h3⟩
  · exact ht (folders_above _ _)
  · rw [hn] at hdir
    cases hdir
  · rw [hc] at hsame
    exact blocked_seen cwd s q t3 h2.symm hd hn (by rw [h3, if_pos rfl]) hsame

/-- The rename fails on a directory in the place of the file, and the temporary
file stays where the directory of the other group would be. -/
theorem seen_beside (h1 : sanitizeName p.group = dot) {r : UInt32}
    (h2 : sanitizeName q.group = tempName r) : ¬Isolated cwd s p q := by
  intro h
  have hf : (Volume.folders (fileName p::resolve cwd s.dir) : Files).node
      (fileName p::resolve cwd s.dir) = some .dir := if_pos (suffix_refl _)
  have hd := Volume.inside _ _ _ (by rw [hf]; simp)
  have hn : (Volume.folders (fileName p::resolve cwd s.dir) : Files).node
      (temp r::resolve cwd s.dir) = none := by
    refine if_neg (fun hs => temp_ne_fileName r p ?_)
    exact (List.cons.inj (hs.eq_of_length (by simp))).1
  have hsame := h.unseen _ (used_of_dir cwd s _ hd) 0 r
  rcases commit_dot cwd s p 0 r _ h1 hd with ht | ⟨_,e,t2,hc,hput⟩ | ⟨hdir,_⟩
  · exact ht hn
  · rw [hc] at hsame
    exact blocked_seen cwd s q t2 h2.symm hd hn (by rw [hput, if_pos rfl]) hsame
  · exact hdir hf

/-- Every file is strictly inside the directory of the store. Two pairs have
their own files and do not see each other's commits exactly if they are
separated. -/
theorem offsets_isolated_iff :
    (∀ p, ∃ d : Dir, d ≠ [] ∧ resolve cwd (s.path p) = d++resolve cwd s.dir) ∧
    ∀ p q, Isolated cwd s p q ↔ Separated p q := by
  constructor
  · intro p
    obtain ⟨d,hd⟩ := store_above cwd s p
    exact ⟨fileName p::d,by simp,by rw [(path_place cwd s p).1, ← hd]; rfl⟩
  intro p q
  constructor
  · intro h
    exact ⟨fun he => h.differ ((path_inj s p q).mpr he),
      fun ⟨h1,h2⟩ => seen_above cwd s p q h1 h2 h,fun ⟨h1,h2⟩ => seen_below cwd s p q h1 h2 h,
      fun ⟨h1,r,h2⟩ => seen_beside cwd s p q h1 h2 h⟩
  · intro h
    exact ⟨fun he => h.differ ((path_inj s p q).mp he),
      fun t _ offset r => separated_unseen cwd s p q h offset r t⟩

end Isolation

/-! ## Runs of commits -/

structure Call where
  pair : Pair
  offset : UInt64
  random : UInt32
  deriving DecidableEq, Repr

section Runs
variable (cwd : Dir) (s : OffsetStore) (q : Pair)

theorem topic_ne_own_group {n m : Bytes} (h : sanitizeName n = dot) :
    sanitizeName n ≠ sanitizeName m++extOffset := by
  rw [h]
  exact (fileName_plain m).ne_dot.symm

theorem commit_load {offset : UInt64} {r : UInt32} {t u : Files}
    (h : s.commit cwd q offset r t = (.ok (),u)) : s.load cwd q u = .ok offset := by
  rcases commit_cases cwd s q offset r t with ⟨e,_,hc⟩ | ⟨t1,_,hc⟩
  · cases h.symm.trans hc
  rcases hc with ⟨_,e,hc⟩ | ⟨_,_,e,t2,hc,_⟩ | ⟨_,t3,hc,h3⟩
  · cases h.symm.trans hc
  · cases h.symm.trans hc
  · cases h.symm.trans hc
    exact load_stored cwd s q offset (by rw [h3, if_pos rfl])

theorem failed_commit_unseen {offset : UInt64} {r : UInt32} {t u : Files} {f : Fault}
    (h : s.commit cwd q offset r t = (.error f,u)) : s.load cwd q u = s.load cwd q t := by
  rcases commit_cases cwd s q offset r t with ⟨e,_,hc⟩ | ⟨t1,hm,hc⟩
  · cases h.symm.trans hc
    rfl
  rw [← load_made cwd s q q hm (fun hd => topic_ne_own_group hd.1 hd.2)]
  rcases hc with ⟨_,e,hc⟩ | ⟨_,hd,e,t2,hc,h2⟩ | ⟨_,t3,hc,_⟩
  · cases h.symm.trans hc
    rfl
  · cases h.symm.trans hc
    have hne : fileName q::groupDir cwd s q ≠ temp r::groupDir cwd s q := fun he =>
      temp_ne_fileName r q (List.cons.inj he).1.symm
    rw [load_dir cwd s q hd, load_dir cwd s q (by rw [h2, if_neg hne, hd])]
  · cases h.symm.trans hc

end Runs

/-- Groups "a/b" and "a_b" share the file of a topic. -/
theorem slash_group_shares_offset :
    let s : OffsetStore := ⟨[47,100]⟩
    let p : Pair := ⟨[97,47,98],[116]⟩
    let q : Pair := ⟨[97,95,98],[116]⟩
    let t : Files := .folders (resolve [] s.dir)
    p ≠ q ∧ s.path p = s.path q ∧ newOffsetStore [] s.dir t = .ok (s,t) ∧
      s.load [] q t = .ok 0 ∧ s.load [] q (s.commit [] p 7 0 t).2 = .ok 7 := by
  refine ⟨by decide,by decide +kernel,?_,by decide +kernel,by decide +kernel⟩
  rw [newOffsetStore, mkdirAll_dir (by decide +kernel)]

end GoCommon.ForgeOffsetStore
