import Mathlib.Data.List.Nodup
import Mathlib.Tactic

/-!
# Binding of rows to structs

A struct type is scanned once into a map from names to index paths, through embedded structs
and pointers to structs. The columns of a row are then written to the fields that the map has
for their lowered names. What is known about types and conversions is a parameter, and so are
the letters. A result of none stands for a panic.
-/

set_option autoImplicit false

namespace GoCommon.RowBinding
open List

/-- The types of fields and their values. A conversion can panic although the types convert;
a pointer type has the type it points to and a new pointer for each of its values. -/
structure Reflect where
  Ty : Type
  Val : Ty → Type
  zero : ∀ t, Val t
  convertibleTo : Ty → Ty → Bool
  convert : ∀ {s}, Val s → ∀ t, Option (Val t)
  elem : ∀ t, Option ((e : Ty) × (Val e → Val t))

structure Letters where
  toLower : String → String
  lowered : ∀ s, toLower (toLower s) = toLower s

inductive Struct (Ty : Type) where
  | done
  | field (name : String) (exported anonymous : Bool) (tag : String) (ty : Ty) (rest : Struct Ty)
  | embed (exported pointer : Bool) (inner rest : Struct Ty)

def Held : Bool → Type → Type
  | true, T => Option T
  | false, T => T

namespace Held
variable {T : Type}

def content : (pointer : Bool) → Held pointer T → Option T
  | true, h => h
  | false, h => some h

def fill : (pointer : Bool) → T → Held pointer T
  | true, x => some x
  | false, x => x

def descend (exported pointer : Bool) (zero : T) (step : T → Option T) (h : Held pointer T) :
    Option (Held pointer T) :=
  if (content pointer h).isNone ∧ !exported then none
  else (step ((content pointer h).getD zero)).map (fill pointer)

end Held

variable (R : Reflect) (L : Letters)

def Target : Struct R.Ty → Type
  | .done => Unit
  | .field _ _ _ _ t rest => R.Val t × Target rest
  | .embed _ pointer inner rest => Held pointer (Target inner) × Target rest

variable {R}

def zeroOf : (s : Struct R.Ty) → Target R s
  | .done => ()
  | .field _ _ _ _ t rest => (R.zero t,zeroOf rest)
  | .embed _ true _ rest => (none,zeroOf rest)
  | .embed _ false inner rest => (zeroOf inner,zeroOf rest)

/-! ## The map of a type -/

abbrev StructMap := List (String × List ℕ)

def tagName (tag : String) : String := String.ofList (tag.toList.takeWhile (· ≠ ','))

def fieldKey (name tag : String) : String := if tagName tag ≠ "" then tagName tag else L.toLower name

def addField (name : String) (path : List ℕ) (sm : StructMap) : StructMap :=
  if (sm.lookup name).isSome then sm else (name,path)::sm

def analyze : Struct R.Ty → ℕ → List ℕ → StructMap → StructMap
  | .done, _, _, sm => sm
  | .field name exported anonymous tag _ rest, i, basePath, sm =>
    analyze rest (i+1) basePath
      (if !exported && !anonymous then sm else addField (fieldKey L name tag) (basePath++[i]) sm)
  | .embed _ _ inner rest, i, basePath, sm =>
    analyze rest (i+1) basePath (analyze inner 0 (basePath++[i]) sm)

/-! ## Columns -/

abbrev Column (R : Reflect) := Option ((s : R.Ty) × R.Val s)

def converted (t : R.Ty) : Column R → Option (Option (R.Val t))
  | none => none
  | some ⟨s,v⟩ =>
    if R.convertibleTo s t then some (R.convert v t)
    else match R.elem t with
      | some ⟨e,new⟩ => if R.convertibleTo s e then some ((R.convert v e).map new) else none
      | none => none

def assign {t : R.Ty} (exported : Bool) (old : R.Val t) (value : Column R) : Option (R.Val t) :=
  if exported then (converted t value).getD (some old) else some old

def setField : (s : Struct R.Ty) → Target R s → List ℕ → Column R → Option (Target R s)
  | .field _ exported _ _ _ _, x, [0], value => (assign exported x.1 value).map (·,x.2)
  | .field _ _ _ _ _ rest, x, (i+1)::path, value => (setField rest x.2 (i::path) value).map (x.1,·)
  | .embed exported pointer inner _, x, 0::path, value =>
    (Held.descend exported pointer (zeroOf inner) (setField inner · path value) x.1).map (·,x.2)
  | .embed _ _ _ rest, x, (i+1)::path, value => (setField rest x.2 (i::path) value).map (x.1,·)
  | _, x, [], _ => some x
  | _, _, _, _ => none

abbrev Row (R : Reflect) := List (String × Column R)

def bindColumn (s : Struct R.Ty) (x : Target R s) (c : String × Column R) : Option (Target R s) :=
  match (analyze L s 0 [] []).lookup (L.toLower c.1) with
  | some path => setField s x path c.2
  | none => some x

def bindRow (s : Struct R.Ty) (row : Row R) (x : Target R s) : Option (Target R s) :=
  row.foldlM (bindColumn L s) x

inductive Arg (s : Struct R.Ty) where
  | noPointer
  | noStruct
  | pointer (x : Target R s)

def bind (s : Struct R.Ty) (row : Row R) : Arg s → Option (Except String (Target R s))
  | .noPointer => some (.error "target must be a non-nil pointer")
  | .noStruct => some (.error "target must point to a struct")
  | .pointer x => (bindRow L s row x).map .ok

/-! ## What a row is bound to -/

def columnName (name tag : String) : String := if tagName tag ≠ "" then tagName tag else name

def columns : Struct R.Ty → List String
  | .done => []
  | .field name exported anonymous tag _ rest =>
    if !exported && !anonymous then columns rest else columnName name tag::columns rest
  | .embed _ _ inner rest => columns inner++columns rest

variable (row : Row R)

def valuesOf (lower : String) (t : R.Ty) : List (R.Val t) := row.filterMap fun c =>
  if L.toLower c.1 = lower then (converted t c.2).join else none

def wanted (name tag : String) (t : R.Ty) : List (R.Val t) :=
  valuesOf L row (L.toLower (columnName name tag)) t

def Wanted : Struct R.Ty → Prop
  | .done => False
  | .field name exported _ tag t rest => exported = true ∧ wanted L row name tag t ≠ [] ∨ Wanted rest
  | .embed _ _ inner rest => Wanted inner ∨ Wanted rest

def HeldExpected {T : Type} (wanted : Prop) (zero : T) (expected : T → T → Prop) :
    Option T → Option T → Prop
  | some a, some b => expected a b
  | none, some b => wanted ∧ expected zero b
  | none, none => ¬wanted
  | some _, none => False

def FieldExpected {T : Type} (values : List T) (v v' : T) : Prop :=
  (∀ w ∈ values, v' = w) ∧ (values = [] → v' = v)

def Expected : (s : Struct R.Ty) → Target R s → Target R s → Prop
  | .done, _, _ => True
  | .field name exported _ tag t rest, x, y =>
    (if exported then FieldExpected (wanted L row name tag t) x.1 y.1 else y.1 = x.1) ∧
      Expected rest x.2 y.2
  | .embed _ pointer inner rest, x, y => HeldExpected (Wanted L row inner) (zeroOf inner)
    (Expected inner) (Held.content pointer x.1) (Held.content pointer y.1) ∧ Expected rest x.2 y.2

/-! ## Columns without paths -/

def keys : Struct R.Ty → List String
  | .done => []
  | .field name exported anonymous tag _ rest =>
    if !exported && !anonymous then keys rest else fieldKey L name tag::keys rest
  | .embed _ _ inner rest => keys inner++keys rest

variable {L} {row}

def both {α β : Type} (a : Option α) (b : Option β) : Option (α × β) := a.bind fun a => b.map (a,·)

def write (L : Letters) (k : String) (value : Column R) :
    (s : Struct R.Ty) → Target R s → Option (Target R s)
  | .done, x => some x
  | .field name exported anonymous tag _ rest, x =>
    both (if !exported && !anonymous || fieldKey L name tag ≠ k then some x.1 else assign exported x.1 value)
      (write L k value rest x.2)
  | .embed exported pointer inner rest, x =>
    both (if k ∈ keys L inner then
        Held.descend exported pointer (zeroOf inner) (write L k value inner) x.1 else some x.1)
      (write L k value rest x.2)

variable {k key name tag : String} {exported anonymous pointer : Bool} {t : R.Ty}
  {s inner rest : Struct R.Ty} {i : ℕ} {path basePath : List ℕ} {sm : StructMap} {value : Column R}

theorem not_mem_field :
    k ∉ keys L (.field name exported anonymous tag t rest) ↔
      (!exported && !anonymous || decide (fieldKey L name tag ≠ k)) = true ∧ k ∉ keys L rest := by
  rw [keys]
  split
  · rename_i hskip
    rw [hskip, Bool.true_or, eq_self, true_and]
  · rename_i hskip
    rw [mem_cons, not_or, Bool.eq_false_iff.mpr hskip, Bool.false_or, decide_eq_true_iff, ne_comm]

theorem write_other (h : k ∉ keys L s) (x : Target R s) : write L k value s x = some x := by
  induction s with
  | done => rfl
  | field name exported anonymous tag t rest ih =>
    rw [not_mem_field] at h
    rw [write, if_pos h.1, ih h.2]
    rfl
  | embed exported pointer inner rest _ ih =>
    rw [keys, mem_append, not_or] at h
    rw [write, if_neg h.1, ih h.2]
    rfl

theorem lookup_addField (k name : String) (path : List ℕ) (sm : StructMap) :
    (addField name path sm).lookup k = (sm.lookup k).or (if k = name then some path else none) := by
  rw [addField]
  split
  · rename_i hold
    split
    · rename_i hk
      rw [hk, Option.or_of_isSome hold]
    · rw [Option.or_none]
  rename_i hnew
  rw [lookup_cons]
  split
  · rename_i hk
    rw [if_pos (beq_iff_eq.mp hk), beq_iff_eq.mp hk, Option.not_isSome_iff_eq_none.mp hnew, Option.none_or]
  · rename_i hk
    rw [if_neg (fun heq => by simp [heq] at hk), Option.or_none]

theorem lookup_kept
    (h : sm.lookup k = some path) : (analyze L s i basePath sm).lookup k = some path := by
  induction s generalizing i basePath sm with
  | done => exact h
  | field name exported anonymous tag t rest ih =>
    refine ih ?_
    split
    · exact h
    · rw [lookup_addField, h, Option.some_or]
  | embed exported pointer inner rest ihinner ih => exact ih (ihinner h)

theorem lookup_skipped (hnew : sm.lookup k = none)
    (h : (!exported && !anonymous || decide (fieldKey L name tag ≠ k)) = true) :
    (if !exported && !anonymous then sm else addField (fieldKey L name tag) path sm).lookup k = none := by
  split
  · exact hnew
  · rename_i hskip
    rw [Bool.eq_false_iff.mpr hskip, Bool.false_or, decide_eq_true_iff] at h
    rw [lookup_addField, hnew, if_neg h.symm, Option.none_or]

theorem lookup_other
    (hnew : sm.lookup k = none) (h : k ∉ keys L s) : (analyze L s i basePath sm).lookup k = none := by
  induction s generalizing i basePath sm with
  | done => exact hnew
  | field name exported anonymous tag t rest ih =>
    rw [not_mem_field] at h
    exact ih (lookup_skipped hnew h.1) h.2
  | embed exported pointer inner rest ihinner ih =>
    rw [keys, mem_append, not_or] at h
    exact ih (ihinner hnew h.1) h.2

theorem lookup_path (hnodup : (keys L s).Nodup) (hnew : sm.lookup k = none) (h : k ∈ keys L s) :
    ∃ j path, (analyze L s i basePath sm).lookup k = some (basePath++(i+j)::path) ∧
      ∀ (x : Target R s) value, setField s x (j::path) value = write L k value s x := by
  induction s generalizing i basePath sm with
  | done => cases h
  | field name exported anonymous tag t rest ih =>
    rw [keys] at hnodup
    rw [analyze]
    by_cases hskip : (!exported && !anonymous || decide (fieldKey L name tag ≠ k)) = true
    · have hmem : k ∈ keys L rest := by
        by_contra hmem
        exact not_mem_field.mpr ⟨hskip,hmem⟩ h
      have hrest : (keys L rest).Nodup := by
        split at hnodup
        · exact hnodup
        · exact hnodup.of_cons
      obtain ⟨j,path,hlookup,hset⟩ := @ih (i+1) basePath _ hrest (lookup_skipped hnew hskip) hmem
      refine ⟨j+1,path,?_,fun x value => ?_⟩
      · rw [hlookup, Nat.add_assoc, Nat.add_comm 1]
      · rw [setField, write, if_pos hskip, hset]
        cases write L k value rest x.2 <;> rfl
    rw [Bool.not_eq_true, Bool.or_eq_false_iff, decide_eq_false_iff_not, not_not] at hskip
    obtain ⟨hskip,rfl⟩ := hskip
    rw [hskip, if_neg Bool.false_ne_true, nodup_cons] at hnodup
    refine ⟨0,[],?_,fun x value => ?_⟩
    · rw [hskip, if_neg Bool.false_ne_true]
      refine lookup_kept ?_
      rw [lookup_addField, hnew, if_pos rfl]
      rfl
    · rw [setField, write, if_neg (by simp [hskip]), write_other hnodup.1]
      cases assign exported x.1 value <;> rfl
  | embed exported pointer inner rest ihinner ih =>
    have hparts := nodup_append.mp hnodup
    rw [analyze]
    by_cases hin : k ∈ keys L inner
    · obtain ⟨j,path,hlookup,hset⟩ := @ihinner 0 (basePath++[i]) _ hparts.1 hnew hin
      refine ⟨0,(0+j)::path,?_,fun x value => ?_⟩
      · rw [lookup_kept hlookup, append_assoc]
        rfl
      have hrest : k ∉ keys L rest := fun hmem => hparts.2.2 k hin k hmem rfl
      have hstep : (setField inner · (j::path) value) = write L k value inner :=
        funext fun y => hset y value
      rw [setField, write, if_pos hin, write_other hrest, Nat.zero_add, hstep]
      cases Held.descend exported pointer (zeroOf inner) (write L k value inner) x.1 <;> rfl
    obtain ⟨j,path,hlookup,hset⟩ := @ih (i+1) basePath
      (analyze L inner 0 (basePath++[i]) sm) hparts.2.1 (lookup_other hnew hin)
      ((mem_append.mp h).resolve_left hin)
    refine ⟨j+1,path,?_,fun x value => ?_⟩
    · rw [hlookup, Nat.add_assoc, Nat.add_comm 1]
    · rw [setField, write, if_neg hin, hset]
      cases write L k value rest x.2 <;> rfl

/-! ## Rows without paths -/

def writeRow (L : Letters) (row : Row R) (s : Struct R.Ty) (x : Target R s) : Option (Target R s) :=
  row.foldlM (fun x c => write L (L.toLower c.1) c.2 s x) x

theorem bindRow_eq (h : (keys L s).Nodup) (x : Target R s) :
    bindRow L s row x = writeRow L row s x := by
  have hstep : bindColumn L s = fun x c => write L (L.toLower c.1) c.2 s x := by
    funext x c
    rw [bindColumn]
    by_cases hk : L.toLower c.1 ∈ keys L s
    · obtain ⟨j,path,hlookup,hset⟩ := @lookup_path _ _ _ s 0 [] _ h lookup_nil hk
      rw [hlookup, Nat.zero_add]
      exact hset x c.2
    · rw [lookup_other lookup_nil hk, write_other hk]
  rw [bindRow, hstep, writeRow]

theorem foldlM_both {α β γ : Type} {F : α × β → γ → Option (α × β)} {f : α → γ → Option α}
    {g : β → γ → Option β} (h : ∀ a b c, F (a,b) c = both (f a c) (g b c)) (l : List γ) (a : α) (b : β) :
    l.foldlM F (a,b) = both (l.foldlM f a) (l.foldlM g b) := by
  induction l generalizing a b with
  | nil => rfl
  | cons c l ih =>
    rw [foldlM_cons, foldlM_cons, foldlM_cons, h]
    cases f a c with
    | none => rfl
    | some a' =>
      cases g b c with
      | none => cases hl : l.foldlM f a' <;> simp [both, hl]
      | some b' => exact ih a' b'

def writeField (L : Letters) (row : Row R) (key : String) {t : R.Ty} (exported anonymous : Bool)
    (v : R.Val t) : Option (R.Val t) := row.foldlM (fun v c =>
  if !exported && !anonymous || key ≠ L.toLower c.1 then some v else assign exported v c.2) v

theorem writeRow_field
    (x : Target R (.field name exported anonymous tag t rest)) : writeRow L row _ x =
      both (writeField L row (fieldKey L name tag) exported anonymous x.1) (writeRow L row rest x.2) :=
  foldlM_both (fun _ _ _ => rfl) row x.1 x.2

def Touched (L : Letters) (row : Row R) (s : Struct R.Ty) : Prop := ∃ c ∈ row, L.toLower c.1 ∈ keys L s

theorem writeRow_untouched (h : ¬Touched L row s) (x : Target R s) :
    writeRow L row s x = some x := by
  induction row with
  | nil => rfl
  | cons c row ih =>
    have hc : L.toLower c.1 ∉ keys L s := fun hk => h ⟨c,mem_cons_self ..,hk⟩
    rw [writeRow, foldlM_cons, write_other hc]
    exact ih fun ⟨d,hd,hk⟩ => h ⟨d,mem_cons_of_mem _ hd,hk⟩

def writeHeld (L : Letters) (row : Row R) (exported pointer : Bool) (inner : Struct R.Ty)
    (h : Held pointer (Target R inner)) : Option (Held pointer (Target R inner)) :=
  row.foldlM (fun h c => if L.toLower c.1 ∈ keys L inner then
    Held.descend exported pointer (zeroOf inner) (write L (L.toLower c.1) c.2 inner) h else some h) h

theorem writeRow_embed (x : Target R (.embed exported pointer inner rest)) : writeRow L row _ x =
      both (writeHeld L row exported pointer inner x.1) (writeRow L row rest x.2) :=
  foldlM_both (fun _ _ _ => rfl) row x.1 x.2

theorem content_fill {T : Type} (pointer : Bool) (x : T) :
    Held.content pointer (Held.fill pointer x) = some x := by
  cases pointer <;> rfl

theorem writeHeld_untouched (hno : ¬Touched L row inner)
    (h : Held pointer (Target R inner)) : writeHeld L row exported pointer inner h = some h := by
  induction row with
  | nil => rfl
  | cons c row ih =>
    rw [writeHeld, foldlM_cons, if_neg fun hk => hno ⟨c,mem_cons_self ..,hk⟩]
    exact ih fun ⟨d,hd,hk⟩ => hno ⟨d,mem_cons_of_mem _ hd,hk⟩

theorem touched_tail {c : String × Column R} (h : Touched L (c::row) inner)
    (hk : L.toLower c.1 ∉ keys L inner) : Touched L row inner := by
  obtain ⟨d,hd,hmem⟩ := h
  rcases mem_cons.mp hd with rfl | hd
  · exact absurd hmem hk
  · exact ⟨d,hd,hmem⟩

theorem writeHeld_touched (hyes : Touched L row inner) (h : Held pointer (Target R inner))
    (hset : (Held.content pointer h).isSome ∨ exported) : writeHeld L row exported pointer inner h =
      (writeRow L row inner ((Held.content pointer h).getD (zeroOf inner))).map (Held.fill pointer) := by
  induction row generalizing h with
  | nil =>
    obtain ⟨c,hc,_⟩ := hyes
    cases hc
  | cons c row ih =>
    rw [writeHeld, writeRow, foldlM_cons, foldlM_cons]
    by_cases hk : L.toLower c.1 ∈ keys L inner
    · rw [if_pos hk, Held.descend, if_neg (by simpa [Option.isSome_iff_ne_none, or_iff_not_imp_left] using hset)]
      cases write L (L.toLower c.1) c.2 inner ((Held.content pointer h).getD (zeroOf inner)) with
      | none => rfl
      | some y =>
        change writeHeld L row exported pointer inner (Held.fill pointer y) =
          (writeRow L row inner y).map (Held.fill pointer)
        by_cases hrow : Touched L row inner
        · rw [ih hrow _ (Or.inl (by rw [content_fill]; rfl)), content_fill, Option.getD_some]
        · rw [writeHeld_untouched hrow, writeRow_untouched hrow, Option.map_some]
    rw [if_neg hk, write_other hk]
    exact ih (touched_tail hyes hk) h hset

/-- A nil pointer that is embedded under an unexported name cannot be set. -/
theorem writeHeld_panics (hyes : Touched L row inner) {h : Held true (Target R inner)}
    (hnil : Held.content true h = none) : writeHeld L row false true inner h = none := by
  induction row with
  | nil =>
    obtain ⟨c,hc,_⟩ := hyes
    cases hc
  | cons c row ih =>
    rw [writeHeld, foldlM_cons]
    by_cases hk : L.toLower c.1 ∈ keys L inner
    · rw [if_pos hk, Held.descend, hnil]
      rfl
    · rw [if_neg hk]
      exact ih (touched_tail hyes hk)

/-! ## Fields -/

theorem writeField_eq (anonymous : Bool) (v : R.Val t)
    (h : ∀ c ∈ row, L.toLower c.1 = key → converted t c.2 ≠ some none) :
    writeField L row key true anonymous v = some ((valuesOf L row key t).getLastD v) := by
  induction row generalizing v with
  | nil => rfl
  | cons c row ih =>
    rw [forall_mem_cons] at h
    rw [writeField, foldlM_cons, valuesOf, filterMap_cons]
    by_cases hk : L.toLower c.1 = key
    · rw [if_neg (by simp [hk]), if_pos hk, assign]
      rcases hc : converted t c.2 with _ | _ | w
      · exact ih v h.2
      · exact absurd hc (h.1 hk)
      · rw [Option.join_some, getLastD_cons]
        exact ih w h.2
    · rw [if_pos (by simp [Ne.symm hk]), if_neg hk]
      exact ih v h.2

theorem writeField_hidden (v : R.Val t) : writeField L row key false anonymous v = some v := by
  induction row with
  | nil => rfl
  | cons c row ih =>
    rw [writeField, foldlM_cons, assign, if_neg Bool.false_ne_true, ite_self]
    exact ih

theorem writeField_returns {v v' : R.Val t} (h : writeField L row key true anonymous v = some v') :
    ∀ c ∈ row, L.toLower c.1 = key → converted t c.2 ≠ some none := by
  induction row generalizing v with
  | nil => exact forall_mem_nil _
  | cons c row ih =>
    rw [writeField, foldlM_cons] at h
    by_cases hk : L.toLower c.1 = key
    · rw [if_neg (by simp [hk]), assign] at h
      rcases hc : converted t c.2 with _ | _ | w
      · rw [hc] at h
        exact forall_mem_cons.mpr ⟨fun _ => by rw [hc]; simp,ih h⟩
      · rw [hc] at h
        cases h
      · rw [hc] at h
        exact forall_mem_cons.mpr ⟨fun _ => by rw [hc]; simp,ih h⟩
    · rw [if_pos (by simp [Ne.symm hk])] at h
      exact forall_mem_cons.mpr ⟨fun heq => absurd heq hk,ih h⟩

/-- A field is right if its key is its name in lower letters, no conversion panics and its
columns agree; or if there is no column for it, or nothing to see of one. -/
def FieldBindable (L : Letters) (row : Row R) (name tag : String) (t : R.Ty) : Prop :=
  if fieldKey L name tag = L.toLower (columnName name tag) then
    (∀ c ∈ row, L.toLower c.1 = fieldKey L name tag → converted t c.2 ≠ some none) ∧
      ∀ v ∈ wanted L row name tag t, ∀ w ∈ wanted L row name tag t, v = w
  else wanted L row name tag t = [] ∨ ∀ v w : R.Val t, v = w

theorem lower_fieldKey (name tag : String) :
    L.toLower (fieldKey L name tag) = L.toLower (columnName name tag) := by
  rw [fieldKey, columnName]
  split
  · rfl
  · exact L.lowered name

theorem fieldBindable_iff :
    (∀ v, ∃ v', writeField L row (fieldKey L name tag) true anonymous v = some v' ∧
      FieldExpected (wanted L row name tag t) v v') ↔ FieldBindable L row name tag t := by
  rw [FieldBindable]
  by_cases hkey : fieldKey L name tag = L.toLower (columnName name tag)
  · rw [if_pos hkey]
    constructor
    · intro h
      obtain ⟨v',hwrite,hv,_⟩ := h (R.zero t)
      exact ⟨writeField_returns hwrite,fun v hmem w hmem' => (hv v hmem).symm.trans (hv w hmem')⟩
    rintro ⟨hreturns,hagree⟩ v
    refine ⟨_,writeField_eq anonymous v hreturns,?_⟩
    rw [wanted, ← hkey] at hagree ⊢
    refine ⟨fun w hw => hagree _ ?_ w hw,fun hnil => by rw [hnil]; rfl⟩
    rw [getLastD_eq_getLast?, getLast?_eq_some_getLast (ne_nil_of_mem hw)]
    exact getLast_mem _
  rw [if_neg hkey]
  have huntouched : ∀ c ∈ row, L.toLower c.1 ≠ fieldKey L name tag := by
    intro c _ heq
    have := lower_fieldKey (L := L) name tag
    rw [← heq, L.lowered, heq] at this
    exact hkey this
  have hvalues : valuesOf L row (fieldKey L name tag) t = [] := by
    rw [valuesOf, filterMap_eq_nil_iff]
    intro c hc
    rw [if_neg (huntouched c hc)]
  have hwrite : ∀ v : R.Val t, writeField L row (fieldKey L name tag) true anonymous v = some v := by
    intro v
    rw [writeField_eq anonymous v fun c hc heq => absurd heq (huntouched c hc), hvalues]
    rfl
  constructor
  · intro h
    rcases hvals : wanted L row name tag t with _ | ⟨u,us⟩
    · exact Or.inl rfl
    have hall : ∀ v : R.Val t, v = u := by
      intro v
      obtain ⟨v',hv',hw,_⟩ := h v
      cases (hwrite v).symm.trans hv'
      exact hw u (by rw [hvals]; exact mem_cons_self ..)
    exact Or.inr fun v w => (hall v).trans (hall w).symm
  · intro h v
    refine ⟨v,hwrite v,fun w hw => ?_,fun _ => rfl⟩
    exact (h.resolve_left (ne_nil_of_mem hw)) v w

/-! ## Structs -/

/-- The condition on all fields; behind a pointer a column has a key if and only if a field
gets a value, and no column has one if the pointer is unexported. -/
def Bindable (L : Letters) (row : Row R) : Struct R.Ty → Prop
  | .done => True
  | .field name exported _ tag t rest =>
    (exported = true → FieldBindable L row name tag t) ∧ Bindable L row rest
  | .embed exported pointer inner rest => (Bindable L row inner ∧ (pointer = true →
    (Touched L row inner ↔ Wanted L row inner) ∧ (exported = false → ¬Touched L row inner))) ∧
      Bindable L row rest

theorem both_eq_some {α β : Type} {a : Option α} {b : Option β} {p : α × β} :
    both a b = some p ↔ a = some p.1 ∧ b = some p.2 := by
  cases a <;> cases b <;> simp [both, Prod.ext_iff]

theorem forall_both_iff {α β : Type} (a₀ : α) (b₀ : β) {f : α → Option α} {g : β → Option β}
    {P : α → α → Prop} {Q : β → β → Prop} :
    (∀ p : α × β, ∃ q, both (f p.1) (g p.2) = some q ∧ P p.1 q.1 ∧ Q p.2 q.2) ↔
      (∀ a, ∃ a', f a = some a' ∧ P a a') ∧ ∀ b, ∃ b', g b = some b' ∧ Q b b' := by
  constructor
  · intro h
    refine ⟨fun a => ?_,fun b => ?_⟩
    · obtain ⟨q,hq,hP,_⟩ := h (a,b₀)
      exact ⟨q.1,(both_eq_some.mp hq).1,hP⟩
    · obtain ⟨q,hq,_,hQ⟩ := h (a₀,b)
      exact ⟨q.2,(both_eq_some.mp hq).2,hQ⟩
  rintro ⟨hf,hg⟩ ⟨a,b⟩
  obtain ⟨a',ha,hP⟩ := hf a
  obtain ⟨b',hb,hQ⟩ := hg b
  exact ⟨(a',b'),both_eq_some.mpr ⟨ha,hb⟩,hP,hQ⟩

theorem held_iff :
    (∀ h, ∃ h', writeHeld L row exported pointer inner h = some h' ∧ HeldExpected (Wanted L row inner)
      (zeroOf inner) (Expected L row inner) (Held.content pointer h) (Held.content pointer h')) ↔
    (∀ x, ∃ y, writeRow L row inner x = some y ∧ Expected L row inner x y) ∧ (pointer = true →
      (Touched L row inner ↔ Wanted L row inner) ∧ (exported = false → ¬Touched L row inner)) := by
  by_cases htouched : Touched L row inner
  · have hset := @writeHeld_touched R L row exported pointer inner htouched
    simp only [htouched, true_iff, not_true]
    constructor
    · intro h
      refine ⟨fun x => ?_,?_⟩
      · obtain ⟨_,hy,hexp⟩ := h (Held.fill pointer x)
        rw [hset _ (Or.inl (by rw [content_fill]; rfl)), content_fill, Option.map_eq_some_iff] at hy
        obtain ⟨y,hy,rfl⟩ := hy
        rw [content_fill, content_fill] at hexp
        exact ⟨y,hy,hexp⟩
      rintro rfl
      obtain ⟨_,hy,hexp⟩ := h none
      cases exported with
      | false =>
        cases (writeHeld_panics htouched rfl).symm.trans hy
      | true =>
        obtain ⟨y,_,rfl⟩ := Option.map_eq_some_iff.mp ((hset none (Or.inr rfl)).symm.trans hy)
        exact ⟨hexp.1,fun h => Bool.noConfusion h⟩
    rintro ⟨hinner,hpointer⟩ h
    obtain ⟨y,hy,hexp⟩ := hinner ((Held.content pointer h).getD (zeroOf inner))
    refine ⟨Held.fill pointer y,?_,?_⟩
    · rw [hset h, hy, Option.map_some]
      cases pointer with
      | false => exact Or.inl rfl
      | true => exact Or.inr (Bool.not_eq_false _ ▸ (hpointer rfl).2)
    cases pointer with
    | false => exact hexp
    | true =>
      cases h with
      | none => exact ⟨(hpointer rfl).1,hexp⟩
      | some x => exact hexp
  simp only [writeHeld_untouched htouched, writeRow_untouched htouched, htouched, false_iff,
    Option.some.injEq, exists_eq_left', not_false_eq_true, implies_true, and_true]
  constructor
  · intro h
    refine ⟨fun x => ?_,?_⟩
    · have := h (Held.fill pointer x)
      rwa [content_fill] at this
    · rintro rfl
      exact h none
  rintro ⟨hinner,hpointer⟩ h
  cases pointer with
  | false => exact hinner h
  | true =>
    cases h with
    | none => exact hpointer rfl
    | some x => exact hinner x

theorem binds_iff :
    (∀ x, ∃ y, writeRow L row s x = some y ∧ Expected L row s x y) ↔ Bindable L row s := by
  induction s with
  | done => exact iff_of_true (fun x => ⟨x,writeRow_untouched (by rintro ⟨_,_,hk⟩; cases hk) x,trivial⟩) trivial
  | field name exported anonymous tag t rest ih =>
    have hfield : (∀ v, ∃ v', writeField L row (fieldKey L name tag) exported anonymous v = some v' ∧
        if exported then FieldExpected (wanted L row name tag t) v v' else v' = v) ↔
        (exported = true → FieldBindable L row name tag t) := by
      cases exported with
      | true => simpa using fieldBindable_iff
      | false => simp [writeField_hidden]
    rw [Bindable, ← hfield, ← ih, ← forall_both_iff (R.zero t) (zeroOf rest)]
    simp only [writeRow_field]
    exact Iff.rfl
  | embed exported pointer inner rest ihinner ih =>
    rw [Bindable, ← ihinner, ← held_iff, ← ih,
      ← forall_both_iff (zeroOf (.embed exported pointer inner rest)).1 (zeroOf rest)]
    simp only [writeRow_embed]
    exact Iff.rfl

theorem lower_keys (s : Struct R.Ty) : (keys L s).map L.toLower = (columns s).map L.toLower := by
  induction s with
  | done => rfl
  | field name exported anonymous tag t rest ih =>
    rw [keys, columns]
    split
    · exact ih
    · rw [map_cons, map_cons, lower_fieldKey, ih]
  | embed exported pointer inner rest ihinner ih =>
    rw [keys, columns, map_append, map_append, ihinner, ih]

/-- Every target is bound as expected if and only if the struct is bindable from the row. -/
theorem bind_complete_iff (L : Letters) (s : Struct R.Ty) (row : Row R)
    (hdistinct : ((columns s).map L.toLower).Nodup) :
    (∀ x, ∃ y, bind L s row (.pointer x) = some (.ok y) ∧ Expected L row s x y) ↔ Bindable L row s := by
  rw [← lower_keys] at hdistinct
  rw [← binds_iff]
  simp only [bind, bindRow_eq hdistinct.of_map, Option.map_eq_some_iff, Except.ok.injEq, exists_eq_right]

theorem bind_single (s : Struct R.Ty) (c : String × Column R) (x : Target R s) :
    bind L s [c] (.pointer x) = (bindColumn L s x c).map .ok := by
  rw [bind, bindRow, foldlM_cons]
  cases bindColumn L s x c <;> rfl

/-! ## Texts -/

abbrev texts : Reflect where
  Ty := Unit
  Val _ := String
  zero _ := ""
  convertibleTo _ _ := true
  convert v _ := some v
  elem _ := none

theorem toLower_toLower (c : Char) : c.toLower.toLower = c.toLower := by
  by_cases hsame : c.toLower = c
  · rw [hsame, hsame]
  unfold Char.toLower
  grind

def ascii : Letters where
  toLower := String.map Char.toLower
  lowered s := by
    rw [String.map_map]
    exact congrArg (String.map · s) (funext toLower_toLower)

instance (t : texts.Ty) : DecidableEq (texts.Val t) := inferInstanceAs (DecidableEq String)

def text (s : String) : Column texts := some ⟨(),s⟩

def tagged (tag : String) : Struct texts.Ty := .field "Name" true false tag () .done

def address : Struct texts.Ty :=
  .field "City" true false "city" () (.field "Street" true false "street,omitempty" () .done)

def user : Struct texts.Ty :=
  .field "ID" true false "" () (.embed true true address (tagged "name"))

def userRow : Row texts := [("NAME",text "a"), ("City",text "b"), ("id",text "7"), ("age",text "9")]

theorem wanted_bindable {row : Row texts} {name tag v : String}
    (hkey : fieldKey ascii name tag = ascii.toLower (columnName name tag))
    (hwanted : wanted ascii row name tag () = [] ∨ wanted ascii row name tag () = [v]) :
    FieldBindable ascii row name tag () := by
  rw [FieldBindable, if_pos hkey]
  constructor
  · intro c _ _
    cases c.2 <;> simp [converted]
  · rcases hwanted with h | h <;> simp [h]

theorem ascii_lower {s t : String} : ascii.toLower s = t ↔ s.toList.map Char.toLower = t.toList := by
  rw [← String.toList_inj]
  simp [ascii]

theorem lowered_names : ascii.toLower "NAME" = "name" ∧ ascii.toLower "City" = "city" ∧
    ascii.toLower "id" = "id" ∧ ascii.toLower "age" = "age" ∧ ascii.toLower "ID" = "id" ∧
      ascii.toLower "city" = "city" ∧ ascii.toLower "street" = "street" ∧ ascii.toLower "name" = "name" := by
  simp [ascii_lower]

theorem tag_names : tagName "" = "" ∧ tagName "city" = "city" ∧ tagName "name" = "name" ∧
    tagName "street,omitempty" = "street" := by
  simp [tagName]

theorem user_bindable : Wanted ascii userRow address ∧ Bindable ascii userRow user := by
  have hid : FieldBindable ascii userRow "ID" "" () := by
    apply wanted_bindable (v := "7") <;>
      simp [fieldKey, wanted, valuesOf, columnName, userRow, text, converted, lowered_names, tag_names]
  have hcity : FieldBindable ascii userRow "City" "city" () := by
    apply wanted_bindable (v := "b") <;>
      simp [fieldKey, wanted, valuesOf, columnName, userRow, text, converted, lowered_names, tag_names]
  have hstreet : FieldBindable ascii userRow "Street" "street,omitempty" () := by
    apply wanted_bindable (v := "") <;>
      simp [fieldKey, wanted, valuesOf, columnName, userRow, text, converted, lowered_names, tag_names]
  have hname : FieldBindable ascii userRow "Name" "name" () := by
    apply wanted_bindable (v := "a") <;>
      simp [fieldKey, wanted, valuesOf, columnName, userRow, text, converted, lowered_names, tag_names]
  have htouched : Touched ascii userRow address :=
    ⟨("City",text "b"),.tail _ (.head _),by simp [keys, address, fieldKey, lowered_names, tag_names]⟩
  have hwanted : Wanted ascii userRow address := by
    simp [address, Wanted, wanted, valuesOf, columnName, userRow, text, converted, lowered_names, tag_names]
  have haddress : Bindable ascii userRow address := by
    simp only [Bindable, address, hcity, hstreet, implies_true, and_true]
  simp [Bindable, user, tagged, hid, hname, haddress, htouched, hwanted]

/-- A field without a tag, two fields behind a pointer that is allocated, of which one has no
column, and a field with a tag. -/
theorem letters_ignored : ∃ y, bind ascii user userRow (.pointer (zeroOf user)) = some (.ok y) ∧
    Expected ascii userRow user (zeroOf user) y ∧ Wanted ascii userRow address := by
  have hdistinct : ((columns user).map ascii.toLower).Nodup := by
    simp [columns, user, address, tagged, columnName, lowered_names, tag_names]
  obtain ⟨hwanted,hbindable⟩ := user_bindable
  obtain ⟨y,hy,hexpected⟩ := (bind_complete_iff ascii user userRow hdistinct).mpr hbindable
    (zeroOf user)
  exact ⟨y,hy,hexpected,hwanted⟩

def nested : Struct texts.Ty := .embed true true (tagged "name") .done

/-- A tag with capitals is never found, and a column without a value allocates. -/
theorem capitals_and_null :
    (∃ y, bind ascii (tagged "userID") [("userID",text "7")] (.pointer (zeroOf (tagged "userID"))) =
        some (.ok y) ∧
      ¬Expected ascii [("userID",text "7")] (tagged "userID") (zeroOf (tagged "userID")) y) ∧
    ∃ y, bind ascii nested [("name",none)] (.pointer (zeroOf nested)) = some (.ok y) ∧
      ¬Expected ascii [("name",none)] nested (zeroOf nested) y := by
  have hid : wanted ascii [("userID",text "7")] "Name" "userID" () = ["7"] := by decide +kernel
  have hnone : (analyze ascii (tagged "userID") 0 [] []).lookup (ascii.toLower "userID") = none := by
    decide +kernel
  have hpath : (analyze ascii nested 0 [] []).lookup (ascii.toLower "name") = some [0,0] := by
    decide +kernel
  have hnull : @wanted texts ascii [("name",none)] "Name" "name" () = [] := by decide +kernel
  refine ⟨⟨zeroOf (tagged "userID"),?_,fun h => ?_⟩,(some (zeroOf (tagged "name")),()),?_,fun h => ?_⟩
  · rw [bind_single, bindColumn, hnone]
    rfl
  · have := h.1.1 "7" (by rw [hid]; exact mem_cons_self ..)
    revert this
    decide
  · rw [bind_single, bindColumn, hpath]
    rfl
  · rcases h.1.1 with ⟨_,hsome⟩ | hno
    · exact hsome hnull
    · exact hno

end GoCommon.RowBinding
