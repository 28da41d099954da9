import GoCommon.MongoPagination

/-!
# Filters and sorts as maps

The conditions of a filter and the keys of a sort are kept in maps from field names. A later
condition on a field replaces an earlier one. A map has no order of its own: its entries come to
the database in the order of some iteration.
-/

set_option autoImplicit false

namespace GoCommon.MongoMaps
open List QueryOptions MongoPagination

variable {V : Type}

/-! ## Conditions on fields -/

section Conditions
variable [Driver]

def lastCond (key : String) : List (SearchFilter V) → Option (Cond V)
  | [] => none
  | f::fs => (lastCond key fs).or (if f.key = key then filterCondition f else none)

theorem lastCond_append {key : String} {fs gs : List (SearchFilter V)} :
    lastCond key (fs++gs) = (lastCond key gs).or (lastCond key fs) := by
  induction fs with
  | nil => rw [nil_append, lastCond, Option.or_none]
  | cons f fs ih => rw [cons_append, lastCond, ih, lastCond, Option.or_assoc]

omit [Driver] in
theorem mem_put {β : Type} {key k : String} {b c : β} {m : Fields β} :
    (k,b) ∈ put key c m ↔ k = key ∧ b = c ∨ k ≠ key ∧ (k,b) ∈ m := by
  rw [put, mem_append, mem_filter, mem_singleton, Prod.mk.injEq, bne_iff_ne]
  exact ⟨fun h => h.elim (fun h => Or.inr ⟨h.2,h.1⟩) Or.inl,
    fun h => h.elim Or.inr (fun h => Or.inl ⟨h.2,h.1⟩)⟩

theorem mem_buildFilter {fs : List (SearchFilter V)} {key : String} {c : Cond V} :
    (key,c) ∈ buildFilter fs ↔ lastCond key fs = some c := by
  induction fs using List.reverseRecOn with
  | nil => exact iff_of_false nofun nofun
  | append_singleton fs f ih =>
    rw [buildFilter] at ih
    rw [buildFilter, foldl_append, foldl_cons, foldl_nil, lastCond_append, lastCond, lastCond,
      Option.none_or]
    cases hcond : filterCondition f with
    | none => rw [ite_self, Option.none_or, ih]
    | some c' =>
      rw [mem_put]
      by_cases hkey : f.key = key
      · rw [if_pos hkey, Option.some_or, Option.some.injEq]
        constructor
        · rintro (⟨_,rfl⟩ | ⟨hne,_⟩)
          · rfl
          · exact absurd hkey.symm hne
        · intro heq
          exact Or.inl ⟨hkey.symm,heq.symm⟩
      rw [if_neg hkey, Option.none_or, ← ih]
      constructor
      · rintro (⟨heq,_⟩ | ⟨_,hmem⟩)
        · exact absurd heq.symm hkey
        · exact hmem
      · intro hmem
        exact Or.inr ⟨Ne.symm hkey,hmem⟩

section Matching
variable {Doc R : Type} [LinearOrder R] (db : Database V Doc R)

theorem matching_iff (fs : List (SearchFilter V)) (d : Doc) : matching db fs d = true ↔
    ∀ key c, lastCond key fs = some c → db.holds key c d = true := by
  rw [matching, Database.selected, all_eq_true, Prod.forall]
  exact forall_congr' fun key => forall_congr' fun c => by rw [mem_buildFilter]

end Matching

def Agree (fs gs : List (SearchFilter V)) : Prop :=
  ∀ key c c', lastCond key fs = some c → lastCond key gs = some c' → c = c'

theorem matching_append {Doc R : Type} [LinearOrder R] (db : Database V Doc R)
    {fs gs : List (SearchFilter V)} (h : Agree fs gs) (d : Doc) :
    matching db (fs++gs) d = true ↔ matching db fs d = true ∧ matching db gs d = true := by
  rw [matching_iff, matching_iff, matching_iff]
  constructor
  · intro hall
    constructor
    · intro key c hc
      apply hall
      rw [lastCond_append]
      cases hg : lastCond key gs with
      | none => rw [Option.none_or, hc]
      | some c' => rw [Option.some_or, h key c c' hc hg]
    · intro key c hc
      apply hall
      rw [lastCond_append, hc, Option.some_or]
  rintro ⟨hfs,hgs⟩ key c hc
  rw [lastCond_append, Option.or_eq_some_iff] at hc
  rcases hc with hc | ⟨_,hc⟩
  · exact hgs key c hc
  · exact hfs key c hc

/-! ## A replaced condition is lost -/

def Cond.isComparison : Cond V → Bool
  | .lt _ => true
  | .gt _ => true
  | _ => false

theorem filterCondition_plain {f : SearchFilter V} {c : Cond V} (h : filterCondition f = some c) :
    Cond.isComparison c = false := by
  rw [filterCondition] at h
  split at h
  · cases h
  split at h
  · split at h
    · split at h
      · cases h
      · cases h
        rfl
    · cases h
  · split at h
    · obtain ⟨oid,_,rfl⟩ := Option.map_eq_some_iff.mp h
      rfl
    · cases h
      rfl
  · cases h
    rfl

theorem lastCond_plain {key : String} {fs : List (SearchFilter V)} {c : Cond V}
    (h : lastCond key fs = some c) : Cond.isComparison c = false := by
  induction fs with
  | nil => cases h
  | cons f fs ih =>
    rw [lastCond, Option.or_eq_some_iff] at h
    rcases h with h | ⟨_,h⟩
    · exact ih h
    · split at h
      · exact filterCondition_plain h
      · cases h

open Classical in
noncomputable def refuting (key : String) (c : Cond V) : Database V Unit ℕ where
  id _ := .null
  rank _ := 0
  kind _ := 0
  holds k c' _ := !Cond.isComparison c' && !decide (k = key ∧ c' = c)
  before _ _ _ := true
  lt_id _ _ := by simp [Cond.isComparison]
  gt_id _ _ := by simp [Cond.isComparison]
  asc_id _ _ := by simp
  desc_id _ _ := by simp
  total _ _ _ := by simp
  trans _ _ _ _ := by simp

omit [Driver] in
theorem refuting_holds {key k : String} {c c' : Cond V} (hplain : Cond.isComparison c' = false) :
    (refuting key c).holds k c' () = true ↔ ¬(k = key ∧ c' = c) := by
  simp [refuting, hplain]

/-- Adding filters narrows the result, in every database, exactly if no field is given another
condition than before. -/
theorem filters_conjunctive_iff (fs gs : List (SearchFilter V)) :
    (∀ (Doc R : Type) [LinearOrder R] (db : Database V Doc R) (d : Doc),
      matching db (fs++gs) d = true ↔ matching db fs d = true ∧ matching db gs d = true) ↔
      Agree fs gs := by
  constructor
  · intro h key c c' hc hc'
    by_contra hne
    have hall : matching (refuting key c) (fs++gs) () = true := by
      rw [matching_iff]
      intro k b hb
      rw [refuting_holds (lastCond_plain hb)]
      rintro ⟨rfl,rfl⟩
      rw [lastCond_append, hc'] at hb
      exact hne (Option.some.inj hb).symm
    have hfs := (matching_iff _ fs ()).mp ((h Unit ℕ (refuting key c) ()).mp hall).1 key c hc
    exact (refuting_holds (lastCond_plain hc)).mp hfs ⟨rfl,rfl⟩
  · intro h Doc R _ db d
    exact matching_append db h d

end Conditions

def statuses : Database Unit String ℕ where
  id _ := .null
  rank _ := 0
  kind _ := 0
  holds
    | "status", .equals (.text s), d => d = s
    | "_id", .lt _, _ => false
    | "_id", .gt _, _ => false
    | _, _, _ => true
  before _ _ _ := true
  lt_id _ _ := rfl
  gt_id _ _ := rfl
  asc_id _ _ := rfl
  desc_id _ _ := rfl
  total _ _ _ := Or.inl rfl
  trans _ _ _ _ _ _ := rfl

/-- A filter for open orders replaces one for paid orders. -/
theorem second_status_replaces_first :
    let paid : SearchFilter Unit := ⟨"status",.text "paid",.exact⟩
    let opened : SearchFilter Unit := ⟨"status",.text "open",.exact⟩
    ¬∀ d, matching statuses ([paid]++[opened]) d = true ↔
      matching statuses [paid] d = true ∧ matching statuses [opened] d = true := by
  intro paid opened h
  exact absurd ((h "open").mp (by decide +kernel)).1 (by decide +kernel)

/-! ## Sorts -/

def compareBy {Doc R : Type} [LinearOrder R] (rank : String → Doc → R) :
    Fields ℤ → Doc → Doc → Ordering
  | [], _, _ => .eq
  | (key,order)::rest, d, d' =>
    (if order = 1 then compare (rank key d) (rank key d')
      else compare (rank key d') (rank key d)).then (compareBy rank rest d d')

def listed (sorts : List SortOption) : Fields ℤ := sorts.map (fun s => (s.key,s.order))

def sortEntry (s : SortOption) : String × ℤ :=
  (s.key,if s.order ≠ 1 ∧ s.order ≠ -1 then -1 else s.order)

theorem sortEntry_order {s : SortOption} : (sortEntry s).2 = 1 ↔ s.order = 1 := by
  rw [sortEntry]
  split <;> omega

section Entries
variable {Doc R : Type} [LinearOrder R] (rank : String → Doc → R)

theorem compareBy_entries {sorts : List SortOption} {d d' : Doc} :
    compareBy rank (sorts.map sortEntry) d d' = compareBy rank (listed sorts) d d' := by
  induction sorts with
  | nil => rfl
  | cons s sorts ih =>
    rw [map_cons, compareBy, ih]
    simp only [sortEntry_order]
    rfl

end Entries

theorem foldl_put {sorts : List SortOption} (m : Fields ℤ) (hkeys : ∀ s ∈ sorts, s.key ≠ "")
    (hnodup : (sorts.map SortOption.key).Nodup)
    (hm : ∀ s ∈ sorts, ¬m.any (fun e => e.1 = s.key)) :
    sorts.foldl (fun m s => if s.key = "" then m
      else put s.key (if s.order ≠ 1 ∧ s.order ≠ -1 then -1 else s.order) m) m =
        m++sorts.map sortEntry := by
  induction sorts generalizing m with
  | nil => rw [foldl_nil, map_nil, append_nil]
  | cons s sorts ih =>
    obtain ⟨hout,hrest⟩ := nodup_cons.mp hnodup
    rw [foldl_cons, if_neg (hkeys s mem_cons_self),
      put_of_absent (hm s mem_cons_self),
      ih _ (fun t ht => hkeys t (mem_cons_of_mem _ ht)) hrest, append_assoc]
    · rfl
    intro t ht
    rw [any_append, Bool.or_eq_true, not_or]
    refine ⟨hm t (mem_cons_of_mem _ ht),?_⟩
    simp only [any_cons, any_nil, Bool.or_false, decide_eq_true_eq]
    intro heq
    exact hout (heq ▸ mem_map_of_mem ht)

theorem buildSort_eq {sorts : List SortOption} (hkeys : ∀ s ∈ sorts, s.key ≠ "")
    (hnodup : (sorts.map SortOption.key).Nodup) (hne : sorts ≠ []) :
    buildSort sorts = sorts.map sortEntry := by
  have hfold := foldl_put [] hkeys hnodup (fun _ _ => nofun)
  rw [nil_append] at hfold
  rw [buildSort, hfold, if_neg]
  rwa [map_eq_nil_iff]

def opposed (s s' : SortOption) (key : String) : Bool → ℤ
  | false => 0
  | true => if key = s.key then (if s.order = 1 then 1 else -1)
      else if key = s'.key then (if s'.order = 1 then -1 else 1) else 0

theorem opposed_by_first {s s' : SortOption} {rest : Fields ℤ} :
    compareBy (opposed s s') ((s.key,s.order)::rest) false true = .lt := by
  rw [compareBy, opposed, opposed, if_pos rfl]
  by_cases h : s.order = 1
  · rw [if_pos h, if_pos h]
    rfl
  · rw [if_neg h, if_neg h]
    rfl

theorem opposed_by_second {s s' : SortOption} (h : s'.key ≠ s.key) (rest : Fields ℤ) :
    compareBy (opposed s s') (sortEntry s'::rest) false true = .gt := by
  have hentry : sortEntry s' = (s'.key,(sortEntry s').2) := rfl
  rw [hentry, compareBy, opposed, opposed, if_neg h]
  simp only [sortEntry_order]
  by_cases horder : s'.order = 1
  · rw [if_pos horder, if_pos horder]
    rfl
  · rw [if_neg horder, if_neg horder]
    rfl

/-- The database sorts by the keys of a request in their order, whatever the iteration of the
map, exactly if there is one key. -/
theorem sort_keeps_priority_iff (sorts : List SortOption) (hkeys : ∀ s ∈ sorts, s.key ≠ "")
    (hnodup : (sorts.map SortOption.key).Nodup) :
    (∀ (Doc R : Type) [LinearOrder R] (rank : String → Doc → R) (m : Fields ℤ),
      m.Perm (buildSort sorts) →
        ∀ d d', compareBy rank m d d' = compareBy rank (listed sorts) d d') ↔ sorts.length = 1 := by
  match sorts with
  | [] =>
    refine iff_of_false (fun h => ?_) (by decide)
    have := h Bool ℕ (fun _ d => d.toNat) [("created_at",-1)] (List.Perm.refl _) false true
    exact absurd this (by decide)
  | [s] =>
    refine iff_of_true (fun Doc R _ rank m hm d d' => ?_) rfl
    rw [buildSort_eq hkeys hnodup (cons_ne_nil _ _)] at hm
    rw [← compareBy_entries, perm_singleton.mp hm]
    rfl
  | s::s'::rest =>
    refine iff_of_false (fun h => ?_) (by simp)
    have hne : s'.key ≠ s.key := by
      intro heq
      have := (nodup_cons.mp hnodup).1
      exact this (heq ▸ mem_cons_self)
    have hbuild := buildSort_eq hkeys hnodup (cons_ne_nil _ _)
    have hcmp := h Bool ℤ (opposed s s') (sortEntry s'::sortEntry s::rest.map sortEntry)
      (by rw [hbuild]; exact List.Perm.swap _ _ _) false true
    rw [opposed_by_second hne, listed, map_cons, opposed_by_first] at hcmp
    cases hcmp

/-- A map of one key has one order. -/
theorem one_key_keeps_priority : [("name",1)].Perm (buildSort [⟨"name",1⟩]) ∧
    compareBy (fun _ (d : ℕ) => d) [("name",1)] 0 1 =
      compareBy (fun _ (d : ℕ) => d) (listed [⟨"name",1⟩]) 0 1 :=
  ⟨by decide,(sort_keeps_priority_iff [⟨"name",1⟩] (by decide) (by decide)).mpr rfl ℕ ℕ
    (fun _ d => d) [("name",1)] (by decide) 0 1⟩

/-- Two keys that come to the database the other way round. -/
theorem two_keys_swapped :
    [("age",1), ("name",1)].Perm (buildSort [⟨"name",1⟩, ⟨"age",1⟩]) ∧
      compareBy (fun key (d : ℕ × ℕ) => if key = "name" then d.1 else d.2) [("age",1), ("name",1)]
        (0,1) (1,0) ≠
      compareBy (fun key (d : ℕ × ℕ) => if key = "name" then d.1 else d.2)
        (listed [⟨"name",1⟩, ⟨"age",1⟩]) (0,1) (1,0) := by
  decide +kernel

end GoCommon.MongoMaps
