import Mathlib.Data.String.Basic
import GoCommon.KeysetWalk
import GoCommon.QueryOptions

/-!
# Pages of a SQL query

The selector collects predicates, an order, a limit and an offset. The database is a
parameter: it says which rows a predicate holds of, with NULL as a third answer, and how an
order compares two rows, and is bound to the meaning of `<` and of a descending order only for
the id column. The tables of Unicode are parameters too.
-/

set_option autoImplicit false

namespace GoCommon.SqlPagination
open List QueryOptions KeysetWalk

variable {V Row α : Type}

inductive Predicate (V : Type) where
  | containsFold (col s : String)
  | isIn (col : String) (vs : List (Value V))
  | notIn (col : String) (vs : List (Value V))
  | eq (col : String) (v : Value V)
  | neq (col : String) (v : Value V)
  | gt (col : String) (v : Value V)
  | gte (col : String) (v : Value V)
  | lt (col : String) (v : Value V)
  | lte (col : String) (v : Value V)
  | isNull (col : String)
  | notNull (col : String)

inductive Order where
  | asc (col : String)
  | desc (col : String)
  deriving DecidableEq

structure Selector (V : Type) where
  conditions : List (Predicate V)
  orders : List Order
  limit : Option ℤ
  offset : Option ℤ

def emptySelector : Selector V := ⟨[],[],none,none⟩

def listOf : Value V → List (Value V)
  | .list vs => vs
  | v => [v]

def filterPredicate : FilterType → String → Value V → Option (Predicate V)
  | .search, col, .text s => if s = "" then none else some (.containsFold col s)
  | .search, _, _ => none
  | .exact, col, v => some (.isIn col (listOf v))
  | .filter, col, v => some (.isIn col (listOf v))
  | .isIn, col, v => some (.isIn col (listOf v))
  | .notIn, col, v => some (.notIn col (listOf v))
  | .neq, col, v => some (.neq col v)
  | .gt, col, v => some (.gt col v)
  | .gte, col, v => some (.gte col v)
  | .lt, col, v => some (.lt col v)
  | .lte, col, v => some (.lte col v)
  | .isNull, col, _ => some (.isNull col)
  | .notNull, col, _ => some (.notNull col)
  | .eq, col, v => some (.eq col v)
  | .unknown _, col, v => some (.eq col v)

structure Letters where
  isUpper : Char → Bool
  toLower : Char → Char

def toSnakeCase (letters : Letters) (s : String) : String :=
  let lower (c : Char) : List Char := if letters.isUpper c then ['_',letters.toLower c] else [c]
  match s.toList with
  | [] => ""
  | c::cs => String.ofList ((if letters.isUpper c then letters.toLower c else c)::cs.flatMap lower)

def matchesColumnPattern (s : String) : Bool :=
  match s.toList with
  | [] => false
  | c::cs => (c.isAlpha || c = '_') && cs.all (fun c => c.isAlphanum || c = '_')

def safeColumn (letters : Letters) (allowed : List String) (key : String) : Option String :=
  let col := toSnakeCase letters key
  if matchesColumnPattern col && (allowed.isEmpty || allowed.contains col) then some col else none

section Building
variable (letters : Letters) (allowed : List String)

def filterCondition (f : SearchFilter V) : Option (Predicate V) :=
  if f.key = "" then none
  else if f.value.isNull && f.type != .isNull && f.type != .notNull then none
  else (safeColumn letters allowed f.key).bind (fun col => filterPredicate f.type col f.value)

def applyFilters (filters : List (SearchFilter V)) (selector : Selector V) : Selector V :=
  filters.foldl (fun sel f => match filterCondition letters allowed f with
    | some p => { sel with conditions := sel.conditions++[p] }
    | none => sel) selector

def sortOrder (s : SortOption) : Option Order :=
  if s.key = "" then none
  else (safeColumn letters allowed s.key).map (fun col => if s.order = -1 then .desc col else .asc col)

def applySort (sorts : List SortOption) (selector : Selector V) : Selector V :=
  let sorted := sorts.foldl (fun sel s => match sortOrder letters allowed s with
    | some o => { sel with orders := sel.orders++[o] }
    | none => sel) selector
  if sorted.orders = [] then { sorted with orders := [.desc "id"] } else sorted

def applyPagination : Option (PaginationOptions V) → Selector V → Selector V
  | none, selector => selector
  | some p, selector =>
    let p := p.setDefaults
    let limited := { selector with limit := some p.pageSize }
    if p.cursor.isCursor then { limited with conditions := limited.conditions++[.lt "id" p.cursor] }
    else { limited with offset := some ((p.page-1)*p.pageSize) }

def applyQueryOptions : Option (Options V) → Selector V → Selector V
  | none, selector => selector
  | some opts, selector => applyPagination opts.pagination
      (applySort letters allowed opts.sort (applyFilters letters allowed opts.filters selector))

end Building

/-! ## The database -/

structure Engine (V Row α : Type) [LinearOrder α] where
  id : Row → α
  value : α → Value V
  holds : Predicate V → Row → Option Bool
  before : List Order → Row → Row → Bool
  lt_id : ∀ a row, (value a).isCursor → holds (.lt "id" (value a)) row = some (decide (id row < a))
  desc_id : ∀ r r', before [.desc "id"] r r' = decide (id r' ≤ id r)

section Queries
variable [LinearOrder α] (db : Engine V Row α)

def Engine.selected (conditions : List (Predicate V)) (row : Row) : Bool :=
  conditions.all (fun p => db.holds p row = some true)

def Engine.run (table : List Row) (sel : Selector V) : List Row :=
  let sorted := (table.filter (db.selected sel.conditions)).insertionSort
    (fun r r' => db.before sel.orders r r')
  let rest := sorted.drop (sel.offset.getD 0).toNat
  match sel.limit with
  | some n => rest.take n.toNat
  | none => rest

variable (letters : Letters) (allowed : List String) (table : List Row)
  (filters : List (SearchFilter V)) (pageSize : ℤ)

def fetchPage (cursor : Value V) : List Row := db.run table
  (applyQueryOptions letters allowed (some ⟨some ⟨1,pageSize,cursor⟩,filters,[]⟩) emptySelector)

def Satisfies (row : Row) : Bool := db.selected (filters.filterMap (filterCondition letters allowed)) row

def sortedRows : List Row := (table.filter (Satisfies db letters allowed filters)).insertionSort
  (fun r r' => db.id r' ≤ db.id r)

def behind (cursor : Value V) : List Row :=
  (sortedRows db letters allowed table filters).filter
    (fun row => !cursor.isCursor || db.selected [.lt "id" cursor] row)

end Queries

/-! ## One page -/

theorem applyFilters_eq {letters : Letters} {allowed : List String} {filters : List (SearchFilter V)}
    {sel : Selector V} : applyFilters letters allowed filters sel =
      { sel with conditions := sel.conditions++filters.filterMap (filterCondition letters allowed) } := by
  induction filters generalizing sel with
  | nil => simp [applyFilters]
  | cons f fs ih =>
    rw [applyFilters, foldl_cons, ← applyFilters, ih]
    cases hf : filterCondition letters allowed f with
    | none => rw [filterMap_cons_none hf]
    | some p => rw [filterMap_cons_some hf, append_assoc, singleton_append]

section Pages
variable [LinearOrder α] (db : Engine V Row α)
variable (letters : Letters) (allowed : List String) (table : List Row)
  (filters : List (SearchFilter V)) (pageSize : ℤ)

theorem selected_append {ps qs : List (Predicate V)} {row : Row} :
    db.selected (ps++qs) row = (db.selected ps row && db.selected qs row) := all_append

theorem query_eq {cursor : Value V} :
    applyQueryOptions letters allowed (some ⟨some ⟨1,pageSize,cursor⟩,filters,[]⟩) emptySelector =
      ⟨filters.filterMap (filterCondition letters allowed)++(if cursor.isCursor then [.lt "id" cursor] else []),
        [.desc "id"],some (if pageSize ≤ 0 then 10 else pageSize),
          if cursor.isCursor then none else some 0⟩ := by
  simp only [applyQueryOptions, applyFilters_eq, applySort, applyPagination, emptySelector,
    PaginationOptions.setDefaults, foldl_nil, if_true, nil_append]
  cases cursor.isCursor <;> simp

theorem fetchPage_eq : fetchPage db letters allowed table filters pageSize =
    pageOf (effectiveSize pageSize) (behind db letters allowed table filters) := by
  funext cursor
  have hbefore : (fun r r' => db.before [.desc "id"] r r' = true) = fun r r' => db.id r' ≤ db.id r := by
    funext r r'
    rw [db.desc_id, decide_eq_true_eq]
  have hconditions : table.filter (db.selected (filters.filterMap (filterCondition letters allowed)++
      if cursor.isCursor then [.lt "id" cursor] else [])) =
        (table.filter (Satisfies db letters allowed filters)).filter
          (fun row => !cursor.isCursor || db.selected [.lt "id" cursor] row) := by
    rw [filter_filter]
    refine filter_congr (fun row _ => ?_)
    rw [selected_append, Bool.and_comm]
    cases cursor.isCursor <;> rfl
  have hsort := insertionSort_filter (fun r r' => db.id r' ≤ db.id r)
    (fun row => !cursor.isCursor || db.selected [.lt "id" cursor] row)
    (table.filter (Satisfies db letters allowed filters))
  rw [pageOf, behind, sortedRows, ← hsort, fetchPage, query_eq, Engine.run]
  simp only [hconditions, effectiveSize]
  cases cursor.isCursor <;> simp [hbefore]

theorem behind_of_not_cursor {cursor : Value V} (h : cursor.isCursor = false) :
    behind db letters allowed table filters cursor = sortedRows db letters allowed table filters := by
  exact filter_eq_self.mpr (fun row _ => by rw [h]; rfl)

theorem sortedRows_mem {row : Row} : row ∈ sortedRows db letters allowed table filters ↔
    row ∈ table ∧ Satisfies db letters allowed filters row := by
  rw [sortedRows, mem_insertionSort, mem_filter]

theorem sortedRows_desc (hdistinct : (table.map db.id).Nodup) :
    (sortedRows db letters allowed table filters).Pairwise (fun r r' => db.id r' < db.id r) := by
  have hsub : (table.filter (Satisfies db letters allowed filters)).Pairwise
      (fun r r' => db.id r ≠ db.id r') :=
    (pairwise_map.mp hdistinct).sublist (filter_sublist ..)
  have hne : (sortedRows db letters allowed table filters).Pairwise (fun r r' => db.id r ≠ db.id r') :=
    (perm_insertionSort _ _).symm.pairwise hsub (fun h => h.symm)
  have hle := pairwise_insertionSort (fun r r' => db.id r' ≤ db.id r)
    (table.filter (Satisfies db letters allowed filters))
  exact hle.imp₂ (fun r r' h hn => lt_of_le_of_ne h hn.symm) hne

theorem behind_row (hdistinct : (table.map db.id).Nodup) {pre post : List Row} {r : Row}
    (hrows : sortedRows db letters allowed table filters = pre++[r]++post)
    (hcursor : (db.value (db.id r)).isCursor) :
    behind db letters allowed table filters (db.value (db.id r)) = post := by
  have hdesc := sortedRows_desc db letters allowed table filters hdistinct
  rw [hrows] at hdesc
  obtain ⟨hfront,_,hsplit⟩ := pairwise_append.mp hdesc
  obtain ⟨_,_,hlast⟩ := pairwise_append.mp hfront
  have hsel : ∀ row, (!(db.value (db.id r)).isCursor ||
      db.selected [.lt "id" (db.value (db.id r))] row) = decide (db.id row < db.id r) := by
    simp [Engine.selected, db.lt_id _ _ hcursor, hcursor]
  rw [behind, hrows, filter_append, filter_eq_nil_iff.mpr]
  · refine filter_eq_self.mpr (fun row hrow => ?_)
    rw [hsel]
    exact decide_eq_true (hsplit r (by simp) row hrow)
  intro row hrow
  rw [hsel, decide_eq_true_eq, not_lt]
  rcases mem_append.mp hrow with hrow | hrow
  · exact (hlast row hrow r (mem_singleton_self r)).le
  · rw [mem_singleton.mp hrow]

/-- The walk that passes the id of the last row of each page as the next cursor ends and has
visited every row of the filters once in descending order of the ids, if none of them has an id
that counts as no cursor. -/
theorem sql_walk_complete (hdistinct : (table.map db.id).Nodup)
    (husable : ∀ row ∈ table, Satisfies db letters allowed filters row → (db.value (db.id row)).isCursor) :
    ∃ n pages, walk (fetchPage db letters allowed table filters pageSize)
        (fun row => db.value (db.id row)) n .null = some pages ∧
      pages.flatten.Perm (table.filter (Satisfies db letters allowed filters)) ∧
        pages.flatten.Pairwise (fun r r' => db.id r' < db.id r) := by
  have hfollows : Follows (effectiveSize pageSize) (behind db letters allowed table filters)
      (fun row => db.value (db.id row)) (sortedRows db letters allowed table filters) := by
    intro pre r post hrows _
    obtain ⟨hmem,hsat⟩ := (sortedRows_mem db letters allowed table filters).mp
      (show r ∈ _ by rw [hrows]; simp)
    exact behind_row db letters allowed table filters hdistinct hrows (husable r hmem hsat)
  obtain ⟨n,pages,hwalk,hflat⟩ := complete_of_follows (effectiveSize_pos pageSize)
    (@behind_of_not_cursor _ _ _ _ db letters allowed table filters .null rfl) hfollows
  refine ⟨n,pages,by rw [fetchPage_eq]; exact hwalk,?_,?_⟩
  · rw [hflat]
    exact perm_insertionSort _ _
  · rw [hflat]
    exact sortedRows_desc db letters allowed table filters hdistinct

end Pages

/-! ## Text ids -/

def textIds : Engine ℕ String String where
  id := id
  value := .text
  holds
    | .lt _ (.text s), row => some (decide (row < s))
    | _, _ => some true
  before _ r r' := decide (r' ≤ r)
  lt_id _ _ _ := rfl
  desc_id _ _ := rfl

def asciiLetters : Letters := ⟨Char.isUpper,Char.toLower⟩

/-- The filter on the id keeps two of the three rows. -/
theorem two_pages_complete :
    ∃ n pages, walk (fetchPage textIds asciiLetters [] ["b","a","c"] [⟨"id",.text "c",.lt⟩] 1)
        (fun row => Value.text row) n .null = some pages ∧
      pages.flatten.Perm (["b","a","c"].filter
        (Satisfies textIds asciiLetters [] [⟨"id",.text "c",.lt⟩])) ∧
          pages.flatten.Pairwise (fun r r' => r' < r) :=
  sql_walk_complete textIds asciiLetters [] ["b","a","c"] [⟨"id",.text "c",.lt⟩] 1 (by decide +kernel)
    (by decide +kernel)

/-- A row whose id is the empty text is its own next page for ever. -/
theorem empty_id_walk_never_ends : (([""] : List String).map textIds.id).Nodup ∧
    ∀ n, walk (fetchPage textIds asciiLetters [] [""] [] 1) (fun row => textIds.value (textIds.id row))
      n .null = none := by
  refine ⟨by decide,fun n => ?_⟩
  have hpage : ∀ c : Value ℕ, c.isCursor = false → fetchPage textIds asciiLetters [] [""] [] 1 c = [""] := by
    intro c hc
    rw [fetchPage_eq, pageOf, behind_of_not_cursor _ _ _ _ _ hc]
    decide +kernel
  have hnone : ∀ n (c : Value ℕ), c.isCursor = false →
      walk (fetchPage textIds asciiLetters [] [""] [] 1) (fun row => textIds.value (textIds.id row)) n c =
        none := by
    intro n
    induction n with
    | zero => exact fun _ _ => rfl
    | succ n ih =>
      intro c hc
      rw [walk_cons (by rw [hpage c hc]; rfl), ih _ rfl]
      rfl
  exact hnone n .null rfl

end GoCommon.SqlPagination
