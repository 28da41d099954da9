import GoCommon.KeysetWalk
import GoCommon.QueryOptions

/-!
# Pages of a MongoDB query

Filters and sorts are maps from field names. The database is a parameter: it says which
documents a condition on a field holds of and how a sort compares two documents. On `_id` it is
bound to the order of BSON values: `$lt` and `$gt` compare values of one type only, a sort
compares any two. Documents that a sort does not tell apart come in any order, and in another one
for every request. How a text spells an ObjectID is left to the driver.
-/

set_option autoImplicit false

namespace GoCommon.MongoPagination
open List QueryOptions KeysetWalk

variable {V Doc R : Type}

inductive Cond (V : Type) where
  | equals (v : Value V)
  | regexIgnoringCase (s : String)
  | isIn (ids : List (List UInt8))
  | lt (v : Value V)
  | gt (v : Value V)

abbrev Fields (β : Type) := List (String × β)

def put {β : Type} (key : String) (b : β) (m : Fields β) : Fields β :=
  m.filter (fun e => e.1 != key)++[(key,b)]

inductive Filter (V : Type) where
  | fields (m : Fields (Cond V))
  | and (l r : Filter V)

structure FindOptions where
  limit : ℤ
  sort : Fields ℤ
  skip : Option ℤ

class Driver where
  objectIDFromHex : String → Option (List UInt8)

section Building
variable [Driver]

def filterCondition (f : SearchFilter V) : Option (Cond V) :=
  if f.key = "" || f.value.isNull then none
  else match f.type with
    | .search => match f.value with
      | .text s => if s = "" then none else some (.regexIgnoringCase s)
      | _ => none
    | .filter => match f.value with
      | .text s => (Driver.objectIDFromHex s).map (fun oid => .isIn [oid])
      | v => some (.equals v)
    | _ => some (.equals f.value)

def buildFilter (filters : List (SearchFilter V)) : Fields (Cond V) :=
  filters.foldl (fun m f => match filterCondition f with
    | some c => put f.key c m
    | none => m) []

def buildSort (sorts : List SortOption) : Fields ℤ :=
  let sort := sorts.foldl (fun m s =>
    if s.key = "" then m
    else put s.key (if s.order ≠ 1 ∧ s.order ≠ -1 then -1 else s.order) m) []
  if sort = [] then [("created_at",-1)] else sort

def cursorVal : Value V → Value V
  | .text s => match Driver.objectIDFromHex s with
    | some oid => .objectID oid
    | none => .text s
  | v => v

def isAsc (sorts : List SortOption) : Bool :=
  match sorts.find? (fun s => s.key = "_id" || s.key = "id") with
  | some s => s.order = 1
  | none => false

def cursorCond (sorts : List SortOption) (cursor : Value V) : Cond V :=
  if isAsc sorts then .gt (cursorVal cursor) else .lt (cursorVal cursor)

def applyQueryOptions (opts : Option (Options V)) : Filter V × FindOptions :=
  let opts := opts.getD ⟨none,[],[]⟩
  let p := (opts.pagination.getD ⟨0,0,.null⟩).setDefaults
  let filter := buildFilter opts.filters
  let sort := buildSort opts.sort
  if p.cursor.isCursor then
    let cond := cursorCond opts.sort p.cursor
    if filter.any (fun e => e.1 = "_id") then
      (.and (.fields filter) (.fields [("_id",cond)]),⟨p.pageSize,sort,none⟩)
    else (.fields (put "_id" cond filter),⟨p.pageSize,sort,none⟩)
  else (.fields filter,⟨p.pageSize,sort,some ((p.page-1)*p.pageSize)⟩)

end Building

/-! ## The database -/

/-- What the database makes of conditions and sorts. The rank of a value is its place in the order
of BSON values, its kind the type that comparisons are confined to. -/
structure Database (V Doc R : Type) [LinearOrder R] where
  id : Doc → Value V
  rank : Value V → R
  kind : Value V → ℕ
  holds : String → Cond V → Doc → Bool
  before : Fields ℤ → Doc → Doc → Bool
  lt_id : ∀ v d, holds "_id" (.lt v) d = decide (kind (id d) = kind v ∧ rank (id d) < rank v)
  gt_id : ∀ v d, holds "_id" (.gt v) d = decide (kind (id d) = kind v ∧ rank v < rank (id d))
  asc_id : ∀ d d', before [("_id",1)] d d' = decide (rank (id d) ≤ rank (id d'))
  desc_id : ∀ d d', before [("_id",-1)] d d' = decide (rank (id d') ≤ rank (id d))
  total : ∀ sort d d', before sort d d' ∨ before sort d' d
  trans : ∀ sort d d' d'', before sort d d' → before sort d' d'' → before sort d d''

def Database.selected [LinearOrder R] (db : Database V Doc R) : Filter V → Doc → Bool
  | .fields m, d => m.all (fun e => db.holds e.1 e.2 d)
  | .and l r, d => db.selected l d && db.selected r d

section Queries
variable [LinearOrder R] (db : Database V Doc R)

def Arranged (keep : Doc → Bool) (sort : Fields ℤ) (docs rows : List Doc) : Prop :=
  rows.Perm (docs.filter keep) ∧ rows.Pairwise (fun d d' => db.before sort d d')

def FindOptions.cut (options : FindOptions) (rows : List Doc) : List Doc :=
  (rows.drop (options.skip.getD 0).toNat).take options.limit.toNat

variable [Driver]
variable (docs : List Doc) (filters : List (SearchFilter V)) (sorts : List SortOption) (pageSize : ℤ)

def request (cursor : Value V) : Filter V × FindOptions :=
  applyQueryOptions (some ⟨some ⟨1,pageSize,cursor⟩,filters,sorts⟩)

def Replies (found : Value V → List Doc) : Prop := ∀ cursor,
  Arranged db (db.selected (request filters sorts pageSize cursor).1)
    (request filters sorts pageSize cursor).2.sort docs (found cursor)

def fetchPage (found : Value V → List Doc) (cursor : Value V) : List Doc :=
  (request filters sorts pageSize cursor).2.cut (found cursor)

def matching (d : Doc) : Bool := db.selected (.fields (buildFilter filters)) d

def passes (cursor : Value V) (d : Doc) : Bool :=
  !cursor.isCursor || db.holds "_id" (cursorCond sorts cursor) d

def Complete (found : Value V → List Doc) : Prop :=
  ∃ n pages, walk (fetchPage filters sorts pageSize found) db.id n .null = some pages ∧
    pages.flatten.Perm (docs.filter (matching db filters))

def Ranked (rows : List Doc) : Prop := Arranged db (matching db filters) (buildSort sorts) docs rows

def BordersAgree (rows : List Doc) : Prop := ∀ pre d post, rows = pre++[d]++post →
  Border (effectiveSize pageSize) (pre++[d]) post →
    (∀ x ∈ pre++[d], passes db sorts (db.id d) x = false) ∧ ∀ x ∈ post, passes db sorts (db.id d) x = true

end Queries

/-! ## One page -/

section Pages
variable [LinearOrder R] {db : Database V Doc R} {docs rows : List Doc}
variable {filters : List (SearchFilter V)} {sorts : List SortOption} {pageSize : ℤ}

theorem put_of_absent {β : Type} {key : String} {m : Fields β} (h : ¬m.any (fun e => e.1 = key)) (b : β) :
    put key b m = m++[(key,b)] := by
  rw [put, filter_eq_self.mpr]
  intro e he
  rw [bne_iff_ne]
  exact fun heq => h (any_eq_true.mpr ⟨e,he,decide_eq_true heq⟩)

theorem filter_eq_right_iff {pre post : List Doc} (hnd : (pre++post).Nodup) (q : Doc → Bool) :
    (pre++post).filter q = post ↔ (∀ x ∈ pre, q x = false) ∧ ∀ x ∈ post, q x = true := by
  constructor
  · intro h
    refine ⟨fun x hx => ?_,fun x hx => (mem_filter.mp (h ▸ hx)).2⟩
    by_contra hq
    have hpost : x ∈ post := h ▸ mem_filter.mpr ⟨mem_append_left _ hx,by simpa using hq⟩
    exact (nodup_append.mp hnd).2.2 x hx x hpost rfl
  · rintro ⟨hpre,hpost⟩
    rw [filter_append, filter_eq_self.mpr hpost, filter_eq_nil_iff.mpr, nil_append]
    exact fun x hx => by rw [hpre x hx]; exact nofun

def later (db : Database V Doc R) (asc : Bool) (d x : Doc) : Bool :=
  if asc then db.rank (db.id d) < db.rank (db.id x) else db.rank (db.id x) < db.rank (db.id d)

theorem later_asymm {asc : Bool} {d x : Doc} (h : later db asc d x) : later db asc x d = false := by
  cases asc with
  | true => exact decide_eq_false (of_decide_eq_true h).asymm
  | false => exact decide_eq_false (of_decide_eq_true h).asymm

theorem buildSort_id {order : ℤ} : buildSort [⟨"_id",order⟩] = [("_id",if order = 1 then 1 else -1)] := by
  by_cases h1 : order = 1
  · rw [h1]
    rfl
  by_cases h2 : order = -1
  · rw [h2]
    rfl
  · simp [buildSort, put, h1, h2]

variable [Driver] {found : Value V → List Doc} {cursor : Value V}

theorem selected_request {d : Doc} :
    db.selected (request filters sorts pageSize cursor).1 d =
      (matching db filters d && passes db sorts cursor d) := by
  rw [request, applyQueryOptions, passes, matching]
  simp only [Option.getD_some, PaginationOptions.setDefaults]
  cases hc : cursor.isCursor with
  | false => simp
  | true =>
    rw [if_pos rfl]
    split
    · simp [Database.selected]
    · rename_i habsent
      rw [put_of_absent habsent]
      simp [Database.selected]

theorem request_options :
    (request filters sorts pageSize cursor).2 =
      ⟨if pageSize ≤ 0 then 10 else pageSize,buildSort sorts,if cursor.isCursor then none else some 0⟩ := by
  rw [request, applyQueryOptions]
  simp only [Option.getD_some, PaginationOptions.setDefaults]
  cases cursor.isCursor with
  | false => simp
  | true =>
    rw [if_pos rfl]
    split <;> rfl

theorem fetchPage_eq (found : Value V → List Doc) :
    fetchPage filters sorts pageSize found = pageOf (effectiveSize pageSize) found := by
  funext cursor
  rw [fetchPage, request_options]
  cases cursor.isCursor <;> rfl

theorem replies_iff : Replies db docs filters sorts pageSize found ↔
    ∀ cursor, Arranged db (passes db sorts cursor) (buildSort sorts)
      (docs.filter (matching db filters)) (found cursor) := by
  apply forall_congr'
  intro cursor
  have hfilter : docs.filter (db.selected (request filters sorts pageSize cursor).1) =
      (docs.filter (matching db filters)).filter (passes db sorts cursor) := by
    rw [filter_filter]
    exact filter_congr (fun d _ => by rw [selected_request, Bool.and_comm])
  rw [Arranged, Arranged, hfilter, request_options]

theorem passes_of_not_cursor (h : cursor.isCursor = false) (d : Doc) :
    passes db sorts cursor d = true := by
  rw [passes, h]
  rfl

theorem Ranked.mem (h : Ranked db docs filters sorts rows) {d : Doc} :
    d ∈ rows ↔ d ∈ docs ∧ matching db filters d := by
  rw [h.1.mem_iff, mem_filter]

theorem Ranked.nodup (h : Ranked db docs filters sorts rows)
    (hdistinct : (docs.map (fun d => db.rank (db.id d))).Nodup) : rows.Nodup :=
  h.1.nodup_iff.mpr ((List.Nodup.of_map _ hdistinct).filter _)

theorem bordersAgree_iff (hnd : rows.Nodup) : BordersAgree db sorts pageSize rows ↔
    Follows (effectiveSize pageSize) (fun c => rows.filter (passes db sorts c)) db.id rows := by
  refine forall_congr' fun pre => forall_congr' fun d => forall_congr' fun post =>
    forall_congr' fun hrows => forall_congr' fun _ => ?_
  rw [hrows, filter_eq_right_iff (hrows ▸ hnd)]

theorem passes_nested (hplain : ∀ d ∈ rows, cursorVal (db.id d) = db.id d) (c : Value V) (d : Doc)
    (hd : d ∈ rows.filter (passes db sorts c)) :
    rows.filter (passes db sorts (db.id d)) = rows ∨
      rows.filter (passes db sorts (db.id d)) ⊆ rows.filter (passes db sorts c) := by
  cases hblank : (db.id d).isCursor with
  | false => exact Or.inl (filter_eq_self.mpr (fun x _ => passes_of_not_cursor hblank x))
  | true =>
    right
    intro x hx
    rw [mem_filter] at hd hx ⊢
    refine ⟨hx.1,?_⟩
    have hpd := hd.2
    have hpx := hx.2
    rw [passes, cursorCond] at hpd hpx ⊢
    rw [hplain d hd.1, hblank] at hpx
    cases hcursor : c.isCursor with
    | false => rfl
    | true =>
      rw [hcursor] at hpd
      cases hasc : isAsc sorts with
      | true =>
        simp only [hasc, if_true, db.gt_id, Bool.not_true, Bool.false_or, decide_eq_true_eq] at hpd hpx ⊢
        exact ⟨hpx.1.trans hpd.1,hpd.2.trans hpx.2⟩
      | false =>
        simp only [hasc, Bool.false_eq_true, if_false, db.lt_id, Bool.not_true, Bool.false_or,
          decide_eq_true_eq] at hpd hpx ⊢
        exact ⟨hpx.1.trans hpd.1,hpx.2.trans hpd.2⟩

/-- At a border at which the cursor agrees with the sort, what the next request finds can take the
place of the documents behind the border. -/
theorem next_ranked (hfound : Replies db docs filters sorts pageSize found)
    {pre post : List Doc} {d : Doc} (h : Ranked db docs filters sorts (pre++[d]++post))
    (hpre : ∀ x ∈ pre++[d], passes db sorts (db.id d) x = false)
    (hpost : ∀ x ∈ post, passes db sorts (db.id d) x = true) :
    (found (db.id d)).length = post.length ∧
      Ranked db docs filters sorts (pre++[d]++found (db.id d)) := by
  obtain ⟨hperm,horder⟩ := replies_iff.mp hfound (db.id d)
  have hrest : (found (db.id d)).Perm post := by
    have hkept := h.1.filter (passes db sorts (db.id d))
    rw [filter_append, filter_eq_self.mpr hpost, filter_eq_nil_iff.mpr] at hkept
    · exact hperm.trans hkept.symm
    · exact fun x hx => by rw [hpre x hx]; exact nofun
  obtain ⟨hfront,_,hcross⟩ := pairwise_append.mp h.2
  exact ⟨hrest.length_eq,(hrest.append_left _).trans h.1,pairwise_append.mpr ⟨hfront,horder,
    fun x hx y hy => hcross x hx y (hrest.subset hy)⟩⟩

theorem complete_of_agree (h : ∀ rows, Ranked db docs filters sorts rows → BordersAgree db sorts pageSize rows) (hfound : Replies db docs filters sorts pageSize found) :
    Complete db docs filters sorts pageSize found := by
  have hstart : Ranked db docs filters sorts (found .null) := by
    have hnull := replies_iff.mp hfound .null
    rw [Arranged, filter_eq_self.mpr (fun d _ => passes_of_not_cursor rfl d)] at hnull
    exact hnull
  obtain ⟨pages,hwalk,hpages⟩ := complete_of_valid (effectiveSize_pos pageSize)
    (Ranked db docs filters sorts)
    (fun pre d post hrows hb =>
      next_ranked hfound hrows (h _ hrows pre d post rfl hb).1 (h _ hrows pre d post rfl hb).2)
    (found .null).length .null [] le_rfl hstart (Or.inl (dvd_zero _))
  exact ⟨_,pages,by rw [fetchPage_eq]; exact hwalk,hpages.1⟩

theorem agree_of_complete (hdistinct : (docs.map (fun d => db.rank (db.id d))).Nodup)
    (hplain : ∀ d ∈ docs, matching db filters d → cursorVal (db.id d) = db.id d)
    (h : ∀ found, Replies db docs filters sorts pageSize found →
      Complete db docs filters sorts pageSize found)
    (hrows : Ranked db docs filters sorts rows) : BordersAgree db sorts pageSize rows := by
  -- a database that keeps to this order in every request
  have hanswers : Replies db docs filters sorts pageSize (fun c => rows.filter (passes db sorts c)) :=
    replies_iff.mpr (fun c => ⟨hrows.1.filter _,hrows.2.sublist filter_sublist⟩)
  obtain ⟨n,pages,hwalk,hvisit⟩ := h _ hanswers
  rw [fetchPage_eq] at hwalk
  have hnd := hrows.nodup hdistinct
  exact (bordersAgree_iff hnd).mpr (follows_of_complete (effectiveSize_pos pageSize) hnd
    (fun _ => filter_sublist)
    (passes_nested (fun d hd => hplain d (hrows.mem.mp hd).1 (hrows.mem.mp hd).2))
    (filter_eq_self.mpr (fun d _ => passes_of_not_cursor rfl d)) hwalk (hvisit.trans hrows.1.symm))

variable (db docs filters sorts pageSize) in
/-- The walk is complete, whatever order the database gives to documents that the sort does not
tell apart, if in every such order the cursors agree with the sort at every border; and only then
unless some `_id` is a text that the code takes for an ObjectID. -/
theorem mongo_walk_complete_iff (hdistinct : (docs.map (fun d => db.rank (db.id d))).Nodup) :
    ((∀ rows, Ranked db docs filters sorts rows → BordersAgree db sorts pageSize rows) →
      ∀ found, Replies db docs filters sorts pageSize found →
        Complete db docs filters sorts pageSize found) ∧
      ((∀ d ∈ docs, matching db filters d → cursorVal (db.id d) = db.id d) →
        ((∀ found, Replies db docs filters sorts pageSize found →
          Complete db docs filters sorts pageSize found) ↔
            ∀ rows, Ranked db docs filters sorts rows → BordersAgree db sorts pageSize rows)) := by
  refine ⟨fun h found hfound => complete_of_agree h hfound,fun hplain => ⟨?_,?_⟩⟩
  · exact fun h rows hrows => agree_of_complete hdistinct hplain h hrows
  · exact fun h found hfound => complete_of_agree h hfound

/-! ## Sorts by id -/

theorem Ranked.later {order : ℤ} (h : Ranked db docs filters [⟨"_id",order⟩] rows)
    (hdistinct : (docs.map (fun d => db.rank (db.id d))).Nodup) :
    rows.Pairwise (fun d x => later db (order = 1) d x) := by
  have hne : rows.Pairwise (fun d x => db.rank (db.id d) ≠ db.rank (db.id x)) :=
    h.1.symm.pairwise ((pairwise_map.mp hdistinct).sublist filter_sublist) (fun h => h.symm)
  refine h.2.imp₂ (fun d x hle hne => ?_) hne
  rw [buildSort_id] at hle
  rw [MongoPagination.later]
  by_cases h1 : order = 1
  · rw [if_pos h1, db.asc_id, decide_eq_true_eq] at hle
    simpa [h1] using lt_of_le_of_ne hle hne
  · rw [if_neg h1, db.desc_id, decide_eq_true_eq] at hle
    simpa [h1] using lt_of_le_of_ne hle hne.symm

/-- Under a sort by `_id` the cursors agree with it, as long as the ids are of one type and each is
taken for itself. -/
theorem sorted_by_id_agrees {order : ℤ} (hdistinct : (docs.map (fun d => db.rank (db.id d))).Nodup)
    (hkind : ∀ d ∈ docs, ∀ x ∈ docs, matching db filters d → matching db filters x →
      db.kind (db.id x) = db.kind (db.id d))
    (hself : ∀ d ∈ docs, matching db filters d → (db.id d).isCursor ∧ cursorVal (db.id d) = db.id d)
    (h : Ranked db docs filters [⟨"_id",order⟩] rows) :
    BordersAgree db [⟨"_id",order⟩] pageSize rows := by
  intro pre d post hrows _
  have hmem : ∀ x ∈ pre++[d]++post, x ∈ docs ∧ matching db filters x := fun x hx =>
    h.mem.mp (hrows ▸ hx)
  obtain ⟨hd,hdm⟩ := hmem d (by simp)
  have hpass : ∀ x ∈ pre++[d]++post, passes db [⟨"_id",order⟩] (db.id d) x = later db (order = 1) d x := by
    intro x hx
    obtain ⟨hx,hxm⟩ := hmem x hx
    have hasc : isAsc [⟨"_id",order⟩] = decide (order = 1) := rfl
    rw [passes, (hself d hd hdm).1, cursorCond, (hself d hd hdm).2, hasc, later]
    by_cases h1 : order = 1
    · simp [h1, db.gt_id, hkind d hd x hx hdm hxm]
    · simp [h1, db.lt_id, hkind d hd x hx hdm hxm]
  have hlater := h.later hdistinct
  rw [hrows] at hlater
  obtain ⟨hfront,_,hsplit⟩ := pairwise_append.mp hlater
  obtain ⟨_,_,hlast⟩ := pairwise_append.mp hfront
  refine ⟨fun x hx => ?_,fun x hx => ?_⟩
  · rw [hpass x (mem_append_left _ hx)]
    rcases mem_append.mp hx with hx | hx
    · exact later_asymm (hlast x hx d (mem_singleton_self d))
    · rw [mem_singleton.mp hx, later]
      simp
  · rw [hpass x (mem_append_right _ hx)]
    exact hsplit d (by simp) x hx

end Pages

/-! ## Numbered documents -/

def numbered : Database ℕ (ℕ × ℕ) ℕ where
  id d := .other d.1
  rank
    | .other n => n
    | _ => 0
  kind
    | .other _ => 1
    | _ => 0
  holds
    | "_id", .lt (.other n), d => d.1 < n
    | "_id", .gt (.other n), d => n < d.1
    | "_id", .gt _, _ => false
    | "_id", .lt _, _ => false
    | _, _, _ => true
  before
    | [("_id",1)], d, d' => d.1 ≤ d'.1
    | [("_id",-1)], d, d' => d'.1 ≤ d.1
    | [("created_at",-1)], d, d' => d'.2 ≤ d.2
    | _, _, _ => true
  lt_id v d := by cases v <;> simp
  gt_id v d := by cases v <;> simp
  asc_id _ _ := rfl
  desc_id _ _ := rfl
  total sort d d' := by
    split <;> simp <;> omega
  trans sort d d' d'' := by
    split <;> simp <;> omega

/-! ## Texts of hexadecimal digits -/

def hexDigit (c : Char) : Option UInt8 :=
  if '0' ≤ c ∧ c ≤ '9' then some (c.toNat-48).toUInt8
  else if 'a' ≤ c ∧ c ≤ 'f' then some (c.toNat-87).toUInt8
  else if 'A' ≤ c ∧ c ≤ 'F' then some (c.toNat-55).toUInt8
  else none

def decodeHex : List Char → Option (List UInt8)
  | [] => some []
  | [_] => none
  | a::b::cs => (hexDigit a).bind fun x => (hexDigit b).bind fun y =>
      (decodeHex cs).map (fun bytes => (16*x+y)::bytes)

instance : Driver where
  objectIDFromHex s := if s.toList.length = 24 then decodeHex s.toList else none

def stable (docs : List (ℕ × ℕ)) (sorts : List SortOption) (cursor : Value ℕ) : List (ℕ × ℕ) :=
  (docs.filter (passes numbered sorts cursor)).insertionSort
    (fun d d' => numbered.before (buildSort sorts) d d')

theorem stable_replies (docs : List (ℕ × ℕ)) (sorts : List SortOption) (pageSize : ℤ) :
    Replies numbered docs [] sorts pageSize (stable docs sorts) := by
  let r := fun d d' => numbered.before (buildSort sorts) d d' = true
  have : Std.Total r := ⟨numbered.total _⟩
  have : IsTrans (ℕ × ℕ) r := ⟨numbered.trans _⟩
  apply replies_iff.mpr
  intro cursor
  rw [show docs.filter (matching numbered []) = docs from
    filter_eq_self.mpr (fun _ _ => rfl)]
  exact ⟨perm_insertionSort ..,pairwise_insertionSort r _⟩

/-- Three documents in pages of two, in the order of their ids. -/
theorem ascending_walk_complete :
    Complete numbered [(1,9), (3,7), (2,8)] [] [⟨"_id",1⟩] 2
      (stable [(1,9), (3,7), (2,8)] [⟨"_id",1⟩]) ∧
      Ranked numbered [(1,9), (3,7), (2,8)] [] [⟨"_id",1⟩] [(1,9), (2,8), (3,7)] ∧
        BordersAgree numbered [⟨"_id",1⟩] 2 [(1,9), (2,8), (3,7)] := by
  have hdistinct : ([(1,9), (3,7), (2,8)].map (fun d => numbered.rank (numbered.id d))).Nodup := by decide
  have hsorted : Ranked numbered [(1,9), (3,7), (2,8)] [] [⟨"_id",1⟩] [(1,9), (2,8), (3,7)] :=
    ⟨by decide,by decide⟩
  obtain ⟨hall,hiff⟩ := mongo_walk_complete_iff numbered _ [] [⟨"_id",1⟩] 2 hdistinct
  have hcomplete := hall (fun rows hrows => sorted_by_id_agrees hdistinct (fun _ _ _ _ _ _ => rfl)
    (fun _ _ _ => ⟨rfl,rfl⟩) hrows)
  exact ⟨hcomplete _ (stable_replies _ _ _),hsorted,(hiff (fun _ _ _ => rfl)).mp hcomplete _ hsorted⟩

/-- Without a sort the newest document comes first, and the one that was made before it but has
the greater `_id` is never found. -/
theorem unsorted_walk_loses :
    ([(1,2), (2,1)].map (fun d => numbered.rank (numbered.id d))).Nodup ∧
      Replies numbered [(1,2), (2,1)] [] [] 1 (stable [(1,2), (2,1)] []) ∧
        ¬Complete numbered [(1,2), (2,1)] [] [] 1 (stable [(1,2), (2,1)] []) := by
  refine ⟨by decide,stable_replies _ _ _,?_⟩
  rintro ⟨n,pages,hwalk,hperm⟩
  let page := fetchPage [] [] 1 (stable [(1,2), (2,1)] [])
  have hfirst : page .null = [(1,2)] := by decide +kernel
  have hsecond : page (numbered.id (1,2)) = [] := by decide +kernel
  have hlast : (page .null).getLast? = some (1,2) := by
    rw [hfirst]
    rfl
  rcases n with - | - | n
  · cases hwalk
  · rw [walk_cons hlast] at hwalk
    cases hwalk
  rw [walk_cons hlast, walk_nil hsecond] at hwalk
  cases hwalk
  rw [flatten_singleton, hfirst] at hperm
  exact absurd hperm.length_eq (by decide +kernel)

end GoCommon.MongoPagination
