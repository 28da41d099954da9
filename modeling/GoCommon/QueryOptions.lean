import Mathlib.Data.Rat.Floor
import GoCommon.ByteWords

/-!
# Query options

The values of filters and cursors are dynamic: of them the code asks whether one is nil, a
text or a list, and everything else is passed on to the database. The numbers of pages are
computed from the number of items in signed 64-bit words.
-/

set_option autoImplicit false

namespace GoCommon.QueryOptions
open ByteWords

inductive Value (V : Type) where
  | null
  | text (s : String)
  | objectID (bytes : List UInt8)
  | list (vs : List (Value V))
  | other (v : V)

variable {V : Type}

def Value.isNull : Value V → Bool
  | .null => true
  | _ => false

def Value.isCursor : Value V → Bool
  | .null => false
  | .text s => s != ""
  | _ => true

inductive FilterType where
  | search
  | exact
  | filter
  | eq
  | neq
  | gt
  | gte
  | lt
  | lte
  | isIn
  | notIn
  | isNull
  | notNull
  | unknown (text : String)
  deriving DecidableEq

structure SearchFilter (V : Type) where
  key : String
  value : Value V
  type : FilterType

structure SortOption where
  key : String
  order : ℤ

structure PaginationOptions (V : Type) where
  page : ℤ
  pageSize : ℤ
  cursor : Value V

structure Options (V : Type) where
  pagination : Option (PaginationOptions V)
  filters : List (SearchFilter V)
  sort : List SortOption

def PaginationOptions.setDefaults (p : PaginationOptions V) : PaginationOptions V := { p with
  page := if p.page ≤ 0 then 1 else p.page
  pageSize := if p.pageSize ≤ 0 then 10 else p.pageSize }

def effectiveSize (pageSize : ℤ) : ℕ := (if pageSize ≤ 0 then 10 else pageSize).toNat

theorem effectiveSize_pos (pageSize : ℤ) : 0 < effectiveSize pageSize := by
  rw [effectiveSize]
  split <;> omega

/-! ## Pages -/

structure PaginationMeta where
  currentPage : ℤ
  pageSize : ℤ
  totalPages : ℤ
  totalItems : ℤ
  hasNext : Bool
  hasPrev : Bool

def calculatePagination (currentPage pageSize totalItems : ℤ) : PaginationMeta :=
  let totalPages := (int64 (int64 (totalItems+pageSize)-1)).tdiv pageSize
  let currentPage := min currentPage totalPages
  let totalPages := if totalPages = 0 then 1 else totalPages
  ⟨currentPage,pageSize,totalPages,totalItems,currentPage < totalPages,1 < currentPage⟩

structure PaginationMeta.Exact (m : PaginationMeta) : Prop where
  totalPages : m.totalPages = max 1 ⌈(m.totalItems : ℚ)/m.pageSize⌉
  currentPage : 1 ≤ m.currentPage ∧ m.currentPage ≤ m.totalPages
  hasPrev : m.hasPrev = true ↔ 1 < m.currentPage
  hasNext : m.hasNext = true ↔ m.currentPage*m.pageSize < m.totalItems

section Pages
variable {pageSize totalItems : ℤ} (hsize : 1 ≤ pageSize)
include hsize

theorem ceil_div_eq (totalItems : ℤ) :
    ⌈(totalItems : ℚ)/pageSize⌉ = (totalItems+pageSize-1)/pageSize := by
  have hpos : (0 : ℚ) < pageSize := by exact_mod_cast hsize
  have hle := Int.ediv_mul_le (totalItems+pageSize-1) (by omega : pageSize ≠ 0)
  have hlt := Int.lt_ediv_add_one_mul_self (totalItems+pageSize-1) (by omega : 0 < pageSize)
  rw [add_one_mul] at hlt
  rw [Int.ceil_eq_iff, lt_div_iff₀ hpos, div_le_iff₀ hpos, sub_one_mul]
  constructor
  · have : (totalItems+pageSize-1)/pageSize*pageSize-pageSize < totalItems := by omega
    exact_mod_cast this
  · have : totalItems ≤ (totalItems+pageSize-1)/pageSize*pageSize := by omega
    exact_mod_cast this

theorem calculatePagination_eq (currentPage : ℤ) (hitems : 0 ≤ totalItems)
    (hfits : totalItems+pageSize < 2^63) :
    let pages := (totalItems+pageSize-1)/pageSize
    calculatePagination currentPage pageSize totalItems =
      ⟨min currentPage pages,pageSize,if pages = 0 then 1 else pages,totalItems,
        min currentPage pages < if pages = 0 then 1 else pages,1 < min currentPage pages⟩ := by
  rw [calculatePagination, int64_of_range (x := totalItems+pageSize) (by omega) hfits,
    int64_of_range (by omega) (by omega), Int.tdiv_eq_ediv_of_nonneg (by omega)]

theorem lt_pages_iff (page : ℤ) :
    page < (totalItems+pageSize-1)/pageSize ↔ page*pageSize < totalItems := by
  rw [Int.lt_iff_add_one_le, Int.le_ediv_iff_mul_le (by omega), add_one_mul]
  omega

/-- The numbers are exact if and only if there is an item: without one the current page is
zero, before the only page. -/
theorem pages_exact_iff (currentPage : ℤ) (hpage : 1 ≤ currentPage) (hitems : 0 ≤ totalItems)
    (hfits : totalItems+pageSize < 2^63) :
    (calculatePagination currentPage pageSize totalItems).Exact ↔ 0 < totalItems := by
  rw [calculatePagination_eq hsize currentPage hitems hfits]
  have hlt := @lt_pages_iff pageSize totalItems hsize
  have hceil := ceil_div_eq hsize totalItems
  have hzero := hlt 0
  rw [zero_mul] at hzero
  generalize (totalItems+pageSize-1)/pageSize = pages at hlt hceil hzero ⊢
  constructor
  · intro h
    have := h.currentPage.1
    simp only at this
    omega
  intro h
  have hpages := hzero.mpr h
  rw [if_neg hpages.ne']
  refine ⟨?_,⟨le_min hpage (by omega),min_le_right ..⟩,decide_eq_true_iff,?_⟩
  · change pages = max 1 ⌈(totalItems : ℚ)/pageSize⌉
    rw [hceil]
    omega
  · exact decide_eq_true_iff.trans (hlt _)

end Pages

/-- The last of three pages. -/
theorem third_page_exact : (calculatePagination 3 10 25).Exact :=
  (pages_exact_iff (by decide) 3 (by decide) (by decide) (by decide)).mpr (by decide)

/-- No items: the page is zero, and there is a next one. -/
theorem no_items_page_zero : (calculatePagination 1 10 0).currentPage = 0 ∧
    (calculatePagination 1 10 0).hasNext = true ∧ ¬(calculatePagination 1 10 0).Exact := by
  refine ⟨by decide,by decide,fun h => ?_⟩
  have := h.currentPage.1
  revert this
  decide

end GoCommon.QueryOptions
