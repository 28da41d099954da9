import GoCommon.SpannedChain

/-!
# The skip list

Nodes are kept by their numbers; the head has number zero. A node has a height and
on each level below it a link with a span. The levels of new nodes are drawn by
coins. Loops along the links have fuel for all nodes that were ever made; a result
of none stands for a loop that does not come back. The search loops of the source
differ in the condition on the next node.
-/

set_option autoImplicit false

namespace GoCommon.SkipLists
open Function SpannedChain

def maxLevel : ℕ := 32

structure Level where
  forward : Option ℕ
  span : ℤ

structure Node (S K : Type) where
  key : K
  score : S
  backward : Option ℕ
  height : ℕ
  levels : ℕ → Level

structure SkipList (S K : Type) where
  nodes : ℕ → Node S K
  fresh : ℕ
  tail : Option ℕ
  length : ℤ
  level : ℕ

variable {S K : Type}

def new (key : K) (score : S) : SkipList S K :=
  ⟨fun _ => ⟨key,score,none,maxLevel,fun _ => ⟨none,0⟩⟩,1,none,0,1⟩

def levelLoop (flips : ℕ → Bool) : ℕ → ℕ → ℕ
  | 0, level => level
  | fuel+1, level => if flips (level-1) ∧ level < maxLevel then levelLoop flips fuel (level+1) else level

def randomLevel (flips : ℕ → Bool) : ℕ := levelLoop flips maxLevel 1

abbrev Path := ℕ → ℕ × ℤ

namespace SkipList

def forward (sl : SkipList S K) (a i : ℕ) : Option ℕ := ((sl.nodes a).levels i).forward

def span (sl : SkipList S K) (a i : ℕ) : ℤ := ((sl.nodes a).levels i).span

def links (sl : SkipList S K) (i : ℕ) : Links ℕ := ⟨fun a => sl.forward a i,fun a => sl.span a i⟩

def setLevel (a i : ℕ) (forward : Option ℕ) (span : ℤ) (sl : SkipList S K) : SkipList S K :=
  { sl with nodes := update sl.nodes a { sl.nodes a with
    levels := update (sl.nodes a).levels i ⟨forward,span⟩ } }

def setBackward (a : ℕ) (backward : Option ℕ) (sl : SkipList S K) : SkipList S K :=
  { sl with nodes := update sl.nodes a { sl.nodes a with backward := backward } }

def forLevels (lo hi : ℕ) (body : ℕ → SkipList S K → SkipList S K) (sl : SkipList S K) :
    SkipList S K := (List.range' lo (hi-lo)).foldl (fun sl i => body i sl) sl

def descend (go : ℕ → ℤ → Bool) (sl : SkipList S K) : ℕ → ℕ → ℤ → Path → Option (ℕ × Path)
  | 0, x, _, path => some (x,path)
  | i+1, x, rank, path => do
    let (x,rank) ← walk (sl.links i) go sl.fresh x rank
    descend go sl i x rank (update path i (x,rank))

section Ordered
variable [LinearOrder S] [LinearOrder K]

def precedes (sl : SkipList S K) (score : S) (key : K) (a : ℕ) : Bool :=
  (sl.nodes a).score < score ∨ (sl.nodes a).score = score ∧ (sl.nodes a).key < key

def search (score : S) (key : K) (sl : SkipList S K) : Option (ℕ × Path) :=
  descend (fun a _ => sl.precedes score key a) sl sl.level 0 0 (fun _ => (0,0))

end Ordered

def expand (newLevel : ℕ) (sl : SkipList S K) : SkipList S K :=
  { sl.forLevels sl.level newLevel (fun i sl => sl.setLevel 0 i (sl.forward 0 i) sl.length) with
    level := newLevel }

def expandPath (lo hi : ℕ) (path : Path) : Path := fun i => if lo ≤ i ∧ i < hi then (0,0) else path i

def create (key : K) (score : S) (height : ℕ) (sl : SkipList S K) : SkipList S K :=
  { sl with
    nodes := update sl.nodes sl.fresh ⟨key,score,none,height,fun _ => ⟨none,0⟩⟩
    fresh := sl.fresh+1 }

def wire (path : Path) (n i : ℕ) (sl : SkipList S K) : SkipList S K :=
  let u := (path i).1
  let d := (path 0).2-(path i).2
  (sl.setLevel n i (sl.forward u i) (sl.span u i-d)).setLevel u i (some n) (d+1)

def bump (path : Path) (i : ℕ) (sl : SkipList S K) : SkipList S K :=
  let u := (path i).1
  sl.setLevel u i (sl.forward u i) (sl.span u i+1)

def mirror (u n : ℕ) (sl : SkipList S K) : SkipList S K :=
  let sl := sl.setBackward n (if u = 0 then none else some u)
  match sl.forward n 0 with
  | some f => sl.setBackward f (some n)
  | none => { sl with tail := some n }

def insertAt (path : Path) (newLevel : ℕ) (score : S) (key : K) (sl : SkipList S K) :
    SkipList S K × ℕ :=
  let path := if sl.level < newLevel then expandPath sl.level newLevel path else path
  let sl := if sl.level < newLevel then sl.expand newLevel else sl
  let n := sl.fresh
  let sl := sl.create key score newLevel
  let sl := sl.forLevels 0 newLevel (wire path n)
  let sl := sl.forLevels newLevel sl.level (bump path)
  let sl := sl.mirror (path 0).1 n
  ({ sl with length := sl.length+1 },n)

def unlink (path : Path) (x i : ℕ) (sl : SkipList S K) : SkipList S K :=
  let u := (path i).1
  if sl.forward u i = some x then sl.setLevel u i (sl.forward x i) (sl.span u i+(sl.span x i-1))
  else sl.setLevel u i (sl.forward u i) (sl.span u i-1)

def shrink (sl : SkipList S K) : ℕ → ℕ
  | 0 => 0
  | 1 => 1
  | l+2 => if sl.forward 0 (l+1) = none then shrink sl (l+1) else l+2

def deleteNode (x : ℕ) (path : Path) (sl : SkipList S K) : SkipList S K :=
  let sl := sl.forLevels 0 sl.level (unlink path x)
  let sl := match sl.forward x 0 with
    | some f => sl.setBackward f (sl.nodes x).backward
    | none => { sl with tail := (sl.nodes x).backward }
  { sl with level := sl.shrink sl.level, length := sl.length-1 }

section Ordered
variable [LinearOrder S] [LinearOrder K]

def insert (flips : ℕ → Bool) (score : S) (key : K) (sl : SkipList S K) :
    Option (SkipList S K × ℕ) := do
  let (_,path) ← sl.search score key
  some (sl.insertAt path (randomLevel flips) score key)

def exactly (score : S) (key : K) (x : ℕ) (sl : SkipList S K) : Option ℕ :=
  (sl.forward x 0).filter (fun y => (sl.nodes y).score = score ∧ (sl.nodes y).key = key)

def delete (score : S) (key : K) (sl : SkipList S K) : Option (SkipList S K × Bool) := do
  let (x,path) ← sl.search score key
  match sl.exactly score key x with
  | some y => some (sl.deleteNode y path,true)
  | none => some (sl,false)

def staysBetween (newScore : S) (y : ℕ) (sl : SkipList S K) : Bool :=
  ((sl.nodes y).backward.all (fun b => (sl.nodes b).score < newScore)) &&
    ((sl.forward y 0).all (fun f => newScore < (sl.nodes f).score))

def setScore (y : ℕ) (score : S) (sl : SkipList S K) : SkipList S K :=
  { sl with nodes := update sl.nodes y { sl.nodes y with score := score } }

def updateScore (flips : ℕ → Bool) (curScore : S) (key : K) (newScore : S) (sl : SkipList S K) :
    Option (SkipList S K × Option ℕ) := do
  let (x,path) ← sl.search curScore key
  match sl.exactly curScore key x with
  | none => some (sl,none)
  | some y =>
    if sl.staysBetween newScore y then some (sl.setScore y newScore,some y)
    else do
      let (sl,n) ← (sl.deleteNode y path).insert flips newScore key
      some (sl,some n)

end Ordered

/-! ## Queries -/

def rankLoop (rank : ℤ) (sl : SkipList S K) : ℕ → ℕ → ℤ → Option (Option ℕ)
  | 0, _, _ => some none
  | i+1, x, traversed => do
    let (x,traversed) ← walk (sl.links i) (fun _ r => decide (r ≤ rank)) sl.fresh x traversed
    if traversed = rank then some (some x) else rankLoop rank sl i x traversed

def getByRank (rank : ℤ) (sl : SkipList S K) : Option (Option ℕ) :=
  if rank ≤ 0 ∨ sl.length < rank then some none else sl.rankLoop rank sl.level 0 0

section Ordered
variable [LinearOrder S] [LinearOrder K]

def reaches (sl : SkipList S K) (score : S) (key : K) (a : ℕ) : Bool :=
  (sl.nodes a).score < score ∨ (sl.nodes a).score = score ∧ (sl.nodes a).key ≤ key

def getRankLoop (score : S) (key : K) (sl : SkipList S K) : ℕ → ℕ → ℤ → Option ℤ
  | 0, _, _ => some 0
  | i+1, x, rank => do
    let (x,rank) ← walk (sl.links i) (fun a _ => sl.reaches score key a) sl.fresh x rank
    if (sl.nodes x).key = key ∧ (sl.nodes x).score = score then some rank
    else getRankLoop score key sl i x rank

def getRank (score : S) (key : K) (sl : SkipList S K) : Option ℤ :=
  sl.getRankLoop score key sl.level 0 0

end Ordered

def takeNodes (sl : SkipList S K) : ℕ → Option ℕ → List ℕ
  | 0, _ => []
  | _, none => []
  | k+1, some x => x::takeNodes sl k (sl.forward x 0)

def range (start stop : ℤ) (sl : SkipList S K) : Option (List ℕ) :=
  let start := if start < 0 then sl.length+start else start
  let stop := if stop < 0 then sl.length+stop else stop
  let start := if start < 0 then 0 else start
  let stop := if sl.length ≤ stop then sl.length-1 else stop
  if stop < start then some []
  else do
    let node ← sl.getByRank (start+1)
    some (sl.takeNodes (stop-start+1).toNat node)

structure ScoreRange (S : Type) where
  min : S
  max : S
  minExclusive : Bool
  maxExclusive : Bool

section Ordered
variable [LinearOrder S]

def gteMin (sr : ScoreRange S) (value : S) : Bool :=
  if sr.minExclusive then sr.min < value else sr.min ≤ value

def lteMax (sr : ScoreRange S) (value : S) : Bool :=
  if sr.maxExclusive then value < sr.max else value ≤ sr.max

def inRange (sr : ScoreRange S) (sl : SkipList S K) : Bool :=
  if sr.max < sr.min ∨ sr.min = sr.max ∧ (sr.minExclusive ∨ sr.maxExclusive) then false
  else if sl.tail.all (fun t => !gteMin sr (sl.nodes t).score) then false
  else if (sl.forward 0 0).all (fun f => !lteMax sr (sl.nodes f).score) then false
  else true

def collect (ok : ℕ → Bool) (sl : SkipList S K) : ℕ → Option ℕ → Option (List ℕ)
  | 0, _ => none
  | _+1, none => some []
  | fuel+1, some x => if ok x then (collect ok sl fuel (sl.forward x 0)).map (x::·) else some []

def rangeByScore (sr : ScoreRange S) (sl : SkipList S K) : Option (List ℕ) :=
  if sl.inRange sr then do
    let (x,_) ← descend (fun a _ => !gteMin sr (sl.nodes a).score) sl sl.level 0 0 (fun _ => (0,0))
    sl.collect (fun a => lteMax sr (sl.nodes a).score) (sl.fresh+1) (sl.forward x 0)
  else some []

end Ordered

def findKey [DecidableEq K] (key : K) (sl : SkipList S K) : ℕ → Option ℕ → Option (Option ℕ)
  | 0, _ => none
  | _+1, none => some none
  | fuel+1, some x => if (sl.nodes x).key = key then some (some x) else findKey key sl fuel (sl.forward x 0)

end SkipList
end GoCommon.SkipLists
