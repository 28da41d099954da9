import GoCommon.BTreeNode

/-!
# The B+ tree

The pages of a tree lie in one buffer that grows when a page is allocated past
its end. Pages are named by their number; page zero is no page. The recursion
over the pages is bounded by fuel, and running out of it stands for a recursion
that does not come back.
-/

set_option autoImplicit false

namespace GoCommon.BTree
open BTreeNode

inductive Halt where
  | panic
  | hang
  deriving DecidableEq, Repr

def minSize : ℕ := 2^20

structure PageTree where
  pages : ℕ → Node
  size : ℕ
  nextPage : ℕ
  freePage : ℕ
  numLeafKeys : ℤ
  numPagesFree : ℤ

namespace PageTree

def node (t : PageTree) (pid : ℕ) : Except Halt Node :=
  if pid = 0 then .error .panic
  else if pageSize*pid+pageSize ≤ t.size then .ok (t.pages pid)
  else .error .panic

def write (t : PageTree) (pid : ℕ) (n : Node) : PageTree :=
  { t with pages := Function.update t.pages pid n }

def clear (n : Node) (bit pid : ℕ) : Node := setAt (setBit (zeroOut n 0 pageWords) bit) metaPidIdx pid

def newNode (bit : ℕ) (t : PageTree) : Except Halt (PageTree × ℕ) :=
  if 0 < t.freePage then do
    let n ← t.node t.freePage
    .ok ({ t.write t.freePage (clear n bit t.freePage) with
      freePage := n 0
      numPagesFree := t.numPagesFree-1 },t.freePage)
  else do
    let pid := t.nextPage
    let grown := { t with nextPage := pid+1, size := max t.size (pid*pageSize+pageSize) }
    let n ← grown.node pid
    .ok (grown.write pid (clear n bit pid),pid)

def split (pid : ℕ) (t : PageTree) : Except Halt (PageTree × ℕ) := do
  let n ← t.node pid
  if ¬isFull n then .error .panic
  else
    let (t,q) ← t.newNode (bits n)
    let n ← t.node pid
    let nn ← t.node q
    let keyed := copyWords nn (keyOffset 0) (keyOffset (maxKeys-maxKeys/2)) n (keyOffset (maxKeys/2))
    let moved := copyWords keyed (valOffset 0) (valOffset (maxKeys-maxKeys/2)) n (valOffset (maxKeys/2))
    let right := setNumKeys moved (maxKeys-maxKeys/2)
    let cut := zeroOut n (keyOffset (maxKeys/2)) (keyOffset maxKeys)
    let left := setNumKeys (zeroOut cut (valOffset (maxKeys/2)) (valOffset maxKeys)) (maxKeys/2)
    .ok ((t.write q right).write pid left,q)

def enter (n : Node) (k v : ℕ) : Except Halt (Node × ℕ) := match setNode n k v with
  | none => .error .panic
  | some r => .ok r

def ensureChild (pid idx : ℕ) (n : Node) (t : PageTree) : Except Halt (PageTree × ℕ) :=
  if val n idx = 0 then do
    let (t,q) ← t.newNode bitLeaf
    let child ← t.node q
    let n ← t.node pid
    .ok (t.write pid (setAt n (valOffset idx) (BTreeNode.pid child)),q)
  else .ok (t,val n idx)

def splitChild (pid idx child : ℕ) (t : PageTree) : Except Halt PageTree := do
  let (t,q) ← t.split child
  let n ← t.node pid
  let left ← t.node (n (valOffset idx))
  let right ← t.node q
  let (n,_) ← enter n (maxKey left) (BTreeNode.pid left)
  let (n,_) ← enter n (maxKey right) (BTreeNode.pid right)
  .ok (t.write pid n)

def setLoop : ℕ → ℕ → ℕ → ℕ → PageTree → Except Halt PageTree
  | 0, _, _, _, _ => .error .hang
  | fuel+1, pid, k, v, t => do
    let n ← t.node pid
    if isLeaf n then do
      let (n,added) ← enter n k v
      .ok { t.write pid n with numLeafKeys := t.numLeafKeys+added }
    else
      let idx := searchNode n k
      if maxKeys ≤ idx then .error .panic
      else do
        let named := if key n idx = 0 then
          setNumKeys (setAt n (keyOffset idx) k) (numKeys (setAt n (keyOffset idx) k)+1) else n
        let (t,childId) ← (t.write pid named).ensureChild pid idx named
        let child ← t.node childId
        let t ← setLoop fuel (BTreeNode.pid child) k v t
        let child ← t.node (BTreeNode.pid child)
        if isFull child then t.splitChild pid idx (BTreeNode.pid child) else .ok t

def splitRoot (t : PageTree) : Except Halt PageTree := do
  let (t,right) ← t.split 1
  let root ← t.node 1
  let (t,left) ← t.newNode (bits root)
  let root ← t.node 1
  let fresh ← t.node left
  let lower := setNumKeys (copyWords fresh 0 (keyOffset maxKeys) root 0) (numKeys root)
  let empty := setNumKeys (zeroOut root 0 pageWords) 0
  let upper ← t.node right
  let (one,_) ← enter empty (maxKey lower) (BTreeNode.pid lower)
  let (two,_) ← enter one (maxKey upper) (BTreeNode.pid upper)
  .ok ((t.write left lower).write 1 two)

def set (k v : ℕ) (t : PageTree) : Except Halt PageTree :=
  if k = maxUint64 ∨ k = 0 then .error .panic
  else do
    let t ← setLoop t.nextPage 1 k v t
    let root ← t.node 1
    if isFull root then t.splitRoot else .ok t

def getLoop (t : PageTree) (k : ℕ) : ℕ → ℕ → Except Halt ℕ
  | 0, _ => .error .hang
  | fuel+1, pid => do
    let n ← t.node pid
    if isLeaf n then .ok (getNode n k)
    else
      let idx := searchNode n k
      if idx = numKeys n ∨ key n idx = 0 then .ok 0
      else if n (valOffset idx) = 0 then .error .panic
      else getLoop t k fuel (n (valOffset idx))

def get (k : ℕ) (t : PageTree) : Except Halt ℕ :=
  if k = maxUint64 ∨ k = 0 then .error .panic else t.getLoop k t.nextPage 1

/-! ## Iteration -/

section Iteration
variable {σ : Type}

def childrenLoop (visit : ℕ → σ × PageTree → Except Halt (σ × PageTree)) (pid : ℕ) :
    ℕ → ℕ → σ × PageTree → Except Halt (σ × PageTree)
  | 0, _, s => .ok s
  | rest+1, i, s => do
    let n ← s.2.node pid
    if key n i = 0 then .ok s
    else do
      let s ← visit (n (valOffset i)) s
      childrenLoop visit pid rest (i+1) s

def iterate (fn : ℕ → σ × PageTree → Except Halt (σ × PageTree)) :
    ℕ → ℕ → σ × PageTree → Except Halt (σ × PageTree)
  | 0, _, _ => .error .hang
  | fuel+1, pid, s => do
    let s ← fn pid s
    let n ← s.2.node pid
    if isLeaf n then .ok s else childrenLoop (iterate fn fuel) pid maxKeys 0 s

def entriesLoop (f : σ → ℕ → ℕ → σ × ℕ) : ℕ → ℕ → σ → Node → σ × Node
  | 0, _, s, n => (s,n)
  | rest+1, i, s, n =>
    if val n i = 0 then entriesLoop f rest (i+1) s n
    else
      let (s,newVal) := f s (key n i) (val n i)
      entriesLoop f rest (i+1) s (if newVal ≠ 0 then setAt n (valOffset i) newVal else n)

def visitLeaf (f : σ → ℕ → ℕ → σ × ℕ) (pid : ℕ) (s : σ × PageTree) : Except Halt (σ × PageTree) := do
  let n ← s.2.node pid
  if ¬isLeaf n then .ok s
  else
    let (a,n) := entriesLoop f (numKeys n) 0 s.1 n
    .ok (a,s.2.write pid n)

def iterateKV (f : σ → ℕ → ℕ → σ × ℕ) (s : σ) (t : PageTree) : Except Halt (σ × PageTree) :=
  iterate (visitLeaf f) t.nextPage 1 (s,t)

end Iteration

/-! ## Deletion -/

def free (pid : ℕ) (t : PageTree) : Except Halt PageTree := do
  let n ← t.node pid
  .ok { t.write pid (setAt n 0 t.freePage) with
    freePage := pid
    numPagesFree := t.numPagesFree+1 }

def freeChildren (release : ℕ → PageTree → Except Halt PageTree) (pid : ℕ) : ℕ → ℕ → PageTree → Except Halt PageTree
  | 0, _, t => .ok t
  | rest+1, i, t => do
    let n ← t.node pid
    let t ← release (n (valOffset i)) t
    freeChildren release pid rest (i+1) t

def recursiveFree : ℕ → ℕ → PageTree → Except Halt PageTree
  | 0, _, _ => .error .hang
  | fuel+1, pid, t => do
    let n ← t.node pid
    if isLeaf n then ({ t with numLeafKeys := t.numLeafKeys-numKeys n }).free pid
    else do
      let t ← freeChildren (recursiveFree fuel) pid (numKeys n) 0 t
      t.free pid

def compactChildren (drop : ℕ → PageTree → Except Halt PageTree) (visit : ℕ → PageTree → Except Halt (PageTree × ℕ))
    (pid ts total : ℕ) : ℕ → ℕ → PageTree → Except Halt PageTree
  | 0, _, t => .ok t
  | rest+1, i, t => do
    let n ← t.node pid
    if key n i = 0 then .error .panic
    else if key n i < ts then do
      let t ← drop (n (valOffset i)) t
      let n ← t.node pid
      compactChildren drop visit pid ts total rest (i+1) (t.write pid (setAt n (valOffset i) 0))
    else do
      let childId := n (valOffset i)
      let (t,rem) ← visit childId t
      if rem = 0 ∧ i+1 < total then do
        let child ← t.node childId
        let t ← ({ t with numLeafKeys := t.numLeafKeys-numKeys child }).free childId
        let n ← t.node pid
        compactChildren drop visit pid ts total rest (i+1) (t.write pid (setAt n (valOffset i) 0))
      else compactChildren drop visit pid ts total rest (i+1) t

def compactLoop (ts : ℕ) : ℕ → ℕ → PageTree → Except Halt (PageTree × ℕ)
  | 0, _, _ => .error .hang
  | fuel+1, pid, t => do
    let n ← t.node pid
    if isLeaf n then
      let (n,rem) := compactNode ts n
      .ok ({ t.write pid n with numLeafKeys := t.numLeafKeys+numKeys n },rem)
    else do
      let t ← compactChildren (recursiveFree fuel) (compactLoop ts fuel) pid ts (numKeys n) (numKeys n)
        0 t
      let n ← t.node pid
      let (n,rem) := compactNode 1 n
      .ok (t.write pid n,rem)

def deleteBelow (ts : ℕ) (t : PageTree) : Except Halt PageTree := do
  let (t,_) ← compactLoop ts t.nextPage 1 { t with numLeafKeys := 0 }
  .ok t

end PageTree

def newTree (pages : ℕ → Node) : Except Halt PageTree := do
  let (t,_) ← PageTree.newNode 0 ⟨pages,minSize,1,0,0,0⟩
  t.set absoluteMax 0

end GoCommon.BTree
