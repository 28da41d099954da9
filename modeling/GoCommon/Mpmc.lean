import GoCommon.PowersOfTwo
import GoCommon.StepRuns

/-!
# The queue of many producers and consumers

Producers and consumers take positions by a compare-and-swap on the head and on
the tail. A position belongs to a slot and to a lap; the turn of the slot says
whose it is: twice the lap for the producer of the position, one more for its
consumer. A step of the model is one atomic access. Positions are natural
numbers; the source counts them in 64 bits. The last four fields of a state
record what has happened.
-/

set_option autoImplicit false

namespace GoCommon.Mpmc
open PowersOfTwo

structure Slot (α : Type) where
  turn : ℕ
  data : α

inductive Side where
  | enqueue
  | dequeue
  deriving DecidableEq, Repr

def Side.bit : Side → ℕ
  | .enqueue => 0
  | .dequeue => 1

variable {α : Type}

inductive Call (α : Type) where
  | enqueue (item : α)
  | dequeue
  deriving DecidableEq, Repr

def Call.side : Call α → Side
  | .enqueue _ => .enqueue
  | .dequeue => .dequeue

inductive Pc (α : Type) where
  | idle
  | load (c : Call α)
  | turn (c : Call α) (pos : ℕ)
  | swap (c : Call α) (pos : ℕ)
  | check (c : Call α) (pos : ℕ)
  | write (item : α) (pos : ℕ)
  | read (pos : ℕ)
  | clear (pos : ℕ) (data : α)
  | publish (c : Call α) (pos : ℕ) (data : α)
  deriving DecidableEq, Repr

def Pc.isIdle : Pc α → Bool
  | .idle => true
  | _ => false

structure State (α : Type) where
  capacity : ℕ
  mask : ℕ
  capacityLog2 : ℕ
  slots : ℕ → Slot α
  head : ℕ
  tail : ℕ
  pcs : ℕ → Pc α
  enqWon : List (ℕ × α)
  deqWon : List ℕ
  stored : List ℕ
  returned : List (ℕ × α)

def trailingZeros : ℕ → ℕ → ℕ
  | 0, _ => 0
  | fuel+1, n => if n%2 = 0 then trailingZeros fuel (n/2)+1 else 0

def newMPMC (zero : α) (capacity : ℤ) : Option (State α) :=
  let capacity := if capacity < 2 then 2 else capacity
  if maxIntHeadBit < capacity then none
  else
    let c := ceilToPowerOfTwo capacity
    some ⟨c,c-1,trailingZeros 64 c,fun _ => ⟨0,zero⟩,0,0,fun _ => .idle,[],[],[],[]⟩

namespace State

def idx (s : State α) (pos : ℕ) : ℕ := pos &&& s.mask

def turn (s : State α) (pos : ℕ) : ℕ := pos >>> s.capacityLog2

def expectedTurn (s : State α) (side : Side) (pos : ℕ) : ℕ := s.turn pos*2+side.bit

def position (s : State α) : Side → ℕ
  | .enqueue => s.head
  | .dequeue => s.tail

def goto (τ : ℕ) (pc : Pc α) (s : State α) : State α := { s with pcs := Function.update s.pcs τ pc }

def win (c : Call α) (pos : ℕ) (s : State α) : State α := match c with
  | .enqueue item => { s with head := pos+1, enqWon := (pos,item)::s.enqWon }
  | .dequeue => { s with tail := pos+1, deqWon := pos::s.deqWon }

def setData (pos : ℕ) (x : α) (s : State α) : State α :=
  { s with slots := Function.update s.slots (s.idx pos) ⟨(s.slots (s.idx pos)).turn,x⟩ }

def setTurn (pos t : ℕ) (s : State α) : State α :=
  { s with slots := Function.update s.slots (s.idx pos) ⟨t,(s.slots (s.idx pos)).data⟩ }

def finish (c : Call α) (pos : ℕ) (data : α) (s : State α) : State α := match c with
  | .enqueue _ => { s with stored := pos::s.stored }
  | .dequeue => { s with returned := (pos,data)::s.returned }

end State

def access (c : Call α) (pos : ℕ) : Pc α := match c with
  | .enqueue item => .write item pos
  | .dequeue => .read pos

def advance (zero : α) (τ : ℕ) (s : State α) : Option (State α) := match s.pcs τ with
  | .idle => none
  | .load c => some (s.goto τ (.turn c (s.position c.side)))
  | .turn c pos =>
    if (s.slots (s.idx pos)).turn = s.expectedTurn c.side pos then some (s.goto τ (.swap c pos))
    else some (s.goto τ (.check c pos))
  | .swap c pos =>
    if s.position c.side = pos then some ((s.win c pos).goto τ (access c pos))
    else some (s.goto τ (.load c))
  | .check c pos =>
    if pos = s.position c.side then some (s.goto τ .idle) else some (s.goto τ (.load c))
  | .write item pos => some ((s.setData pos item).goto τ (.publish (.enqueue item) pos item))
  | .read pos => some (s.goto τ (.clear pos (s.slots (s.idx pos)).data))
  | .clear pos data => some ((s.setData pos zero).goto τ (.publish .dequeue pos data))
  | .publish c pos data =>
    some (((s.setTurn pos (s.expectedTurn c.side pos+1)).finish c pos data).goto τ .idle)

inductive Step (α : Type) where
  | call (τ : ℕ) (c : Call α)
  | advance (τ : ℕ)

def step (zero : α) : Step α → State α → Option (State α)
  | .call τ c, s => match s.pcs τ with
    | .idle => some (s.goto τ (.load c))
    | _ => none
  | .advance τ, s => Mpmc.advance zero τ s

def owned : Pc α → Option (Side × ℕ)
  | .write _ pos => some (.enqueue,pos)
  | .read pos => some (.dequeue,pos)
  | .clear pos _ => some (.dequeue,pos)
  | .publish c pos _ => some (c.side,pos)
  | _ => none

end GoCommon.Mpmc
