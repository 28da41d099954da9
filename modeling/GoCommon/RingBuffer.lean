import GoCommon.PowersOfTwo
import GoCommon.CircularWindow

/-!
# The ring buffer

The buffered bytes are a window of a circular array. The positions wrap by a
mask of the capacity minus one, and the array grows by three rules, of which
two do not keep the capacity a power of two. Lengths are natural numbers
without a bound; a requested capacity is taken to be at most 2^62, above which
rounding it up panics. The slice pool is taken to hand out an array of the
requested length, with any contents.
-/

set_option autoImplicit false

namespace GoCommon.RingBuffer
open CircularWindow PowersOfTwo

abbrev Cells := ℕ → UInt8

def minReadSize : ℕ := 512
def defaultRingCap : ℕ := 1024
def ringGrowThreshold : ℕ := 4*1024

inductive RingError where
  | ringEmpty
  deriving DecidableEq, Repr

structure Ring where
  buf : Cells
  capacity : ℕ
  readPos : ℕ
  writePos : ℕ
  empty : Bool

def newRing (fresh : Cells) (capacity : ℤ) : Ring :=
  if capacity = 0 then ⟨fresh,0,0,0,true⟩ else ⟨fresh,ceilToPowerOfTwo capacity,0,0,true⟩

namespace Ring

def buffered (rb : Ring) : ℕ :=
  if rb.readPos = rb.writePos then if rb.empty then 0 else rb.capacity
  else if rb.readPos < rb.writePos then rb.writePos-rb.readPos
  else rb.capacity-rb.readPos+rb.writePos

def available (rb : Ring) : ℕ :=
  if rb.readPos = rb.writePos then if rb.empty then rb.capacity else 0
  else if rb.writePos < rb.readPos then rb.readPos-rb.writePos
  else rb.capacity-rb.writePos+rb.readPos

def reset (rb : Ring) : Ring := { rb with readPos := 0, writePos := 0, empty := true }

def wrapIndex (rb : Ring) (idx : ℕ) : ℕ :=
  if rb.capacity = 0 then idx else idx &&& (rb.capacity-1)

def peekAll (rb : Ring) : List UInt8 × List UInt8 :=
  if rb.empty then ([],[])
  else if rb.readPos < rb.writePos then (segment rb.buf rb.readPos (rb.writePos-rb.readPos),[])
  else (segment rb.buf rb.readPos (rb.capacity-rb.readPos),
    if 0 < rb.writePos then segment rb.buf 0 rb.writePos else [])

def peek (n : ℤ) (rb : Ring) : List UInt8 × List UInt8 :=
  if rb.empty then ([],[])
  else if n ≤ 0 then rb.peekAll
  else
    let n := if rb.buffered < n.toNat then rb.buffered else n.toNat
    if rb.readPos < rb.writePos then (segment rb.buf rb.readPos n,[])
    else
      let headLen := rb.capacity-rb.readPos
      if n ≤ headLen then (segment rb.buf rb.readPos n,[])
      else (segment rb.buf rb.readPos headLen,segment rb.buf 0 (n-headLen))

def discard (n : ℤ) (rb : Ring) : Ring × ℕ :=
  if n ≤ 0 then (rb,0)
  else if n.toNat < rb.buffered then
    ({ rb with readPos := rb.wrapIndex (rb.readPos+n.toNat) },n.toNat)
  else (rb.reset,rb.buffered)

def advance (pos : ℕ) (rb : Ring) : Ring :=
  if pos = rb.writePos then rb.reset else { rb with readPos := pos }

def read (m : ℕ) (rb : Ring) : Ring × Except RingError (List UInt8) :=
  if m = 0 then (rb,.ok [])
  else if rb.empty then (rb,.error .ringEmpty)
  else
    let toRead := if m < rb.buffered then m else rb.buffered
    if rb.readPos < rb.writePos then
      (rb.advance (rb.readPos+toRead),.ok (segment rb.buf rb.readPos toRead))
    else
      let headLen := rb.capacity-rb.readPos
      (rb.advance (rb.wrapIndex (rb.readPos+toRead)),
        .ok (if toRead ≤ headLen then segment rb.buf rb.readPos toRead
          else segment rb.buf rb.readPos headLen++segment rb.buf 0 (toRead-headLen)))

def readByte (rb : Ring) : Ring × Except RingError UInt8 :=
  if rb.empty then (rb,.error .ringEmpty)
  else
    let pos := rb.readPos+1
    (rb.advance (if pos = rb.capacity then 0 else pos),.ok (rb.buf rb.readPos))

def quarterLoop (minCap : ℕ) : ℕ → ℕ → ℕ
  | 0, newCap => newCap
  | fuel+1, newCap => if 0 < newCap ∧ newCap < minCap then quarterLoop minCap fuel (newCap+newCap/4)
    else newCap

def calculateGrowth (minCap : ℕ) (rb : Ring) : ℕ :=
  let oldCap := rb.capacity
  if oldCap = 0 then if minCap ≤ defaultRingCap then defaultRingCap else ceilToPowerOfTwo minCap
  else if minCap ≤ oldCap*2 then
    if oldCap < ringGrowThreshold then oldCap*2
    else
      let newCap := quarterLoop minCap minCap oldCap
      if 0 < newCap then newCap else minCap
  else minCap

def grow (fresh : Cells) (minCap : ℕ) (rb : Ring) : Ring :=
  let newCap := rb.calculateGrowth minCap
  let bufferedLen := rb.buffered
  let (drained,copied) := rb.read newCap
  ⟨match copied with
    | .ok bytes => store fresh 0 bytes
    | .error _ => fresh,
    newCap,0,bufferedLen,if 0 < bufferedLen then false else drained.empty⟩

def place (p : List UInt8) (rb : Ring) : Ring :=
  let rb := if rb.readPos ≤ rb.writePos then
      let headSpace := rb.capacity-rb.writePos
      if p.length ≤ headSpace then
        { rb with buf := store rb.buf rb.writePos p, writePos := rb.writePos+p.length }
      else { rb with
        buf := store (store rb.buf rb.writePos (p.take headSpace)) 0 (p.drop headSpace)
        writePos := p.length-headSpace }
    else { rb with buf := store rb.buf rb.writePos p, writePos := rb.writePos+p.length }
  { rb with writePos := if rb.writePos = rb.capacity then 0 else rb.writePos, empty := false }

def write (fresh : Cells) (p : List UInt8) (rb : Ring) : Ring × ℕ :=
  if p.length = 0 then (rb,0)
  else
    let freeSpace := rb.available
    let rb := if freeSpace < p.length then rb.grow fresh (rb.capacity+p.length-freeSpace) else rb
    (rb.place p,p.length)

def writeString (fresh : Cells) (s : List UInt8) (rb : Ring) : Ring × ℕ := rb.write fresh s

def bytes (rb : Ring) : List UInt8 :=
  if rb.empty then []
  else if rb.readPos < rb.writePos then segment rb.buf rb.readPos (rb.writePos-rb.readPos)
  else segment rb.buf rb.readPos (rb.capacity-rb.readPos)++
    (if 0 < rb.writePos then segment rb.buf 0 rb.writePos else [])

end Ring
end GoCommon.RingBuffer
