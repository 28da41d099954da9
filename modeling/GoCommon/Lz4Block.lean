import GoCommon.ByteWords

/-!
# LZ4 blocks

A block is a list of sequences: a token with two lengths of four bits, literals, the
distance of a match and the rest of its length. A length of fifteen is continued in the
bytes that follow. The last sequence has literals only. The compressor looks for one
run of a byte; it keeps a block that restores its input and is shorter, and reports any
other input as incompressible.
-/

set_option autoImplicit false

namespace GoCommon.Lz4Block
open List ByteWords

/-! ## Restoring a block -/

def continued : ℕ → Bytes → Option (ℕ × Bytes)
  | _, [] => none
  | n, b::src => if b = 255 then continued (n+255) src else some (n+b.toNat,src)

def readLength (nibble : ℕ) (src : Bytes) : Option (ℕ × Bytes) :=
  if nibble < 15 then some (nibble,src) else continued nibble src

def copyMatch (offset : ℕ) : ℕ → Bytes → Option Bytes
  | 0, out => some out
  | n+1, out =>
    if offset = 0 ∨ out.length < offset then none
    else (out[out.length-offset]?).bind (fun b => copyMatch offset n (out++[b]))

def restore : ℕ → Bytes → Bytes → Option Bytes
  | n+1, token::src, out =>
    (readLength (token.toNat/16) src).bind fun literals =>
      if literals.2.length < literals.1 then none
      else match literals.2.drop literals.1 with
        | [] => some (out++literals.2.take literals.1)
        | low::high::src => (readLength (token.toNat%16) src).bind fun length =>
          (copyMatch (low.toNat+256*high.toNat) (length.1+4) (out++literals.2.take literals.1)).bind
            (restore n length.2)
        | _ => none
  | _, _, _ => none

def uncompressBlock (src : Bytes) (size : ℕ) : Option Bytes :=
  (restore src.length src []).filter (fun out => out.length ≤ size)

/-! ## Compressing -/

def lengthBytes (n : ℕ) : Bytes :=
  if n < 15 then [] else List.replicate ((n-15)/255) 255++[UInt8.ofNat ((n-15)%255)]

def token (literals length : ℕ) : UInt8 := UInt8.ofNat (16*min literals 15+min length 15)

def lastLiterals (literals : Bytes) : Bytes :=
  token literals.length 0::(lengthBytes literals.length++literals)

def matchAfter (literals : Bytes) (offset length : ℕ) : Bytes :=
  token literals.length (length-4)::(lengthBytes literals.length++literals++
    [UInt8.ofNat offset,UInt8.ofNat (offset/256)]++lengthBytes (length-4))

def repeats : Bytes → ℕ
  | [] => 0
  | b::src => (src.takeWhile (· = b)).length

def encode (src : Bytes) : Bytes :=
  let i := src.tails.findIdx (fun l => 4 ≤ repeats l)
  let length := min (repeats (src.drop i)) (src.length-(i+1)-5)
  matchAfter (src.take (i+1)) 1 length++lastLiterals (src.drop (i+1+length))

def compressBlock (src : Bytes) : Option Bytes :=
  if (encode src).length < src.length ∧ restore (encode src).length (encode src) [] = some src
  then some (encode src) else some []

theorem compressBlock_restored {src out : Bytes} (h : compressBlock src = some out) (hne : out ≠ []) :
    restore out.length out [] = some src := by
  rw [compressBlock] at h
  split at h
  · rename_i hkept
    cases h
    exact hkept.2
  · cases h
    exact absurd rfl hne

theorem uncompressBlock_eq {src out : Bytes} (h : compressBlock src = some out) (hne : out ≠ []) (size : ℕ) :
    uncompressBlock out size = if src.length ≤ size then some src else none := by
  rw [uncompressBlock, compressBlock_restored h hne, Option.filter_some]
  simp only [decide_eq_true_eq]

end GoCommon.Lz4Block
