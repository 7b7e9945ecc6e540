import Catapult.Crc32

/-!
# Bytes and big-endian integers: `binary.c`

The readers and writers of single bytes and big-endian integers,
`buffer_from_file` and `crc32_from_file`. The outcome of each library call that
can fail is a parameter of the function that makes it.
-/

namespace Catapult

open BigEndian Cursor Stdio

/-! ## Binary reading -/

def readByte : Read Byte := do
  let o := (← get).offset
  let x ← index o
  let o' ← int (o + 1)
  modify fun s => { s with offset := o' }
  return x

def readBytes (n : Nat) : Read (Vector Byte n) := fill readByte n

/-- `x << k`, with `x` promoted to `int`. -/
def shiftPromoted (x : Byte) (k : Nat) : Read (BitVec 32) := do
  return BitVec.ofInt 32 (← int (x.toNat * 2 ^ k))

def readBeUint16 : Read (BitVec 16) := do
  let turn ← operandRank 2
  let x ← fill readByte 2
  let hi ← shiftPromoted (x.get (turn 0)) 8
  let lo ← shiftPromoted (x.get (turn 1)) 0
  return (hi ||| lo).setWidth 16

def readBeUint32 : Read (BitVec 32) := do
  let turn ← operandRank 4
  let x ← fill readByte 4
  let b₃ ← shiftPromoted (x.get (turn 0)) 24
  let b₂ ← shiftPromoted (x.get (turn 1)) 16
  let b₁ ← shiftPromoted (x.get (turn 2)) 8
  let b₀ ← shiftPromoted (x.get (turn 3)) 0
  return b₃ ||| b₂ ||| b₁ ||| b₀

/-! ## Binary writing -/

def writeByte (x : Byte) : Write Unit := fwrite [x]

def writeBeUint16 (x : BitVec 16) : Write Unit := do
  writeByte ((x >>> 8).setWidth 8)
  writeByte (x.setWidth 8)

def writeBeUint32 (x : BitVec 32) : Write Unit := do
  writeByte ((x >>> 24).setWidth 8)
  writeByte ((x >>> 16).setWidth 8)
  writeByte ((x >>> 8).setWidth 8)
  writeByte (x.setWidth 8)

/-! ## File buffer -/

/-- How `fopen`, `malloc` and `fread` turn out in one call of
`buffer_from_file`; `missing` bytes at the end are not delivered. -/
structure LoadOutcome where
  opens : Bool
  allocs : Bool
  missing : Nat

def LoadOutcome.success : LoadOutcome := ⟨true, true, 0⟩

/-- `*buffer` and the size returned. -/
structure Buffer where
  ptr : Option (List Byte)
  size : Nat

def Buffer.bytes (buf : Buffer) : List Byte := (buf.ptr.getD []).take buf.size

def bufferFromFile (o : LoadOutcome) (filename : String) (w : World) : Buffer × World :=
  match openRead o.opens filename w with
  | none => (⟨none, 0⟩, w.report ["Cannot find file: " ++ filename ++ "\n"])
  | some content =>
    let fSize := content.length
    if !o.allocs then (⟨none, 0⟩, w.report ["Error allocating buffer mem\n"])
    else
      let got := fSize - o.missing
      if got ≠ fSize then
        (⟨some (content.take got), 0⟩, w.report ["Read inconsistent bytes. Something is wrong.\n"])
      else (⟨some content, fSize⟩, w)

/-! ## Checksum -/

structure ChecksumOutcome where
  opens : Bool
  load : LoadOutcome

def ChecksumOutcome.success : ChecksumOutcome := ⟨true, .success⟩

/-- `crc32_from_file`. No build defines `CHECKSUM_BUFFER`, so the file it opens
is only there to be closed again. -/
def crc32FromFile (build : Build) (o : ChecksumOutcome) (filename : String) (w : World) :
    Except Fault (BitVec 32 × World) :=
  match openRead o.opens filename w with
  | none => return (0, w.report ["Failed to open file in the crc32 function\n"])
  | some _ => do
    let (buffer, w) := bufferFromFile o.load filename w
    let result ← crc32 build (buffer.ptr.getD []) (BitVec.ofNat 32 buffer.size)
    return (result, w)

end Catapult
