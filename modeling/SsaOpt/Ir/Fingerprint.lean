import SsaOpt.Ir.Printer
import SsaOpt.Text.Utf8

/-!
# Fingerprints

The fingerprint of a module is the 64-bit xxHash, with seed `0`, of its text in UTF-8. The hash
reads its input in stripes of 32 bytes with four lanes, then in words of eight and four bytes, then
byte by byte, and mixes the result.
-/

namespace SsaOpt

namespace XxHash

def prime1 : UInt64 := 0x9E3779B185EBCA87
def prime2 : UInt64 := 0xC2B2AE3D27D4EB4F
def prime3 : UInt64 := 0x165667B19E3779F9
def prime4 : UInt64 := 0x85EBCA77C2B2AE63
def prime5 : UInt64 := 0x27D4EB2F165667C5

/-- Rotates a word to the left. -/
def rotate (x : UInt64) (k : UInt64) : UInt64 := (x <<< k) ||| (x >>> (64 - k))

/-- The word of some bytes, least significant first. -/
def word (bytes : List UInt8) : UInt64 :=
  bytes.foldr (fun b acc => (acc <<< 8) ||| b.toUInt64) 0

/-- One step of a lane. -/
def advance (acc input : UInt64) : UInt64 := rotate (acc + input * prime2) 31 * prime1

/-- The four lanes. -/
structure Lanes where
  v1 : UInt64
  v2 : UInt64
  v3 : UInt64
  v4 : UInt64

/-- The lanes before the first stripe. -/
def Lanes.start : Lanes := ⟨prime1 + prime2, prime2, 0, 0 - prime1⟩

/-- One stripe of 32 bytes. -/
def Lanes.stripe (l : Lanes) (s : List UInt8) : Lanes :=
  ⟨advance l.v1 (word (s.take 8)), advance l.v2 (word ((s.drop 8).take 8)),
    advance l.v3 (word ((s.drop 16).take 8)), advance l.v4 (word ((s.drop 24).take 8))⟩

/-- Folds a lane into the hash. -/
def mergeLane (acc lane : UInt64) : UInt64 := (acc ^^^ advance 0 lane) * prime1 + prime4

/-- The four lanes as one word. -/
def Lanes.merge (l : Lanes) : UInt64 :=
  let sum := rotate l.v1 1 + rotate l.v2 7 + rotate l.v3 12 + rotate l.v4 18
  mergeLane (mergeLane (mergeLane (mergeLane sum l.v1) l.v2) l.v3) l.v4

/-- Reads as many stripes as there are; the bytes left over come back with the lanes. -/
def stripes : Nat → Lanes → List UInt8 → Lanes × List UInt8
  | 0, l, bytes => (l, bytes)
  | n + 1, l, bytes => stripes n (l.stripe (bytes.take 32)) (bytes.drop 32)

/-- The bytes that fill no stripe: words of eight, then of four, then single bytes. -/
def tail : Nat → UInt64 → List UInt8 → UInt64
  | 0, h, _ => h
  | fuel + 1, h, bytes =>
    if 8 ≤ bytes.length then
      tail fuel (rotate (h ^^^ advance 0 (word (bytes.take 8))) 27 * prime1 + prime4) (bytes.drop 8)
    else if 4 ≤ bytes.length then
      tail fuel (rotate (h ^^^ (word (bytes.take 4) * prime1)) 23 * prime2 + prime3) (bytes.drop 4)
    else
      match bytes with
      | [] => h
      | b :: rest => tail fuel (rotate (h ^^^ (b.toUInt64 * prime5)) 11 * prime1) rest

/-- The final mix. -/
def avalanche (h : UInt64) : UInt64 :=
  let h := (h ^^^ (h >>> 33)) * prime2
  let h := (h ^^^ (h >>> 29)) * prime3
  h ^^^ (h >>> 32)

/-- The 64-bit xxHash of some bytes, with seed `0`. -/
def hash (bytes : List UInt8) : UInt64 :=
  let len := bytes.length
  let (h, rest) :=
    if 32 ≤ len then
      let (lanes, rest) := stripes (len / 32) Lanes.start bytes
      (lanes.merge, rest)
    else (prime5, bytes)
  avalanche (tail (rest.length + 1) (h + len.toUInt64) rest)

end XxHash

/-- The fingerprint of a module: the hash of its text. -/
def Module.fingerprint (m : Module) : UInt64 := XxHash.hash (Text.utf8Bytes m.render)

end SsaOpt
