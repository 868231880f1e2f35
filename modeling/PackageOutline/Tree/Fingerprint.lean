import PackageOutline.LittleEndian
import PackageOutline.Tree.Basic

/-! # Fingerprints

The fingerprint of a tree is a 64-bit hash of a stream of bytes.

* `Tree.stream` writes kinds, counts, lengths, names and contents one after the other, so that
  names, order and contents all count.
* `Fingerprint.hash` is MetroHash64 with seed zero: four lanes absorb blocks of 32 bytes, are folded
  into one, and the rest of the stream is mixed in by words of 16, 8, 4, 2 and 1 bytes. -/

namespace PackageOutline

namespace Fingerprint

def k0 : UInt64 := 0xD6D018F5
def k1 : UInt64 := 0xA2AA033B
def k2 : UInt64 := 0x62992FC1
def k3 : UInt64 := 0x30BC5B29

/-- The start of every lane. -/
def start : UInt64 := k2 * k0

/-- Rotates to the right. -/
def rotate (x : UInt64) (r : UInt64) : UInt64 := (x >>> r) ||| (x <<< (64 - r))

/-- The first `n` bytes as a word. -/
def word (n : Nat) (bs : Bytes) : UInt64 := UInt64.ofNat (LittleEndian.read (bs.take n))

/-- The four lanes. -/
structure Lanes where
  v0 : UInt64
  v1 : UInt64
  v2 : UInt64
  v3 : UInt64
deriving DecidableEq, Repr

/-- Absorbs one block of 32 bytes. -/
def Lanes.absorb (v : Lanes) (block : Bytes) : Lanes :=
  let v0 := rotate (v.v0 + word 8 block * k0) 29 + v.v2
  let v1 := rotate (v.v1 + word 8 (block.drop 8) * k1) 29 + v.v3
  let v2 := rotate (v.v2 + word 8 (block.drop 16) * k2) 29 + v0
  let v3 := rotate (v.v3 + word 8 (block.drop 24) * k3) 29 + v1
  ⟨v0, v1, v2, v3⟩

/-- Absorbs `n` blocks; also gives the bytes that are left. -/
def Lanes.absorbAll (v : Lanes) : Nat → Bytes → Lanes × Bytes
  | 0, bs => (v, bs)
  | n + 1, bs => (v.absorb (bs.take 32)).absorbAll n (bs.drop 32)

/-- Folds the lanes into one word. -/
def Lanes.fold (v : Lanes) : UInt64 :=
  let v2 := v.v2 ^^^ rotate ((v.v0 + v.v3) * k0 + v.v1) 37 * k1
  let v3 := v.v3 ^^^ rotate ((v.v1 + v2) * k1 + v.v0) 37 * k0
  let v0 := v.v0 ^^^ rotate ((v.v0 + v2) * k0 + v3) 37 * k1
  let v1 := v.v1 ^^^ rotate ((v.v1 + v3) * k1 + v2) 37 * k0
  start + (v0 ^^^ v1)

/-- Mixes in two words of the rest. -/
def mix16 (v0 : UInt64) (bs : Bytes) : UInt64 :=
  let v1 := rotate (v0 + word 8 bs * k2) 29 * k3
  let v2 := rotate (v0 + word 8 (bs.drop 8) * k2) 29 * k3
  let v1 := v1 ^^^ (rotate (v1 * k0) 21 + v2)
  let v2 := v2 ^^^ (rotate (v2 * k3) 21 + v1)
  v0 + v2

/-- Mixes in one word of `n` bytes of the rest. -/
def mixWord (n : Nat) (r : UInt64) (v0 : UInt64) (bs : Bytes) : UInt64 :=
  let v0 := v0 + word n bs * k3
  v0 ^^^ rotate v0 r * k1

/-- Mixes in the rest, which has fewer than 32 bytes. -/
def mixRest (v0 : UInt64) (bs : Bytes) : UInt64 :=
  let (v0, bs) := if 16 ≤ bs.length then (mix16 v0 bs, bs.drop 16) else (v0, bs)
  let (v0, bs) := if 8 ≤ bs.length then (mixWord 8 55 v0 bs, bs.drop 8) else (v0, bs)
  let (v0, bs) := if 4 ≤ bs.length then (mixWord 4 26 v0 bs, bs.drop 4) else (v0, bs)
  let (v0, bs) := if 2 ≤ bs.length then (mixWord 2 48 v0 bs, bs.drop 2) else (v0, bs)
  if 1 ≤ bs.length then mixWord 1 37 v0 bs else v0

/-- The final scrambling. -/
def finish (v0 : UInt64) : UInt64 :=
  let v0 := v0 ^^^ rotate v0 28
  let v0 := v0 * k0
  v0 ^^^ rotate v0 29

/-- The 64-bit hash of a stream of bytes. -/
def hash (bs : Bytes) : UInt64 :=
  let blocks := bs.length / 32
  let (lanes, rest) := Lanes.absorbAll ⟨start, start, start, start⟩ blocks bs
  finish (mixRest (if blocks = 0 then start else lanes.fold) rest)

/-- The 16 lower-case hexadecimal digits of a fingerprint. -/
def hex (h : UInt64) : String :=
  let digits := Nat.toDigits 16 h.toNat
  String.ofList (List.replicate (16 - digits.length) '0' ++ digits)

end Fingerprint

namespace Tree

variable {α : Type}

/-- A count or length in a stream. -/
def countBytes (n : Nat) : Bytes := LittleEndian.write 8 n

mutual

/-- The bytes that stand for a tree: a zero, the length and the contents for a file; a one, the
number of entries and the entries for a directory. -/
def stream : Tree α → Bytes
  | .file _ c => 0 :: (countBytes c.length ++ c)
  | .dir _ es => 1 :: (countBytes es.length ++ streamAll es)

/-- The bytes that stand for some entries: the length of the name, the name, the tree. -/
def streamAll : List (String × Tree α) → Bytes
  | [] => []
  | (n, t) :: es =>
    let name := Utf8.encode n
    countBytes name.length ++ (name ++ (t.stream ++ streamAll es))

end

/-- A hash of names, order and contents. -/
def fingerprint (t : Tree α) : UInt64 := Fingerprint.hash t.stream

mutual

theorem stream_map {β : Type} (f : α → β) : ∀ t : Tree α, (t.map f).stream = t.stream
  | .file _ _ => by simp [map, stream]
  | .dir _ es => by
    simp only [map, stream, length_mapAll, streamAll_mapAll f es]

theorem streamAll_mapAll {β : Type} (f : α → β) :
    ∀ es : List (String × Tree α), streamAll (mapAll f es) = streamAll es
  | [] => rfl
  | (_, t) :: es => by simp only [mapAll, streamAll, stream_map f t, streamAll_mapAll f es]

end

end Tree

end PackageOutline
