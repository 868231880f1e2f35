import PackageOutline.Snapshot.Codec

/-! # Compressed frames

Snapshots are stored in Zstandard frames: a header, blocks, and for each block its size and kind.
This module writes frames whose blocks hold their bytes as they are, and reads frames of such blocks
and of blocks that repeat one byte.  Several frames may follow each other, with skippable frames
between them.  Frames with compressed blocks, checksums or dictionaries are refused.

`Snapshot.pack` and `Snapshot.unpack` turn trees into frames and back. -/

namespace PackageOutline

namespace Frame

/-- The four bytes that begin a frame. -/
def magic : Bytes := [0x28, 0xB5, 0x2F, 0xFD]

/-- The largest number of bytes in a block. -/
def blockLimit : Nat := 131072

/-- The largest window a reader keeps. -/
def windowLimit : Nat := 1 <<< 27

/-- The bytes of a block that holds `content` as it is. -/
def rawBlock (last : Bool) (content : Bytes) : Bytes :=
  LittleEndian.write 3 (content.length * 8 + if last then 1 else 0) ++ content

/-- The blocks of some content; at most `more` of them are followed by another. -/
def blocks : (more : Nat) → Bytes → Bytes
  | 0, content => rawBlock true content
  | more + 1, content =>
    if content.length ≤ blockLimit then rawBlock true content
    else rawBlock false (content.take blockLimit) ++ blocks more (content.drop blockLimit)

/-- The header of the frames that are written: a window as large as the largest block, and no size
of the content, so that content of any size can be read back. -/
def header : Bytes := [0x00, 0x38]

/-- A frame that holds some content. -/
def write (content : Bytes) : Bytes := magic ++ (header ++ blocks content.length content)

/-- What the header of a frame says. -/
structure Header where
  /-- The size of the content, if it is given. -/
  size : Option Nat
  /-- The largest size of a block. -/
  block : Nat
deriving DecidableEq, Repr

/-- The first `n` bytes as a number, and those behind them. -/
def number (n : Nat) (bs : Bytes) : Option (Nat × Bytes) :=
  if (bs.take n).length = n then some (LittleEndian.read (bs.take n), bs.drop n) else none

/-- Reads a header, the magic number left aside. -/
def readHeader (bs : Bytes) : Option (Header × Bytes) := do
  let (flags, bs) ← number 1 bs
  let single := flags / 32 % 2 = 1
  let reserved := flags / 8 % 2 = 1
  let checksum := flags / 4 % 2 = 1
  if reserved ∨ checksum then none
  else do
    let (window, bs) ← if single then some (0, bs) else number 1 bs
    let exponent := 10 + window / 8
    let windowBase := 1 <<< exponent
    let windowSize := windowBase + windowBase / 8 * (window % 8)
    let (dictionary, bs) ← number ([0, 1, 2, 4].getD (flags % 4) 0) bs
    let sizeWidth := [if single then 1 else 0, 2, 4, 8].getD (flags / 64) 0
    let (size, bs) ← number sizeWidth bs
    let size := if sizeWidth = 2 then size + 256 else size
    let windowSize := if single then size else windowSize
    if dictionary ≠ 0 ∨ windowLimit < windowSize then none
    else some (⟨if sizeWidth = 0 then none else some size, min windowSize blockLimit⟩, bs)

/-- Reads blocks up to the last one; each takes at least three bytes, and `fuel` exceeds the number
of bytes. -/
def readBlocks (limit : Nat) : (fuel : Nat) → Bytes → Option (Bytes × Bytes)
  | 0, _ => none
  | fuel + 1, bs => do
    let (head, bs) ← number 3 bs
    let last := head % 2 = 1
    let size := head / 8
    if limit < size then none
    else do
      let (content, bs) ← match head / 2 % 4 with
        | 0 => if (bs.take size).length = size then some (bs.take size, bs.drop size) else none
        | 1 => match bs with
          | [] => none
          | b :: bs => some (List.replicate size b, bs)
        | _ => none
      if last then some (content, bs)
      else do
        let (more, bs) ← readBlocks limit fuel bs
        some (content ++ more, bs)

/-- Reads one frame; a skippable one has no content. -/
def readOne (bs : Bytes) : Option (Bytes × Bytes) := do
  let (start, rest) ← number 4 bs
  if start = LittleEndian.read magic then do
    let (header, rest) ← readHeader rest
    let (content, rest) ← readBlocks header.block (rest.length + 1) rest
    match header.size with
    | some size => if content.length = size then some (content, rest) else none
    | none => some (content, rest)
  else if start / 16 = 0x184D2A5 then do
    let (size, rest) ← number 4 rest
    if (rest.take size).length = size then some ([], rest.drop size) else none
  else none

/-- Reads frames to the end; `fuel` is at least the number of bytes. -/
def readAll : (fuel : Nat) → Bytes → Option Bytes
  | _, [] => some []
  | 0, _ :: _ => none
  | fuel + 1, b :: bs => do
    let (content, rest) ← readOne (b :: bs)
    let more ← readAll fuel rest
    some (content ++ more)

/-- The content of one or more frames. -/
def read (bs : Bytes) : Option Bytes :=
  if bs.isEmpty then none else readAll bs.length bs

end Frame

namespace Snapshot

variable {α : Type}

/-- The stored form of a tree, for a way to compress. -/
def packWith (compress : Bytes → Bytes) (t : Tree α) : Bytes := compress (encode t)

/-- The tree of a stored form, for a way to decompress. -/
def unpackWith (decompress : Bytes → Option Bytes) (bs : Bytes) : Except SnapshotError FileTree :=
  match decompress bs with
  | none => .error .decompress
  | some content => decode content

/-- The stored form of a tree. -/
def pack (t : Tree α) : Bytes := packWith Frame.write t

/-- The tree of a stored form. -/
def unpack (bs : Bytes) : Except SnapshotError FileTree := unpackWith Frame.read bs

end Snapshot

end PackageOutline
