import PackageOutline.LittleEndian

/-! # Numbers of varying width

A number below 251 is one byte.  A larger one is a marker byte and 2, 4, 8 or 16 bytes, the lowest
first.  Writing takes the shortest form; reading accepts longer ones, as long as the form is not
wider than the number that is asked for. -/

namespace PackageOutline

/-- Why the bytes of a snapshot cannot be read. -/
inductive DecodeError where
  /-- The bytes end too early. -/
  | unexpectedEnd
  /-- A name is not text. -/
  | notText
  /-- A node is of no known kind. -/
  | unknownKind
  /-- A number has a form that is too wide, or none. -/
  | badNumber
deriving DecidableEq, Repr

namespace Varint

/-- The bytes of a number below 2^64. -/
def write (n : Nat) : Bytes :=
  if n ≤ 250 then [UInt8.ofNat n]
  else if n < 0x10000 then 251 :: LittleEndian.write 2 n
  else if n < 0x100000000 then 252 :: LittleEndian.write 4 n
  else 253 :: LittleEndian.write 8 n

/-- The first `n` bytes, and those behind them. -/
def takeBytes (n : Nat) (bs : Bytes) : Except DecodeError (Bytes × Bytes) :=
  let piece := bs.take n
  if piece.length = n then .ok (piece, bs.drop n) else .error .unexpectedEnd

/-- The number behind a marker byte, of at most `width` bytes. -/
def readMarked (width : Nat) (marker : UInt8) (bs : Bytes) : Except DecodeError (Nat × Bytes) :=
  let size := if marker = 251 then 2 else if marker = 252 then 4 else if marker = 253 then 8 else 0
  if size = 0 ∨ width < size then .error .badNumber
  else (takeBytes size bs).map fun (piece, rest) => (LittleEndian.read piece, rest)

/-- Reads a number of at most `width` bytes; also gives the bytes behind it. -/
def read (width : Nat) : Bytes → Except DecodeError (Nat × Bytes)
  | [] => .error .unexpectedEnd
  | b :: bs => if b ≤ 250 then .ok (b.toNat, bs) else readMarked width b bs

end Varint

end PackageOutline
