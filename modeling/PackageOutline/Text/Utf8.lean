/-! # Text as UTF-8 bytes

File contents and paths are sequences of bytes; identifiers and descriptions are text.  This
module encodes text and reads bytes back, strictly or with replacement characters.

* `Utf8.next` reads one character, or tells how many bytes form the longest piece that could have
  begun a character and did not.
* `Utf8.decode` accepts exactly sequences of characters and otherwise says where they stop.
* `Utf8.repair` puts one replacement character for each such piece. -/

namespace PackageOutline

/-- Raw contents. -/
abbrev Bytes := List UInt8

namespace Utf8

/-- The bytes of a text. -/
def encode (s : String) : Bytes := s.toList.flatMap String.utf8EncodeChar

/-- What stands at the front of a sequence of bytes. -/
inductive Front where
  /-- Nothing: the sequence is empty. -/
  | done
  /-- A character of `size` bytes. -/
  | char (c : Char) (size : Nat)
  /-- `size` bytes that begin no character. -/
  | broken (size : Nat)
  /-- The beginning of a character, of `size` bytes, that the end of the sequence cuts off. -/
  | cut (size : Nat)
deriving DecidableEq, Repr

/-- Whether a byte continues a character. -/
def isTail (b : UInt8) : Bool := 0x80 ≤ b && b ≤ 0xBF

/-- The six bits that a continuation byte adds. -/
def tailBits (b : UInt8) : Nat := (b &&& 0x3F).toNat

/-- How many continuation bytes follow a first byte, and the range of the first of them; nothing
for a byte that begins no character of more than one byte. -/
def expects (b : UInt8) : Option (Nat × UInt8 × UInt8) :=
  if 0xC2 ≤ b && b ≤ 0xDF then some (1, 0x80, 0xBF)
  else if b == 0xE0 then some (2, 0xA0, 0xBF)
  else if b == 0xED then some (2, 0x80, 0x9F)
  else if 0xE1 ≤ b && b ≤ 0xEF then some (2, 0x80, 0xBF)
  else if b == 0xF0 then some (3, 0x90, 0xBF)
  else if 0xF1 ≤ b && b ≤ 0xF3 then some (3, 0x80, 0xBF)
  else if b == 0xF4 then some (3, 0x80, 0x8F)
  else none

/-- Reads `n` further continuation bytes after `size` bytes with the value `value`. -/
def nextTail (size value : Nat) : Nat → Bytes → Front
  | 0, _ => .char (Char.ofNat value) size
  | _ + 1, [] => .cut size
  | n + 1, b :: bs =>
    if isTail b then nextTail (size + 1) (value * 64 + tailBits b) n bs else .broken size

/-- Reads the front of a sequence of bytes. -/
def next : Bytes → Front
  | [] => .done
  | b :: bs =>
    if b < 0x80 then .char (Char.ofNat b.toNat) 1
    else match expects b with
      | none => .broken 1
      | some (n, low, high) =>
        match bs with
        | [] => .cut 1
        | b' :: bs' =>
          if low ≤ b' && b' ≤ high then
            let lead := b.toNat % (1 <<< (6 - n))
            nextTail 2 (lead * 64 + tailBits b') (n - 1) bs'
          else .broken 1

/-- Where and how a sequence of bytes stops being text. -/
structure Fault where
  /-- Number of bytes that are text. -/
  valid : Nat
  /-- Number of bytes that begin no character; none when the end cuts a character off. -/
  broken : Option Nat
deriving DecidableEq, Repr

/-- What is wrong with the bytes, in words. -/
def Fault.message (f : Fault) : String :=
  match f.broken with
  | some n => s!"invalid utf-8 sequence of {n} bytes from index {f.valid}"
  | none => s!"incomplete utf-8 byte sequence from index {f.valid}"

/-- Reads at most `fuel` characters of `bs`, which start at byte `pos`. -/
def decodeFrom (pos : Nat) : Nat → Bytes → Except Fault (List Char)
  | 0, _ => .ok []
  | fuel + 1, bs =>
    match next bs with
    | .done => .ok []
    | .char c size => (decodeFrom (pos + size) fuel (bs.drop size)).map (c :: ·)
    | .broken size => .error ⟨pos, some size⟩
    | .cut _ => .error ⟨pos, none⟩

/-- The text that the bytes encode. -/
def decode (bs : Bytes) : Except Fault String :=
  (decodeFrom 0 bs.length bs).map String.ofList

/-- Reads at most `fuel` characters or broken pieces. -/
def repairFrom : Nat → Bytes → List Char
  | 0, _ => []
  | fuel + 1, bs =>
    match next bs with
    | .done => []
    | .char c size => c :: repairFrom fuel (bs.drop size)
    | .broken size | .cut size => '\uFFFD' :: repairFrom fuel (bs.drop size)

/-- The text of the bytes, with a replacement character for each piece that is not text. -/
def repair (bs : Bytes) : String := String.ofList (repairFrom bs.length bs)

end Utf8

end PackageOutline
