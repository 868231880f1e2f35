import PackageOutline.Snapshot.Varint
import PackageOutline.Tree.Edit

/-! # Trees as bytes

The plain form of a snapshot: the version of the format, then the topmost node.  A node is a zero,
the length and the contents of a file, or a one, the number of entries and the entries of a
directory; an entry is the length of its name, the name and its node.  All numbers have varying
width.

Reading ignores what follows the topmost node.  Names that repeat within a directory are merged, the
last entry counts and stands last.  The version is looked at only after everything else was read. -/

namespace PackageOutline

/-- Why a snapshot cannot be read. -/
inductive SnapshotError where
  | decompress
  | decode (cause : DecodeError)
  | unsupportedVersion (version : Nat)
deriving DecidableEq, Repr

/-- The error in words. -/
def SnapshotError.message : SnapshotError → String
  | .decompress => "Failed to decompress the snapshot"
  | .decode _ => "Failed to decode the snapshot"
  | .unsupportedVersion version => s!"Unsupported snapshot format version {version}"

namespace Snapshot

variable {α : Type}

/-- The version of the format. -/
def version : Nat := 1

/-- A length and as many bytes. -/
def writeBytes (bs : Bytes) : Bytes := Varint.write bs.length ++ bs

mutual

/-- The bytes of a node. -/
def writeNode : Tree α → Bytes
  | .file _ c => Varint.write 0 ++ writeBytes c
  | .dir _ es => Varint.write 1 ++ (Varint.write es.length ++ writeEntries es)

/-- The bytes of some entries. -/
def writeEntries : List (String × Tree α) → Bytes
  | [] => []
  | (n, t) :: es => writeBytes (Utf8.encode n) ++ (writeNode t ++ writeEntries es)

end

/-- The bytes of a tree. -/
def encode (t : Tree α) : Bytes := Varint.write version ++ writeNode t

/-- The width of counts and lengths. -/
def countWidth : Nat := 8

/-- The width of versions and kinds. -/
def tagWidth : Nat := 4

/-- Reads a length and as many bytes. -/
def readBytes (bs : Bytes) : Except DecodeError (Bytes × Bytes) := do
  let (n, bs) ← Varint.read countWidth bs
  Varint.takeBytes n bs

/-- Reads a name. -/
def readName (bs : Bytes) : Except DecodeError (String × Bytes) := do
  let (piece, bs) ← readBytes bs
  match Utf8.decode piece with
  | .ok name => .ok (name, bs)
  | .error _ => .error .notText

mutual

/-- Reads a node; `fuel` exceeds the number of bytes. -/
def readNode : (fuel : Nat) → Bytes → Except DecodeError (FileTree × Bytes)
  | 0, _ => .error .unexpectedEnd
  | fuel + 1, bs => do
    let (kind, bs) ← Varint.read tagWidth bs
    match kind with
    | 0 =>
      let (c, bs) ← readBytes bs
      return (.file () c, bs)
    | 1 =>
      let (count, bs) ← Varint.read countWidth bs
      let (es, bs) ← readEntries fuel count bs
      return (Tree.ofEntries () es, bs)
    | _ => throw .unknownKind

/-- Reads some entries; `fuel` exceeds the number of bytes. -/
def readEntries : (fuel count : Nat) → Bytes →
    Except DecodeError (List (String × FileTree) × Bytes)
  | _, 0, bs => .ok ([], bs)
  | 0, _ + 1, _ => .error .unexpectedEnd
  | fuel + 1, count + 1, bs => do
    let (name, bs) ← readName bs
    let (t, bs) ← readNode fuel bs
    let (es, bs) ← readEntries fuel count bs
    return ((name, t) :: es, bs)

end

/-- Reads the version and the topmost node. -/
def readAll (bs : Bytes) : Except DecodeError (Nat × FileTree) := do
  let (found, bs) ← Varint.read tagWidth bs
  let (t, _) ← readNode (bs.length + 1) bs
  return (found, t)

/-- The tree that the bytes stand for. -/
def decode (bs : Bytes) : Except SnapshotError FileTree :=
  match readAll bs with
  | .error cause => .error (.decode cause)
  | .ok (found, t) => if found = version then .ok t else .error (.unsupportedVersion found)

end Snapshot

end PackageOutline
