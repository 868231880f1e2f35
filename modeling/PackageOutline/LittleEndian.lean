import PackageOutline.Text.Utf8

/-! # Little-endian numbers

Numbers written as a fixed count of bytes, the lowest byte first: `LittleEndian.read` undoes
`LittleEndian.write` below the bound that the width sets. -/

namespace PackageOutline

namespace LittleEndian

/-- The lowest `width` bytes of a number. -/
def write : Nat → Nat → Bytes
  | 0, _ => []
  | width + 1, n => UInt8.ofNat (n % 256) :: write width (n / 256)

/-- The number that the bytes stand for. -/
def read : Bytes → Nat
  | [] => 0
  | b :: bs => b.toNat + 256 * read bs

@[simp] theorem length_write (width n : Nat) : (write width n).length = width := by
  induction width generalizing n with
  | zero => rfl
  | succ width ih => simp [write, ih]

end LittleEndian

end PackageOutline
