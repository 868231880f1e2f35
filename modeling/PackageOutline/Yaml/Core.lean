import PackageOutline.Yaml.Basic

/-! # The core schema

What plain scalars mean, and the values that the core tags (those with the prefix
`tag:yaml.org,2002:`) force on them.

* Null is written `~`, `null`, `NULL` or not at all, truth `true` and `false`.
* Integers have 64 bits and are decimal, or of base 16 or 8 behind `0x` or `0o`; a sign may stand in
  front of the digits, and a further plus sign in front of everything.
* Reals are decimals with a point or an exponent, or the names of the infinities and of the value
  that is no number.
* Everything else is text. -/

namespace PackageOutline

namespace Yaml

namespace Core

/-- The value of a digit below a base. -/
def digit? (base : Nat) (c : Char) : Option Nat :=
  let value :=
    if c.isDigit then c.toNat - '0'.toNat
    else if 'a' ≤ c && c ≤ 'z' then c.toNat - 'a'.toNat + 10
    else if 'A' ≤ c && c ≤ 'Z' then c.toNat - 'A'.toNat + 10
    else base
  if value < base then some value else none

/-- The value of digits, of which there has to be one. -/
def natural? (base : Nat) (cs : List Char) : Option Nat :=
  if cs.isEmpty then none
  else cs.foldlM (fun n c => (digit? base c).map (n * base + ·)) 0

/-- The value of digits with an optional sign, if it fits 64 bits. -/
def integer? (base : Nat) (cs : List Char) : Option Int := do
  let n ← match cs with
    | '-' :: cs => (natural? base cs).map fun n => -(n : Int)
    | '+' :: cs => (natural? base cs).map Int.ofNat
    | cs => (natural? base cs).map Int.ofNat
  if -0x8000000000000000 ≤ n ∧ n < 0x8000000000000000 then some n else none

/-- The value of an integer with one of the marks for its base. -/
def markedInteger? : List Char → Option Int
  | '0' :: 'x' :: cs => integer? 16 cs
  | '0' :: 'o' :: cs => integer? 8 cs
  | '+' :: cs => integer? 10 cs
  | _ => none

/-- Whether there is a sign and it is a minus sign, and what follows. -/
def splitSign : List Char → Bool × List Char
  | '-' :: cs => (true, cs)
  | '+' :: cs => (false, cs)
  | cs => (false, cs)

/-- The value of an exponent with its mark; none written is zero. -/
def exponent? : List Char → Option Int
  | [] => some 0
  | c :: cs =>
    if c == 'e' || c == 'E' then
      let (negative, digits) := splitSign cs
      (natural? 10 digits).map fun n => if negative then -(n : Int) else n
    else none

/-- The real that a decimal denotes: digits with at most one point among them, and perhaps an
exponent. -/
def decimal? (cs : List Char) : Option Binary64 := do
  let (negative, cs) := splitSign cs
  let whole := cs.takeWhile Char.isDigit
  let cs := cs.dropWhile Char.isDigit
  let (fraction, cs) := match cs with
    | '.' :: cs => (cs.takeWhile Char.isDigit, cs.dropWhile Char.isDigit)
    | cs => ([], cs)
  let digits ← natural? 10 (whole ++ fraction)
  let e ← exponent? cs
  return .ofDecimal negative digits (e - fraction.length)

/-- The real that a scalar denotes. -/
def real? (s : String) : Option Binary64 :=
  if [".inf", ".Inf", ".INF", "+.inf", "+.Inf", "+.INF"].contains s then some (.infinite false)
  else if ["-.inf", "-.Inf", "-.INF"].contains s then some (.infinite true)
  else if [".nan", ".NaN", ".NAN"].contains s then some .notANumber
  else decimal? s.toList

/-- The truth value that a scalar denotes. -/
def boolean? (s : String) : Option Bool :=
  if s = "true" then some true else if s = "false" then some false else none

/-- The meaning of a plain scalar without a tag. -/
def plain (s : String) : Scalar :=
  match markedInteger? s.toList with
  | some n => .integer n
  | none =>
    if ["~", "null", "NULL", ""].contains s then .null
    else match boolean? s, integer? 10 s.toList, real? s with
      | some b, _, _ => .boolean b
      | none, some n, _ => .integer n
      | none, none, some r => .real r
      | none, none, none => .text s

/-- The prefix of the core tags. -/
def tagPrefix : String := "tag:yaml.org,2002:"

/-- The value that a core tag forces on a plain scalar. -/
def forced? (suffix : String) (s : String) : Option Scalar :=
  if suffix = "bool" then (boolean? s).map .boolean
  else if suffix = "int" then (integer? 10 s.toList).map .integer
  else if suffix = "float" then (real? s).map .real
  else if suffix = "null" then if s = "~" ∨ s = "null" then some .null else none
  else if suffix = "str" then some (.text s)
  else none

/-- The value of a scalar with its tag, if it has one. -/
def scalar (tag : Option Tag) (isPlain : Bool) (s : String) : Yaml :=
  match tag with
  | none => .scalar (if isPlain then plain s else .text s)
  | some tag =>
    if tag.handle ≠ tagPrefix then .tagged tag (.scalar (if isPlain then plain s else .text s))
    else if isPlain then ((forced? tag.suffix s).map Yaml.scalar).getD .bad
    else .scalar (.text s)

/-- A collection with its tag, if it has one: core tags change nothing. -/
def collection (tag : Option Tag) (value : Yaml) : Yaml :=
  match tag with
  | none => value
  | some tag => if tag.handle = tagPrefix then value else .tagged tag value

end Core

end Yaml

end PackageOutline
