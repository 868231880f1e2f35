import PackageOutline.Yaml.Flowing
import PackageOutline.Yaml.Token

/-! # Properties and directives

Anchors and aliases, tags, and the directives in front of a document. -/

namespace PackageOutline

namespace Yaml

open Reader

/-- Whether a character may be part of the name of an anchor. -/
def isAnchorChar (c : Char) : Bool := !isGap c && !isFlowMark c && c != '\uFEFF'

/-- Whether a character may be part of the address in a tag. -/
def isUriChar (c : Char) : Bool := isWordChar c || "#;/?:@&=+$,_.!~*'()[]%".toList.contains c

/-- Whether a character may be part of what follows the handle of a tag. -/
def isTagChar (c : Char) : Bool := isUriChar c && !isFlowMark c && c != '!'

/-- Reads the name of an anchor or alias behind its mark. -/
def anchorName : Reader String := do
  skip 1
  let name ← takeWhile isAnchorChar
  require !name.isEmpty
  return String.ofList name

/-- How many bytes an escaped character with a given first byte has. -/
def escapeWidth? (byte : Nat) : Option Nat :=
  if byte < 0x80 then some 1
  else if 0xC0 ≤ byte && byte < 0xE0 then some 2
  else if 0xE0 ≤ byte && byte < 0xF0 then some 3
  else if 0xF0 ≤ byte && byte < 0xF8 then some 4
  else none

/-- Reads a percent sign and a byte of two digits. -/
def escapedByte : Reader Nat := do
  require ((← next) == '%')
  let some high := hexDigit? (← next) | failure
  let some low := hexDigit? (← next) | failure
  return high * 16 + low

/-- Reads an escaped character.  Its bytes, put side by side, are its code point. -/
def uriEscape : Reader Char := do
  let first ← escapedByte
  let some width := escapeWidth? first | failure
  let value ← (List.range (width - 1)).foldlM (fun value _ => do
    let byte ← escapedByte
    require (0x80 ≤ byte && byte < 0xC0)
    return value * 256 + byte) first
  let some c := charOf? value | failure
  return c

/-- Reads characters of a kind, some of them escaped. -/
def uriChars (p : Char → Bool) : Reader String :=
  iterate "" fun s => do
    match ← peek with
    | none => return .inr s
    | some c =>
      if !p c then return .inr s
      else if c = '%' then return .inl (s.push (← uriEscape))
      else skip 1; return .inl (s.push c)

/-- Reads a tag without the check of what follows it. -/
def tagName : Reader (String × String) := do
  if (← peekAt 1) = some '<' then
    skip 2
    let suffix ← uriChars isUriChar
    require ((← next) == '>')
    return ("", suffix)
  skip 1
  let word := String.ofList (← takeWhile isWordChar)
  if (← peek) = some '!' then
    skip 1
    let suffix ← uriChars isTagChar
    require (suffix != "")
    return ("!" ++ word ++ "!", suffix)
  let suffix := word ++ (← uriChars isTagChar)
  return if suffix = "" then ("", "!") else ("!", suffix)

/-- Reads a tag. -/
def tag (around : Surroundings) : Reader Token := do
  let (handle, suffix) ← tagName
  let after ← peek
  require (isGap after || (around.inFlow && after.any isFlowMark))
  return .tag handle suffix

/-- Reads the handle that a directive is about. -/
def directiveHandle : Reader String := do
  require ((← next) == '!')
  let word := String.ofList (← takeWhile isWordChar)
  if (← peek) = some '!' then
    skip 1
    return "!" ++ word ++ "!"
  require (word = "")
  return "!"

/-- Reads what a directive lets a handle stand for. -/
def directivePrefix : Reader String := do
  let some first ← peek | failure
  if first = '!' then
    skip 1
    return "!" ++ (← uriChars isUriChar)
  require (isTagChar first)
  uriChars isUriChar

/-- Reads a number of at most nine digits. -/
def versionNumber : Reader Unit := do
  let digits ← takeWhile Char.isDigit
  require (1 ≤ digits.length && digits.length ≤ 9)

/-- Reads a directive from its mark to the end of its line.  One of an unknown name is skipped and
counts as one about no handle. -/
def directive : Reader Token := do
  skip 1
  let name := String.ofList (← takeWhile isWordChar)
  require (name != "" && isGap (← peek))
  let token ←
    if name = "YAML" then do
      discard (takeWhile isBlank)
      versionNumber
      require ((← next) == '.')
      versionNumber
      pure Token.version
    else if name = "TAG" then do
      discard (takeWhile isBlank)
      let handle ← directiveHandle
      discard (takeWhile isBlank)
      let value ← directivePrefix
      require (isGap (← peek))
      pure (Token.handle handle value)
    else do
      discard (takeWhile (· != '\n'))
      pure (Token.handle "" "")
  discard toLineEnd
  require (isLineEnd (← peek))
  skip 1
  return token

end Yaml

end PackageOutline
