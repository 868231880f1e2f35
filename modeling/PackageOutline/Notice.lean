/-! # Notices

What a command reports while it works.  A notice has a level, the part of the program that it comes
from and a text; a log shows those of at least a given level, one a line.

`Traced` collects notices beside a result; the result never depends on them. -/

namespace PackageOutline

/-- How much a notice matters, from the least to the most. -/
inductive Level where
  | trace
  | debug
  | info
  | warn
  | error
deriving DecidableEq, Repr

/-- The word for a level. -/
def Level.text : Level → String
  | .trace => "TRACE"
  | .debug => "DEBUG"
  | .info => "INFO"
  | .warn => "WARN"
  | .error => "ERROR"

/-- The position of a level, from the least to the most. -/
def Level.rank : Level → Nat
  | .trace => 0
  | .debug => 1
  | .info => 2
  | .warn => 3
  | .error => 4

/-- The parts of the program that report. -/
inductive Origin where
  | command
  | project
  | description
  | disk
  | snapshot
  | items
  | images
deriving DecidableEq, Repr

/-- The name of a part in the log. -/
def Origin.text : Origin → String
  | .command => "project_outline"
  | .project => "project_outline::application::application_impl"
  | .description => "project_outline::description::project_description"
  | .disk => "project_outline::filesystem::disk"
  | .snapshot => "project_outline::filesystem::snapshot"
  | .items => "project_outline::outline::tree"
  | .images => "project_outline::outline::materialize"

/-- Something reported. -/
structure Notice where
  level : Level
  origin : Origin
  text : String
deriving DecidableEq, Repr

namespace Notice

/-- A character in the log: controls that a terminal would obey are spelled out. -/
def logChar (c : Char) : List Char :=
  if c = '\x07' || c = '\x08' || c = '\x0c' || c = '\x1b' || c = '\x7f' then
    '\\' :: 'x' :: Nat.digitChar (c.toNat / 16) :: [Nat.digitChar (c.toNat % 16)]
  else if '\u0080' ≤ c && c ≤ '\u009f' then
    '\\' :: 'u' :: '\x7b' :: (Nat.toDigits 16 c.toNat ++ ['\x7d'])
  else [c]

/-- The line of a notice in the log. -/
def line (n : Notice) : String :=
  let level := String.ofList (List.replicate (5 - n.level.text.length) ' ') ++ n.level.text
  let text := String.ofList (n.text.toList.flatMap logChar)
  level ++ " " ++ n.origin.text ++ ": " ++ text ++ "\n"

end Notice

/-- A result with what was reported on the way to it. -/
structure Traced (ε α : Type) where
  notices : List Notice
  result : Except ε α

namespace Traced

variable {ε α β : Type}

instance : Monad (Traced ε) where
  pure a := ⟨[], .ok a⟩
  bind x f := match x.result with
    | .ok a => let y := f a; ⟨x.notices ++ y.notices, y.result⟩
    | .error e => ⟨x.notices, .error e⟩

instance : MonadExcept ε (Traced ε) where
  throw e := ⟨[], .error e⟩
  tryCatch x handle := match x.result with
    | .ok _ => x
    | .error e => let y := handle e; ⟨x.notices ++ y.notices, y.result⟩

/-- Reports something. -/
def note (notice : Notice) : Traced ε Unit := ⟨[notice], .ok ()⟩

/-- The same with another kind of error. -/
def mapError {ε' : Type} (f : ε → ε') (x : Traced ε α) : Traced ε' α :=
  ⟨x.notices, x.result.mapError f⟩

/-- A result with nothing reported. -/
def ofExcept (x : Except ε α) : Traced ε α := ⟨[], x⟩

@[simp] theorem result_pure (a : α) : (pure a : Traced ε α).result = .ok a := rfl

@[simp] theorem result_throw (e : ε) : (throw e : Traced ε α).result = .error e := rfl

@[simp] theorem result_note (n : Notice) : (note n : Traced ε Unit).result = .ok () := rfl

@[simp] theorem result_ofExcept (x : Except ε α) : (ofExcept x).result = x := rfl

@[simp] theorem result_bind (x : Traced ε α) (f : α → Traced ε β) :
    (x >>= f).result = x.result.bind fun a => (f a).result := by
  obtain ⟨ns, r⟩ := x
  cases r <;> rfl

end Traced

end PackageOutline
