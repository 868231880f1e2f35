import PackageOutline.Path

/-! # Errors of the file system

Why an access to the disk gives no result.  The first five come from the system, which numbers its
errors; a name with a null character is refused before the system is asked. -/

namespace PackageOutline

/-- Why an access to the disk fails. -/
inductive IoError where
  | notFound
  | notADirectory
  | isADirectory
  | alreadyExists
  | nameTooLong
  | nullInName
deriving DecidableEq, Repr

/-- The error in words. -/
def IoError.message : IoError → String
  | .notFound => "No such file or directory (os error 2)"
  | .notADirectory => "Not a directory (os error 20)"
  | .isADirectory => "Is a directory (os error 21)"
  | .alreadyExists => "File exists (os error 17)"
  | .nameTooLong => "File name too long (os error 36)"
  | .nullInName => "file name contained an unexpected NUL byte"

/-- What is done with a file or directory. -/
inductive DiskAction where
  | stat
  | list
  | read
  | makeDir
  | write
deriving DecidableEq, Repr

/-- Why a tree cannot be read from disk or written to it. -/
structure DiskError where
  action : DiskAction
  path : Path
  cause : IoError
deriving DecidableEq, Repr

/-- The error in words. -/
def DiskError.message (e : DiskError) : String :=
  let action := match e.action with
    | .stat => "stat"
    | .list => "list directory"
    | .read => "read"
    | .makeDir => "create directory"
    | .write => "write"
  s!"Failed to {action} {e.path.display}"

end PackageOutline
