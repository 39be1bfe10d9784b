/-! Why the file system or an archive refuses something. -/

namespace ImageRecipe

inductive Fault where
  | notFound
  | notDirectory
  | isDirectory
  | alreadyExists
  | directoryNotEmpty
  | tooManyLinks
  | nameTooLong
  /-- A name with a NUL character. -/
  | nulInName
  /-- A call of a program that names it, an argument or a directory with a NUL character. -/
  | nulInCall
  /-- A file that should be a program and is none. -/
  | badProgram
  | permissionDenied
  /-- A file that should hold text holds bytes that are no UTF-8. -/
  | notUtf8
  /-- A file of no kind that the operation can handle. -/
  | badFileType
  /-- An archive that cannot be read, or a member that cannot be put into one. -/
  | badArchive
  deriving DecidableEq, Repr

namespace Fault

/-- The number of the fault, for the faults that the system itself reports. -/
def number? : Fault → Option Nat
  | notFound => some 2
  | badProgram => some 8
  | permissionDenied => some 13
  | alreadyExists => some 17
  | notDirectory => some 20
  | isDirectory => some 21
  | nameTooLong => some 36
  | directoryNotEmpty => some 39
  | tooManyLinks => some 40
  | _ => none

def text : Fault → String
  | notFound => "No such file or directory"
  | notDirectory => "Not a directory"
  | isDirectory => "Is a directory"
  | alreadyExists => "File exists"
  | directoryNotEmpty => "Directory not empty"
  | tooManyLinks => "Too many levels of symbolic links"
  | nameTooLong => "File name too long"
  | nulInName => "file name contained an unexpected NUL byte"
  | nulInCall => "nul byte found in provided data"
  | badProgram => "Exec format error"
  | permissionDenied => "Permission denied"
  | notUtf8 => "stream did not contain valid UTF-8"
  | badFileType => "the source path is neither a regular file nor a symlink to a regular file"
  | badArchive => "invalid archive"

/-- The text of a fault, with its number if the system reports one. -/
def message (f : Fault) : String :=
  match f.number? with
  | some n => f.text ++ " (os error " ++ toString n ++ ")"
  | none => f.text

end Fault

end ImageRecipe
