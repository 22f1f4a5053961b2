/-!
# Access to files

What a command needs of the world: reading and writing a text under a path.  What can go wrong is a
`FileError`, whose wording with the number of the error is in `FileError.message`.
-/

namespace ArrayFusion

/-- Why a file could not be read or written. -/
inductive FileError where
  | notFound
  | denied
  | notDirectory
  | isDirectory
  | nameTooLong
  /-- The file is not a text in UTF-8. -/
  | notText
  /-- Anything else, in the words of the system. -/
  | other (words : String)
deriving DecidableEq

namespace FileError

/-- The words for an error. -/
def message : FileError → String
  | .notFound => "No such file or directory (os error 2)"
  | .denied => "Permission denied (os error 13)"
  | .notDirectory => "Not a directory (os error 20)"
  | .isDirectory => "Is a directory (os error 21)"
  | .nameTooLong => "File name too long (os error 36)"
  | .notText => "stream did not contain valid UTF-8"
  | .other words => words

/-- The error of a number, if it is one of those that have a name. -/
def ofNumber? : Nat → Option FileError
  | 2 => some .notFound
  | 13 => some .denied
  | 20 => some .notDirectory
  | 21 => some .isDirectory
  | 36 => some .nameTooLong
  | _ => none

end FileError

/-- How the text under a path is read and written. -/
structure Files (m : Type → Type) where
  read : String → m (Except FileError String)
  write : String → String → m (Except FileError Unit)

end ArrayFusion
