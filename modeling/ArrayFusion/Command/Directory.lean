import ArrayFusion.Command.Files

/-!
# A directory in memory

A `Directory` is a working directory that is nothing but its files, so that a command can be run
without a file system.  A path is followed name by name as a system would do it: a name before a
slash must be that of a directory, `.` stays and `..` goes up, and a name may have 255 bytes, a path
4095.  A slash at the end asks for a directory; no file is created under such a path.

Of the world around the working directory only the directories directly under the root are known,
and the empty device.  A text that is written elsewhere leaves no trace.
-/

namespace ArrayFusion

/-- A working directory: the texts of its files under the names that lead to them, the latest first.
-/
structure Directory where
  files : List (List String × String)

namespace Directory

/-- The names in a path. -/
def names (path : String) : List String := (path.splitOn "/").filter (· != "")

/-- The directory with these files. -/
def ofFiles (files : List (String × String)) : Directory :=
  ⟨files.map fun (name, text) => (names name, text)⟩

/-- The longest name, in bytes. -/
def maxName : Nat := 255

/-- The longest path, in bytes. -/
def maxPath : Nat := 4095

/-- The directories under the root that every system has. -/
def topLevel : List String :=
  ["bin", "boot", "dev", "etc", "home", "lib", "media", "mnt", "opt", "proc", "root", "run", "sbin",
    "srv", "sys", "tmp", "usr", "var"]

/-- Where a path has led to. -/
inductive Place where
  /-- Below the working directory. -/
  | inside (path : List String)
  /-- Below the root. -/
  | rooted (path : List String)
  /-- In a directory above the working directory. -/
  | above

/-- What stands at the end of a path. -/
inductive Entry where
  | nothing
  | folder
  | file (text : String)

/-- One name further. -/
def Place.child (name : String) : Place → Place
  | .inside path => .inside (path ++ [name])
  | .rooted path => .rooted (path ++ [name])
  | .above => .above

/-- One directory up.  Nothing is above the root. -/
def Place.parent : Place → Place
  | .inside [] => .above
  | .inside path => .inside path.dropLast
  | .rooted path => .rooted path.dropLast
  | .above => .above

/-- What has the given name in a directory. -/
def entry (d : Directory) (name : String) : Place → Entry
  | .inside path =>
    let path := path ++ [name]
    match d.files.lookup path with
    | some text => .file text
    | none => if d.files.any (path.isPrefixOf ·.1) then .folder else .nothing
  | .rooted [] => if name ∈ topLevel then .folder else .nothing
  | .rooted path => if path ++ [name] = ["dev", "null"] then .file "" else .nothing
  | .above => .nothing

/-- The entry of a name, which must not be too long. -/
def entry? (d : Directory) (name : String) (p : Place) : Except FileError Entry :=
  if maxName < name.utf8ByteSize then .error .nameTooLong else .ok (d.entry name p)

/-- The directory of the given name. -/
def enter (d : Directory) (p : Place) (name : String) : Except FileError Place := do
  if name = "." then return p
  else if name = ".." then return p.parent
  else
    match ← d.entry? name p with
    | .nothing => throw .notFound
    | .folder => return p.child name
    | .file _ => throw .notDirectory

/-- What a path asks for. -/
inductive Target where
  /-- A directory, which is there. -/
  | folder
  /-- What has the given name in a directory; a slash may stand behind the name. -/
  | named (p : Place) (name : String) (slash : Bool)

/-- Follows a path up to its last name. -/
def follow (d : Directory) (path : String) : Except FileError Target := do
  if path = "" then throw .notFound
  else if maxPath < path.utf8ByteSize then throw .nameTooLong
  else
    let start : Place := if path.startsWith "/" then .rooted [] else .inside []
    let ns := names path
    match ns.getLast? with
    | none => return .folder
    | some name =>
      if name = "." || name = ".." then
        let _ ← ns.foldlM d.enter start
        return .folder
      else return .named (← ns.dropLast.foldlM d.enter start) name (path.endsWith "/")

/-- The text of the file under a path. -/
def read (d : Directory) (path : String) : Except FileError String := do
  match ← d.follow path with
  | .folder => throw .isDirectory
  | .named p name slash =>
    match ← d.entry? name p with
    | .nothing => throw .notFound
    | .folder => throw .isDirectory
    | .file text => if slash then throw .notDirectory else return text

/-- The directory with a text under a path, in place of what was there. -/
def write (d : Directory) (path text : String) : Except FileError Directory := do
  match ← d.follow path with
  | .folder => throw .isDirectory
  | .named _ _ true => throw .isDirectory
  | .named p name false =>
    match ← d.entry? name p, p with
    | .folder, _ => throw .isDirectory
    | _, .inside path => return ⟨(path ++ [name], text) :: d.files⟩
    | _, _ => return d

/-- The files of a directory that is part of the state. -/
def access : Files (StateM Directory) where
  read path := do return (← get).read path
  write path text := do
    match (← get).write path text with
    | .error e => return .error e
    | .ok d => do
      set d
      return .ok ()

end Directory

end ArrayFusion
