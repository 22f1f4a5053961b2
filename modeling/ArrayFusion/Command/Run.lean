import ArrayFusion.Command.Files
import ArrayFusion.Command.Invocation
import ArrayFusion.Eval.Session
import ArrayFusion.Fusion.Pass
import ArrayFusion.Json.Document
import ArrayFusion.Json.Printer
import ArrayFusion.Syntax.Decoding

/-!
# Running a command

A command reads a program from a file, does its work and writes the result.  How files are read and
written is a parameter, so that what a command does is a function of the files.  Anything that goes
wrong ends the command with an error message, which says what was being done and, if there is more
to say, why it failed.
-/

namespace ArrayFusion

/-- What the program leaves behind: its exit code, and its two streams. -/
structure Outcome where
  exitCode : Nat
  stdout : String
  stderr : String

namespace Outcome

/-- Success, with a line on the standard output. -/
def line (s : String) : Outcome := ⟨0, s ++ "\n", ""⟩

/-- A failure that needs no explanation. -/
def failure (what : String) : Outcome := ⟨1, "", s!"Error: {what}\n"⟩

/-- A text with every line but the first indented by four blanks. -/
def hanging (s : String) : String :=
  String.ofList (s.toList.flatMap fun c => if c = '\n' then ['\n', ' ', ' ', ' ', ' '] else [c])

/-- A failure in doing something, and its cause. -/
def failureBy (doing cause : String) : Outcome :=
  ⟨1, "", s!"Error: {doing}\n\nCaused by:\n    {hanging cause}\n"⟩

/-- The same, with something on the error stream in front of the rest. -/
def after (notes : String) (o : Outcome) : Outcome := { o with stderr := notes ++ o.stderr }

end Outcome

namespace Command

/-- The deepest nesting of arrays and objects that can be read in a file. -/
def maxNesting : Nat := 127

/-- Reads the text of a file: its floats are computed by scaling, and what is nested too deep is
unreadable. -/
def json? (text : String) : Option Json := (Json.parse? .scaled text).map (·.within maxNesting)

/-- Reads a program from a text, in which named arguments may be listed. -/
def program? (text : String) : Option Program := (json? text).bind (Program.ofJson? .listed)

/-- Reads the arguments of a call from a text. -/
def values? (text : String) : Option (List Value) := (json? text).bind Value.list?

/-- The text of a program in a format. -/
def programText (p : Program) : OutputFormat → String
  | .json => p.toJson.pretty
  | .pretty => p.text

/-- Calls a function of a program. -/
def evaluate (path : String) (p : Program) (fn args : String) : Outcome :=
  match values? args with
  | none => .failure "parsing --args"
  | some vs =>
    -- the arguments are read before the function is looked up
    if (p.fun? fn).isNone then .failure s!"no function named \x60{fn}\x60 in {path}"
    else
      match (p.request fn vs .new).1 with
      | .ok v => .line v.text
      | .error e => .failureBy s!"evaluating {fn}" e.message

variable {m : Type → Type} [Monad m]

/-- Does something with the program in a file. -/
def withProgram (files : Files m) (path : String) (k : Program → m Outcome) : m Outcome := do
  match ← files.read path with
  | .error e => return .failureBy s!"reading {path}" e.message
  | .ok text =>
    match program? text with
    | none => return .failure s!"parsing {path}"
    | some p => k p

/-- Writes a text to a file, or to the standard output. -/
def deliver (files : Files m) (text : String) : Option String → m Outcome
  | none => return .line text
  | some path => do
    match ← files.write path text with
    | .error e => return .failureBy s!"writing {path}" e.message
    | .ok () => return ⟨0, "", ""⟩

/-- Runs a command. -/
def run (files : Files m) : Command → m Outcome
  | .print input => withProgram files input fun p => return .line p.text
  | .fuse input output format report level =>
    withProgram files input fun p => do
      let (p, r) := p.fuse (OptLevel.ofNumber level).config
      -- the report is printed whether or not the program could be written
      let o ← deliver files (programText p format) output
      return if report then o.after (r.text ++ "\n") else o
  | .eval input fn args fused =>
    withProgram files input fun p =>
      return evaluate input (if fused then (p.fuse .default).1 else p) fn args

end Command

/-- The name and the version of the program. -/
def versionText : String := "sofa 0.1.0"

/-- How the program is used. -/
def usageText : String :=
  "Usage: sofa [-v] fuse [-o FILE] [--emit json|pretty] [--report] [-O LEVEL] FILE\n"
    ++ "       sofa [-v] print FILE\n"
    ++ "       sofa [-v] eval --fun NAME [--args JSON] [--fused] FILE"

/-- Does what a command line asks for. -/
def Invocation.run {m : Type → Type} [Monad m] (files : Files m) : Invocation → m Outcome
  | .command c => c.run files
  | .version => return .line versionText
  | .help => return .line usageText
  | .misuse => return ⟨2, "", usageText ++ "\n"⟩

end ArrayFusion
