/-!
# Command lines

What the arguments of the program ask for.  A subcommand is followed by the file it reads and by
options in any order.  An option is written with two dashes and its name, or with one dash and a
letter; letters may share a dash.  The value of an option is the next argument, which must not look
like an option, or it is attached: behind an equals sign, or directly behind a letter.  Behind a
bare double dash nothing is an option.  Only the option for verbosity may be repeated.

The arguments are read from left to right, and each is checked when it is read.  So a request for
help counts if it comes before the first mistake; only what is missing is noticed at the end.
-/

namespace ArrayFusion

/-- How a program is written out. -/
inductive OutputFormat where
  | json
  | pretty
deriving DecidableEq

/-- What to do, and with which file. -/
inductive Command where
  /-- Fuse a program and write it to a file, or to the standard output. -/
  | fuse (input : String) (output : Option String) (format : OutputFormat) (report : Bool)
      (level : Nat)
  /-- Write a program for people to read. -/
  | print (input : String)
  /-- Call a function of a program, which may be fused before, with arguments in JSON. -/
  | eval (input fn args : String) (fused : Bool)

/-- What a command line asks for. -/
inductive Invocation where
  | command (c : Command)
  | version
  | help
  /-- The arguments are no command line of this program. -/
  | misuse

namespace Invocation

/-- The options of the subcommands. -/
inductive Opt where
  | verbose
  | help
  | output
  | emit
  | report
  | level
  | fn
  | args
  | fused
deriving DecidableEq

/-- How an option is written, and whether a value belongs to it. -/
structure Spelling where
  opt : Opt
  long : String
  short : Option Char
  takesValue : Bool

/-- The options that every subcommand has. -/
def commonOptions : List Spelling :=
  [⟨.verbose, "verbose", some 'v', false⟩, ⟨.help, "help", some 'h', false⟩]

/-- The options for fusing. -/
def fuseOptions : List Spelling :=
  [⟨.output, "output", some 'o', true⟩, ⟨.emit, "emit", none, true⟩,
    ⟨.report, "report", none, false⟩, ⟨.level, "opt-level", some 'O', true⟩] ++ commonOptions

/-- The options for evaluating. -/
def evalOptions : List Spelling :=
  [⟨.fn, "fun", none, true⟩, ⟨.args, "args", none, true⟩, ⟨.fused, "fused", none, false⟩]
    ++ commonOptions

/-- A part of a command line. -/
inductive Part where
  | flag (o : Opt)
  | valued (o : Opt) (value : String)
  | positional (value : String)
  /-- No option of the subcommand, an option without its value, or one with a value too many. -/
  | faulty

/-- Does an argument look like an option?  A single dash does not. -/
def looksLikeOption (a : String) : Bool := a.startsWith "-" && a != "-"

/-- What the options of one argument are, and the option whose value must come next, if there is
one. -/
structure Scanned where
  parts : List Part
  pending : Option Opt

/-- The options in the letters behind one dash. -/
def scanLetters (spellings : List Spelling) : List Char → Scanned
  | [] => ⟨[], none⟩
  | c :: rest =>
    match spellings.find? (·.short == some c) with
    | none => ⟨[.faulty], none⟩
    | some s =>
      if s.takesValue then
        match rest with
        | [] => ⟨[], some s.opt⟩
        -- the value may be attached with or without an equals sign
        | '=' :: value => ⟨[.valued s.opt (String.ofList value)], none⟩
        | value => ⟨[.valued s.opt (String.ofList value)], none⟩
      else
        let t := scanLetters spellings rest
        { t with parts := .flag s.opt :: t.parts }

/-- The option in the name behind two dashes, with its value if one is attached. -/
def scanName (spellings : List Spelling) (cs : List Char) : Scanned :=
  -- the value begins behind the first equals sign
  let name := String.ofList (cs.takeWhile (· != '='))
  match spellings.find? (·.long == name), cs.dropWhile (· != '=') with
  | some s, [] => if s.takesValue then ⟨[], some s.opt⟩ else ⟨[.flag s.opt], none⟩
  | some s, _ :: value =>
    if s.takesValue then ⟨[.valued s.opt (String.ofList value)], none⟩ else ⟨[.faulty], none⟩
  | none, _ => ⟨[.faulty], none⟩

/-- The options in one argument, or the argument itself. -/
def scan (spellings : List Spelling) (a : String) : Scanned :=
  if !looksLikeOption a then ⟨[.positional a], none⟩
  else
    match a.toList with
    | '-' :: '-' :: name => scanName spellings name
    | _ :: letters => scanLetters spellings letters
    | [] => ⟨[.faulty], none⟩

/-- The parts of the arguments of a subcommand. -/
def parts (spellings : List Spelling) : List String → List Part
  | [] => []
  -- behind a double dash nothing is an option
  | "--" :: rest => rest.map .positional
  | [a] =>
    match scan spellings a with
    | ⟨ps, none⟩ => ps
    | ⟨ps, some _⟩ => ps ++ [.faulty]
  | a :: b :: rest =>
    match scan spellings a with
    | ⟨ps, none⟩ => ps ++ parts spellings (b :: rest)
    | ⟨ps, some o⟩ =>
      if looksLikeOption b then ps ++ [.faulty] else ps ++ .valued o b :: parts spellings rest

/-- The name of a file, which cannot be empty. -/
def path? (s : String) : Option String := if s.isEmpty then none else some s

/-- The name of a format. -/
def format? : String → Option OutputFormat
  | "json" => some .json
  | "pretty" => some .pretty
  | _ => none

/-- A number from 0 to 255 in decimal digits, possibly behind a plus sign. -/
def level? (s : String) : Option Nat :=
  let digits := match s.toList with
    | '+' :: cs => cs
    -- minus zero is a number from 0 to 255, too
    | '-' :: cs => if cs.all (· == '0') then cs else []
    | cs => cs
  if digits.isEmpty || !digits.all Char.isDigit then none
  else
    let n := digits.foldl (fun n c => 10 * n + (c.toNat - 48)) 0
    if n < 256 then some n else none

/-- What the arguments of a subcommand have given so far. -/
structure Given where
  input : Option String
  output : Option String
  format : Option OutputFormat
  level : Option Nat
  report : Bool
  fn : Option String
  args : Option String
  fused : Bool

/-- Nothing has been given yet. -/
def Given.nothing : Given := ⟨none, none, none, none, false, none, none, false⟩

/-- A value that can be read and is given for the first time. -/
def once {α : Type} : Option α → Option α → Option (Option α)
  | none, some x => some (some x)
  | _, _ => none

/-- Takes one more part into account, unless it is a mistake. -/
def Given.add? (g : Given) : Part → Option Given
  | .flag .verbose => some g
  | .flag .report => if g.report then none else some { g with report := true }
  | .flag .fused => if g.fused then none else some { g with fused := true }
  | .valued .output v => do return { g with output := ← once g.output (path? v) }
  | .valued .emit v => do return { g with format := ← once g.format (format? v) }
  | .valued .level v => do return { g with level := ← once g.level (level? v) }
  | .valued .fn v => do return { g with fn := ← once g.fn (some v) }
  | .valued .args v => do return { g with args := ← once g.args (some v) }
  | .positional v => do return { g with input := ← once g.input (path? v) }
  | _ => none

/-- Fusing, with its options. -/
def fuse? (g : Given) : Option Command := do
  return .fuse (← g.input) g.output (g.format.getD .json) g.report (g.level.getD 2)

/-- Evaluating, with its options. -/
def eval? (g : Given) : Option Command := do
  return .eval (← g.input) (← g.fn) (g.args.getD "[]") g.fused

/-- Printing, which has no options of its own. -/
def print? (g : Given) : Option Command := g.input.map .print

/-- The subcommand that is made up of what has been given and the parts that follow. -/
def ofParts (build : Given → Option Command) (g : Given) : List Part → Invocation
  | [] =>
    match build g with
    | some c => .command c
    | none => .misuse
  -- help is shown whatever follows it
  | .flag .help :: _ => .help
  | p :: ps =>
    match g.add? p with
    | some g => ofParts build g ps
    | none => .misuse

/-- What the letters behind one dash ask for in front of the subcommand: `none` if they leave it to
what follows. -/
def ofLetters : List Char → Option Invocation
  | [] => none
  | 'v' :: rest => ofLetters rest
  | 'V' :: _ => some .version
  | 'h' :: _ => some .help
  | _ => some .misuse

/-- What the words behind `help` ask for: at most one of them, and it must be a subcommand. -/
def ofTopics : List String → Invocation
  | [] => .help
  | [topic] => if topic ∈ ["fuse", "print", "eval", "help"] then .help else .misuse
  | _ => .misuse

/-- What a command line asks for. -/
def ofArgs : List String → Invocation
  | [] => .misuse
  | "fuse" :: rest => ofParts fuse? .nothing (parts fuseOptions rest)
  | "print" :: rest => ofParts print? .nothing (parts commonOptions rest)
  | "eval" :: rest => ofParts eval? .nothing (parts evalOptions rest)
  | "help" :: topics => ofTopics topics
  | "--verbose" :: rest => ofArgs rest
  | "--version" :: _ => .version
  | "--help" :: _ => .help
  | a :: rest =>
    match a.toList with
    -- letters in front of the subcommand; a single dash is none
    | '-' :: c :: letters => (ofLetters (c :: letters)).getD (ofArgs rest)
    | _ => .misuse

end Invocation

end ArrayFusion
