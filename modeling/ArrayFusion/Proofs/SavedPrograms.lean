import Mathlib
import ArrayFusion.Command.Directory
import ArrayFusion.Command.Run
import ArrayFusion.Proofs.ReadingPrograms

/-!
# Programs in files

A command reads programs from files and writes them as JSON.  What it writes it can read: a program
without floats is the same again (`Program.read_back`), and so is the result of fusing, straight
from the standard output.  Only the reader of files stops somewhere: it looks into no more than
`maxNesting` containers, and fusing may put expressions so deep into each other that the result can
be written but not read (`Program.fused_too_deep`).
-/

namespace ArrayFusion

open Command (maxNesting program? programText)

namespace Command

/-- The program of a text is that of the JSON it spells, cut where it nests too deep. -/
theorem program?_of_parse? {text : String} {j : Json} (h : Json.parse? .scaled text = some j) :
    program? text = Program.ofJson? .listed (j.within maxNesting) := by
  rw [program?, json?, h]
  rfl

/-- A read leaves the directory as it is. -/
theorem run_read (d : Directory) (path : String) :
    (Directory.access.read path).run d = (d.read path, d) := rfl

/-- With a file that holds a program, that is what is run. -/
theorem withProgram_run {d : Directory} {path text : String} {p : Program}
    (hread : d.read path = .ok text) (hp : program? text = some p)
    (k : Program → StateM Directory Outcome) :
    (withProgram Directory.access path k).run d = (k p).run d := by
  have hrun : (Directory.access.read path).run d = (.ok text, d) := by rw [run_read, hread]
  rw [withProgram, StateT.run_bind, hrun]
  dsimp only [bind]
  rw [hp]

/-- Without a file for the result, fusing ends with the result on the standard output. -/
theorem run_fuse {d : Directory} {input text : String} {p : Program}
    (hread : d.read input = .ok text) (hp : program? text = some p) (format : OutputFormat)
    (report : Bool) (level : Nat) :
    ∃ notes, ((Command.fuse input none format report level).run Directory.access).run d
      = ((Outcome.line (programText (p.fuse (OptLevel.ofNumber level).config).1
        format)).after notes, d) := by
  have hrun : ((Command.fuse input none format report level).run Directory.access).run d = _ :=
    withProgram_run hread hp _
  rw [hrun]
  cases report with
  | true => exact ⟨_, rfl⟩
  | false => exact ⟨"", rfl⟩

end Command

variable {p : Program}

/-- A program without reals whose integers fit has leaves that are read back. -/
theorem Program.every_leaf (hreal : p.every .realFree = true)
    (hsize : p.every .machineSized = true) :
    p.every (LeafTest.realFree.and .machineSized) = true := by
  rw [Program.every_and, hreal, hsize]
  rfl

/-- The numbers of the JSON of such a program are exact. -/
theorem Program.isExact_of_realFree (hreal : p.every .realFree = true)
    (hsize : p.every .machineSized = true) : p.toJson.isExact = true :=
  Program.isExact_toJson LeafTest.exact_and (Program.every_leaf hreal hsize)

/-- Such a program is read back from its JSON. -/
theorem Program.ofJson?_of_realFree (hreal : p.every .realFree = true)
    (hsize : p.every .machineSized = true) (form : ArgumentForm) :
    Program.ofJson? form p.toJson = some p :=
  Program.ofJson?_toJson LeafTest.faithful_and form (Program.every_leaf hreal hsize)

/-- A text of a program that is not nested too deep is read as the program. -/
theorem Command.program?_of_depth_le (hreal : p.every .realFree = true)
    (hsize : p.every .machineSized = true) (hdepth : p.toJson.depth ≤ maxNesting) {text : String}
    (h : Json.parse? .scaled text = some p.toJson) : program? text = some p := by
  rw [program?_of_parse? h, Json.within_eq hdepth, Program.ofJson?_of_realFree hreal hsize]

/-- A program without floats is read back from its JSON form, and so is that form from the texts of
it.  If it is not nested too deep, the program is also read from a file with such a text, and from
what the command that made it by fusing has left on the standard output.  That its tags and
positions have 32 bits is no restriction where they are stored in such numbers. -/
theorem Program.read_back (hreal : p.every .realFree = true)
    (hsize : p.every .machineSized = true) : (∀ form, Program.ofJson? form p.toJson = some p)
      ∧ (∀ r, Json.parse? r p.toJson.pretty = some p.toJson
          ∧ Json.parse? r p.toJson.render = some p.toJson)
      ∧ (p.toJson.depth ≤ maxNesting → program? (programText p .json) = some p
          ∧ ∀ {d : Directory} {input text : String} {q : Program} {report : Bool} {level : Nat},
            d.read input = .ok text → program? text = some q →
              (q.fuse (OptLevel.ofNumber level).config).1 = p →
                ∃ o, ((Command.fuse input none .json report level).run Directory.access).run
                  d = (o, d)
                  ∧ o.exitCode = 0 ∧ program? o.stdout = some p) := by
  have hexact := Program.isExact_of_realFree hreal hsize
  refine ⟨Program.ofJson?_of_realFree hreal hsize,
    fun r => ⟨Json.parse?_pretty r hexact, Json.parse?_render r hexact⟩, fun hdepth => ?_⟩
  have hread {text : String} (h : Json.parse? .scaled text = some p.toJson) :
      program? text = some p := Command.program?_of_depth_le hreal hsize hdepth h
  refine ⟨hread (Json.parse?_pretty .scaled hexact),
    fun {d input text q report level} hd hq hp => ?_⟩
  obtain ⟨notes, hrun⟩ := Command.run_fuse hd hq .json report level
  rw [hp] at hrun
  exact ⟨_, hrun, rfl, hread (Json.parse?_pretty_line .scaled hexact)⟩

/-- So many negations of an expression. -/
def Exp.negated : Nat → Exp → Exp
  | 0, e => e
  | n + 1, e => .unary .negate (e.negated n) .dummy

/-- The numbers of an array, each negated so many times, and once more as they are. -/
def Program.negatedMap (n : Nat) : Program :=
  let number (base : String) (tag : Nat) : Ident := ⟨⟨base, tag⟩, .int⟩
  let array (base : String) (tag : Nat) : Ident := ⟨⟨base, tag⟩, .array .int⟩
  let map (f : Exp → Exp) (base : String) (tag : Nat) (xs : Ident) : Exp :=
    .soac (.map ⟨[number base tag], f (.ofIdent (number base tag)), [.int]⟩) [.ofIdent xs] [] .dummy
  ⟨[⟨"f", [array "xs" 0], .array .int,
    .bind [array "ys" 1] (map (Exp.negated n) "x" 2 (array "xs" 0))
      (.bind [array "zs" 3] (map id "y" 4 (array "ys" 1)) (.ofIdent (array "zs" 3))), .dummy⟩]⟩

/-- The file of a directory with one file. -/
theorem Directory.read_only (text : String) :
    (Directory.ofFiles [("q", text)]).read "q" = .ok text := by
  have hnames : Directory.names "q" = ["q"] := by cbv
  have hstart : "q".startsWith "/" = false := by decide +kernel
  have hend : "q".endsWith "/" = false := by decide +kernel
  have hsize : "q".utf8ByteSize = 1 := by decide +kernel
  have hfollow : (Directory.ofFiles [("q", text)]).follow "q"
      = .ok (.named (.inside []) "q" false) := by
    rw [Directory.follow]
    simp [hnames, hstart, hend, hsize, Directory.maxPath]
    rfl
  have hentry : Directory.entry? (Directory.ofFiles [("q", text)]) "q" (.inside [])
      = .ok (.file text) := by
    rw [ Directory.entry?, hsize]
    simp [Directory.maxName, Directory.entry, Directory.ofFiles, hnames]
  rw [Directory.read, hfollow]
  simp only [bind, Except.bind, hentry]
  rfl

/-- The result of fusing two maps is read back from where the command has left it. -/
theorem Program.read_back_negatedMap :
    let q := Program.negatedMap 2
    let p := (q.fuse Config.default).1
    let d := Directory.ofFiles [("q", programText q .json)]
    p.every .realFree = true ∧ p.every .machineSized = true ∧ p.toJson.depth ≤ maxNesting
      ∧ ∃ o, ((Command.fuse "q" none .json true 2).run Directory.access).run d = (o, d)
        ∧ o.exitCode = 0 ∧ program? o.stdout = some p := by
  intro q p d
  have hreal : p.every .realFree = true := by decide +kernel
  have hsize : p.every .machineSized = true := by decide +kernel
  have hdepth : p.toJson.depth ≤ maxNesting := by decide +kernel
  have hq : program? (programText q .json) = some q :=
    ((Program.read_back (p := q) (by decide +kernel) (by decide +kernel)).2.2 (by decide +kernel)).1
  exact ⟨hreal, hsize, hdepth, ((Program.read_back hreal hsize).2.2 hdepth).2
    (Directory.read_only _) hq rfl⟩

/-- Fusing can put expressions so deep into each other that the result is not read, although the
program it was made from is. -/
theorem Program.fused_too_deep :
    let q := Program.negatedMap 57
    let p := (q.fuse Config.default).1
    p.every .realFree = true ∧ p.every .machineSized = true
      ∧ program? (programText q .json) = some q
      ∧ program? (programText p .json) = none := by
  intro q p
  have hreal : p.every .realFree = true := by decide +kernel
  have hsize : p.every .machineSized = true := by decide +kernel
  have hqreal : q.every .realFree = true := by decide +kernel
  have hqsize : q.every .machineSized = true := by decide +kernel
  refine ⟨hreal, hsize, ?_, ?_⟩
  · exact Command.program?_of_depth_le hqreal hqsize (by decide +kernel)
      (Json.parse?_pretty .scaled (Program.isExact_of_realFree hqreal hqsize))
  · have hnone : (Program.ofJson? .listed (p.toJson.within maxNesting)).isNone = true := by
      decide +kernel
    have htext := Json.parse?_pretty .scaled (Program.isExact_of_realFree hreal hsize)
    rw [programText, Command.program?_of_parse? htext]
    exact Option.isNone_iff_eq_none.1 hnone

end ArrayFusion
