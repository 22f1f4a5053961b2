import ArrayFusion.Syntax.Exp

/-!
# Programs as text

Expressions are written in a small ML-like notation, for people to read.  The indentation grows by
two blanks inside a lambda, a branch and a loop body.  An operator between two operands is put in
parentheses wherever it is itself an operand; nothing else needs them.
-/

namespace ArrayFusion

/-- Where an expression stands: only an operand needs parentheses around an operator. -/
inductive Position where
  | statement
  | operand
deriving DecidableEq

namespace Print

/-- A line break and `indent` blanks. -/
def newline (indent : Nat) : String := String.ofList ('\n' :: List.replicate indent ' ')

/-- Certificates stand between angle brackets behind the name of the combinator, if there are any.
-/
def certs : Certificates → String
  | [] => ""
  | cs => "<" ++ Text.commaSep (cs.map (·.name.text)) ++ ">"

/-- Parameters with their types. -/
def params (ps : List Ident) : String := Text.commaSep (ps.map (·.text))

/-- Where the operand of an operator stands: behind a sign it is an operand, in parentheses it is
not. -/
def operandPosition : UnaryOp → Position
  | .not => .operand
  | .negate => .operand
  | _ => .statement

/-- An operator with one operand is a sign in front of it or the name of a function. -/
def unary (op : UnaryOp) (operand : String) : String :=
  match op with
  | .not => "!" ++ operand
  | .negate => "-" ++ operand
  | .iota => "iota(" ++ operand ++ ")"
  | .size => "size(" ++ operand ++ ")"
  | .transpose => "transpose(" ++ operand ++ ")"

mutual

/-- The text of an expression at a position, on lines indented by `indent`. -/
def exp (indent : Nat) (pos : Position) : Exp → String
  | .lit v _ => v.text
  | .var x _ => x.name.text
  | .tuple es _ => "(" ++ Text.commaSep (exps indent es) ++ ")"
  | .array es _ _ => "[" ++ Text.commaSep (exps indent es) ++ "]"
  | .binary op a b _ _ =>
    let body := exp indent .operand a ++ " " ++ op.text ++ " " ++ exp indent .operand b
    if pos = .operand then "(" ++ body ++ ")" else body
  | .unary op e _ => unary op (exp indent (operandPosition op) e)
  | .cond c t e _ _ =>
    "if " ++ exp indent .statement c ++ " then" ++ newline (indent + 2)
      ++ exp (indent + 2) .statement t ++ newline indent ++ "else" ++ newline (indent + 2)
      ++ exp (indent + 2) .statement e
  | .call f es _ _ => f ++ "(" ++ Text.commaSep (exps indent es) ++ ")"
  | .letIn p r b _ =>
    "let " ++ Pattern.text p ++ " = " ++ exp indent .statement r ++ " in" ++ newline indent
      ++ exp indent .statement b
  | .update x y is v b _ =>
    "let " ++ x.name.text ++ " = " ++ y.name.text ++ " with [" ++ Text.commaSep (exps indent is)
      ++ "] <- " ++ exp indent .statement v ++ " in" ++ newline indent ++ exp indent .statement b
  | .index x is _ => x.name.text ++ "[" ++ Text.commaSep (exps indent is) ++ "]"
  | .replicate n v _ =>
    "replicate(" ++ exp indent .statement n ++ ", " ++ exp indent .statement v ++ ")"
  | .loop p is i n b r _ =>
    "loop (" ++ Pattern.text p ++ " = (" ++ Text.commaSep (exps indent is) ++ ")) for "
      ++ i.name.text ++ " < " ++ exp indent .statement n ++ " do" ++ newline (indent + 2)
      ++ exp (indent + 2) .statement b ++ newline indent ++ "in" ++ newline indent
      ++ exp indent .statement r
  | .soac op es cs _ =>
    op.kind.text ++ certs cs ++ "(" ++ combinator indent op ++ ", "
      ++ Text.commaSep (exps indent es) ++ ")"

/-- The texts of a list of expressions. -/
def exps (indent : Nat) : List Exp → List String
  | [] => []
  | e :: es => exp indent .statement e :: exps indent es

/-- The text of a lambda; its body stands on a line of its own. -/
def lambda (indent : Nat) : Lambda → String
  | ⟨ps, b, ts⟩ =>
    "fn (" ++ params ps ++ "): " ++ (Ty.ofResults ts).text ++ " =>" ++ newline (indent + 2)
      ++ exp (indent + 2) .statement b

/-- The lambdas of a combinator, and its neutral elements in parentheses if it is a fold. -/
def combinator (indent : Nat) : Combinator → String
  | .map f => lambda indent f
  | .reduce f ne => lambda indent f ++ ", (" ++ Text.commaSep (exps indent ne) ++ ")"
  | .scan f ne => lambda indent f ++ ", (" ++ Text.commaSep (exps indent ne) ++ ")"
  | .filter p => lambda indent p
  | .redomap f g ne =>
    lambda indent f ++ ", " ++ lambda indent g ++ ", (" ++ Text.commaSep (exps indent ne) ++ ")"

end

end Print

/-- The text of an expression. -/
def Exp.text (e : Exp) : String := Print.exp 0 .statement e

/-- The text of a lambda. -/
def Lambda.text (f : Lambda) : String := Print.lambda 0 f

/-- The text of a function: its head, and its body on lines of its own. -/
def FunDef.text (f : FunDef) : String :=
  "fun " ++ f.name ++ "(" ++ Print.params f.params ++ "): " ++ f.ret.text ++ " ="
    ++ Print.newline 2 ++ Print.exp 2 .statement f.body

/-- The text of a program: each function ends its line, and a blank line stands between two of them.
-/
def Program.text (p : Program) : String :=
  "\n".intercalate (p.funs.map fun f => f.text ++ "\n")

end ArrayFusion
