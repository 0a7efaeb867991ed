import MiniJava.Tree

/-!
# Printing trees

The source text of a tree on as few lines as there are classes.  Operators and indexing are
written with parentheses around them, so that no precedence is needed to read them back; a
literal is written as its token was.
-/

namespace MiniJava

mutual

/-- The source text of an expression. -/
def Expr.text : Expr → Bytes
  | .var x => x.name
  | .int t _ => t.literal
  | .bool t _ => t.literal
  | .this _ => "this"
  | .unary _ op e => "(" ++ op.symbol ++ e.text ++ ")"
  | .binary _ op l r => "(" ++ l.text ++ " " ++ op.symbol ++ " " ++ r.text ++ ")"
  | .index _ a i => "(" ++ a.text ++ "[" ++ i.text ++ "])"
  | .length _ a => a.text ++ ".length"
  | .call _ recv m args =>
      recv.text ++ "." ++ m.name ++ "(" ++ Bytes.join ", " (Expr.texts args) ++ ")"
  | .newArray _ size => "new int[" ++ size.text ++ "]"
  | .newObject _ c => "new " ++ c.name ++ "()"
  | .missing => []

/-- The source texts of expressions. -/
def Expr.texts : List Expr → List Bytes
  | [] => []
  | e :: es => e.text :: Expr.texts es

end

mutual

/-- The source text of a statement. -/
def Stmt.text : Stmt → Bytes
  | .block _ [] => "\x7b \x7d"
  | .block _ (s :: ss) => "\x7b " ++ Bytes.join " " (s.text :: Stmt.texts ss) ++ " \x7d"
  | .cond _ c t e => "if (" ++ c.text ++ ") " ++ t.text ++ " else " ++ e.text
  | .loop _ c b => "while (" ++ c.text ++ ") " ++ b.text
  | .print _ e => "System.out.println(" ++ e.text ++ ");"
  | .assign _ x e => x.name ++ " = " ++ e.text ++ ";"
  | .assignElem _ x i e => x.name ++ "[" ++ i.text ++ "] = " ++ e.text ++ ";"
  | .missing => []

/-- The source texts of statements. -/
def Stmt.texts : List Stmt → List Bytes
  | [] => []
  | s :: ss => s.text :: Stmt.texts ss

end

/-- A declaration without the semicolon after it: a parameter. -/
def VarDecl.text (d : VarDecl) : Bytes := d.type.type.text ++ " " ++ d.name.name

/-- Items one after another, each followed by a blank. -/
def spaced (items : List Bytes) : Bytes := items.flatMap (· ++ " ")

/-- Variable declarations, each with its semicolon. -/
def declarations (ds : List VarDecl) : Bytes := spaced (ds.map (·.text ++ ";"))

/-- The source text of a method. -/
def MethodDecl.text (m : MethodDecl) : Bytes :=
  "public " ++ m.returns.type.text ++ " " ++ m.name.name
    ++ "(" ++ Bytes.join ", " (m.params.map VarDecl.text) ++ ") \x7b "
    ++ declarations m.vars ++ spaced (Stmt.texts m.body)
    ++ (match m.result with
        | .missing => []
        | e => "return " ++ e.text ++ "; ")
    ++ "\x7d"

/-- The source text of a class. -/
def ClassDecl.text (c : ClassDecl) : Bytes :=
  "class " ++ c.name.name
    ++ (match c.parent with
        | some p => " extends " ++ p.name
        | none => [])
    ++ " \x7b " ++ declarations c.fields ++ spaced (c.methods.map MethodDecl.text) ++ "\x7d"

/-- The source text of the entry class. -/
def MainClass.text (m : MainClass) : Bytes :=
  "class " ++ m.name.name ++ " \x7b public static void main(String[] "
    ++ (match m.arg with
        | some a => a.name
        | none => [])
    ++ ") \x7b " ++ declarations m.vars ++ spaced (Stmt.texts m.body) ++ "\x7d \x7d"

/-- The source text of a program: each declared class starts a line. -/
def Program.text (p : Program) : Bytes :=
  (match p.main with
    | some m => m.text
    | none => [])
    ++ p.classes.flatMap fun c => ("\n" ++ c.text : Bytes)

/-- The literal of the token a program starts with. -/
def Program.literal (p : Program) : Bytes :=
  match p.main with
  | some m => m.token.literal
  | none => []

/-- The literal of the token an expression is reported at. -/
def Expr.literal (e : Expr) : Bytes :=
  match e.token? with
  | some t => t.literal
  | none => []

end MiniJava
