import MiniJava.Proofs.Token.Scan
import MiniJava.Tree

/-!
# Trees without places

A tree in which no token knows where it stands.  Two trees that agree when the places are taken
away are equal in everything else.

* **`Expr.unplaced`**, **`Stmt.unplaced`**, **`Program.unplaced`** — the tree without places.
-/

namespace MiniJava

/-- The name without its place. -/
def Ident.unplaced (x : Ident) : Ident := ⟨x.token.unplaced, x.name⟩

/-- The type without its place. -/
def TypeRef.unplaced (r : TypeRef) : TypeRef := ⟨r.token.unplaced, r.type⟩

/-- The declaration without places. -/
def VarDecl.unplaced (d : VarDecl) : VarDecl := ⟨d.token.unplaced, d.type.unplaced, d.name.unplaced⟩

mutual

/-- The expression without places. -/
def Expr.unplaced : Expr → Expr
  | .var x => .var x.unplaced
  | .int t v => .int t.unplaced v
  | .bool t v => .bool t.unplaced v
  | .this t => .this t.unplaced
  | .unary t op e => .unary t.unplaced op e.unplaced
  | .binary t op l r => .binary t.unplaced op l.unplaced r.unplaced
  | .index t a i => .index t.unplaced a.unplaced i.unplaced
  | .length t a => .length t.unplaced a.unplaced
  | .call t recv m args => .call t.unplaced recv.unplaced m.unplaced (Expr.unplacedAll args)
  | .newArray t size => .newArray t.unplaced size.unplaced
  | .newObject t c => .newObject t.unplaced c.unplaced
  | .missing => .missing

/-- The expressions without places. -/
def Expr.unplacedAll : List Expr → List Expr
  | [] => []
  | e :: es => e.unplaced :: Expr.unplacedAll es

end

mutual

/-- The statement without places. -/
def Stmt.unplaced : Stmt → Stmt
  | .block t body => .block t.unplaced (Stmt.unplacedAll body)
  | .cond t c a b => .cond t.unplaced c.unplaced a.unplaced b.unplaced
  | .loop t c b => .loop t.unplaced c.unplaced b.unplaced
  | .print t e => .print t.unplaced e.unplaced
  | .assign t x e => .assign t.unplaced x.unplaced e.unplaced
  | .assignElem t x i e => .assignElem t.unplaced x.unplaced i.unplaced e.unplaced
  | .missing => .missing

/-- The statements without places. -/
def Stmt.unplacedAll : List Stmt → List Stmt
  | [] => []
  | s :: ss => s.unplaced :: Stmt.unplacedAll ss

end

/-- The method without places. -/
def MethodDecl.unplaced (m : MethodDecl) : MethodDecl :=
  ⟨m.token.unplaced, m.returns.unplaced, m.name.unplaced, m.params.map VarDecl.unplaced,
    m.vars.map VarDecl.unplaced, Stmt.unplacedAll m.body, m.result.unplaced⟩

/-- The class without places. -/
def ClassDecl.unplaced (c : ClassDecl) : ClassDecl :=
  ⟨c.token.unplaced, c.name.unplaced, c.parent.map Ident.unplaced,
    c.fields.map VarDecl.unplaced, c.methods.map MethodDecl.unplaced⟩

/-- The entry class without places. -/
def MainClass.unplaced (m : MainClass) : MainClass :=
  ⟨m.token.unplaced, m.name.unplaced, m.arg.map Ident.unplaced, m.vars.map VarDecl.unplaced,
    Stmt.unplacedAll m.body⟩

/-- The program without places. -/
def Program.unplaced (p : Program) : Program :=
  ⟨p.main.map MainClass.unplaced, p.classes.map ClassDecl.unplaced⟩

/-! ### Taking places away twice -/

@[simp] theorem Ident.unplaced_unplaced (x : Ident) : x.unplaced.unplaced = x.unplaced := rfl

@[simp] theorem VarDecl.unplaced_unplaced (d : VarDecl) : d.unplaced.unplaced = d.unplaced := rfl

mutual

@[simp] theorem Expr.unplaced_unplaced : ∀ e : Expr, e.unplaced.unplaced = e.unplaced
  | .var _ => rfl
  | .int _ _ => rfl
  | .bool _ _ => rfl
  | .this _ => rfl
  | .unary _ _ e => by simp [Expr.unplaced, e.unplaced_unplaced]
  | .binary _ _ l r => by simp [Expr.unplaced, l.unplaced_unplaced, r.unplaced_unplaced]
  | .index _ a i => by simp [Expr.unplaced, a.unplaced_unplaced, i.unplaced_unplaced]
  | .length _ a => by simp [Expr.unplaced, a.unplaced_unplaced]
  | .call _ recv _ args => by
    simp [Expr.unplaced, recv.unplaced_unplaced, Expr.unplacedAll_unplacedAll args]
  | .newArray _ e => by simp [Expr.unplaced, e.unplaced_unplaced]
  | .newObject _ _ => rfl
  | .missing => rfl

@[simp] theorem Expr.unplacedAll_unplacedAll :
    ∀ es : List Expr, Expr.unplacedAll (Expr.unplacedAll es) = Expr.unplacedAll es
  | [] => rfl
  | e :: es => by simp [Expr.unplacedAll, e.unplaced_unplaced, Expr.unplacedAll_unplacedAll es]

end

mutual

@[simp] theorem Stmt.unplaced_unplaced : ∀ s : Stmt, s.unplaced.unplaced = s.unplaced
  | .block _ body => by simp [Stmt.unplaced, Stmt.unplacedAll_unplacedAll body]
  | .cond _ _ a b => by simp [Stmt.unplaced, a.unplaced_unplaced, b.unplaced_unplaced]
  | .loop _ _ b => by simp [Stmt.unplaced, b.unplaced_unplaced]
  | .print _ _ => by simp [Stmt.unplaced]
  | .assign _ _ _ => by simp [Stmt.unplaced]
  | .assignElem _ _ _ _ => by simp [Stmt.unplaced]
  | .missing => rfl

@[simp] theorem Stmt.unplacedAll_unplacedAll :
    ∀ ss : List Stmt, Stmt.unplacedAll (Stmt.unplacedAll ss) = Stmt.unplacedAll ss
  | [] => rfl
  | s :: ss => by simp [Stmt.unplacedAll, s.unplaced_unplaced, Stmt.unplacedAll_unplacedAll ss]

end

/-- Places that are taken away once are gone. -/
theorem Program.unplaced_unplaced (p : Program) : p.unplaced.unplaced = p.unplaced := by
  have hvars : VarDecl.unplaced ∘ VarDecl.unplaced = VarDecl.unplaced := rfl
  have hidents : Ident.unplaced ∘ Ident.unplaced = Ident.unplaced := rfl
  have hmethods : MethodDecl.unplaced ∘ MethodDecl.unplaced = MethodDecl.unplaced := by
    funext m
    simp [MethodDecl.unplaced, TypeRef.unplaced, hvars]
  simp only [Program.unplaced, List.map_map, Option.map_map, Program.mk.injEq]
  refine ⟨congrArg (p.main.map ·) (funext fun m => ?_),
    congrArg (p.classes.map ·) (funext fun c => ?_)⟩
  · simp [MainClass.unplaced, hvars, hidents]
  · simp [ClassDecl.unplaced, hvars, hidents, hmethods]

end MiniJava
