import MiniJava.Proofs.Tree.Tokens
import MiniJava.Proofs.Tree.Written

/-!
# The nodes of a tree

The nodes that errors of compilation are about: every expression of a tree, and every name that code
is generated for, as the expression that is this name.

* **`Expr.nodes`**, **`Stmt.nodes`**, **`Program.nodes`** — the nodes of a tree.
* **`Program.Written.reported`** — the nodes of a program that can be written can be written as
  well, and are reported at its tokens.
-/

namespace MiniJava

mutual

/-- The expression, its parts and the names in it. -/
def Expr.nodes : Expr → List Expr
  | .var x => [.var x]
  | .int t n => [.int t n]
  | .bool t b => [.bool t b]
  | .this t => [.this t]
  | .unary t op e => .unary t op e :: e.nodes
  | .binary t op l r => .binary t op l r :: (l.nodes ++ r.nodes)
  | .index t a i => .index t a i :: (a.nodes ++ i.nodes)
  | .length t a => .length t a :: a.nodes
  | .call t recv m args => .call t recv m args :: .var m :: (recv.nodes ++ Expr.allNodes args)
  | .newArray t size => .newArray t size :: size.nodes
  | .newObject t c => [.newObject t c, .var c]
  | .missing => [.missing]

/-- The nodes of expressions. -/
def Expr.allNodes : List Expr → List Expr
  | [] => []
  | e :: es => e.nodes ++ Expr.allNodes es

end

mutual

/-- The expressions and the names in a statement. -/
def Stmt.nodes : Stmt → List Expr
  | .block _ body => Stmt.allNodes body
  | .cond _ c a b => c.nodes ++ a.nodes ++ b.nodes
  | .loop _ c b => c.nodes ++ b.nodes
  | .print _ e => e.nodes
  | .assign _ x e => .var x :: e.nodes
  | .assignElem _ x i e => .var x :: (i.nodes ++ e.nodes)
  | .missing => [.missing]

/-- The nodes of statements. -/
def Stmt.allNodes : List Stmt → List Expr
  | [] => []
  | s :: ss => s.nodes ++ Stmt.allNodes ss

end

/-- The nodes of a method, its name among them. -/
def MethodDecl.nodes (m : MethodDecl) : List Expr :=
  .var m.name :: (Stmt.allNodes m.body ++ m.result.nodes)

/-- The nodes of a class, its name among them. -/
def ClassDecl.nodes (c : ClassDecl) : List Expr :=
  .var c.name :: c.methods.flatMap MethodDecl.nodes

/-- The nodes of the entry class, its name among them. -/
def MainClass.nodes (m : MainClass) : List Expr :=
  .var m.name :: Stmt.allNodes m.body

/-- The nodes of a program. -/
def Program.nodes (p : Program) : List Expr :=
  p.main.toList.flatMap MainClass.nodes ++ p.classes.flatMap ClassDecl.nodes

theorem Expr.self_mem_nodes (e : Expr) : e ∈ e.nodes := by
  cases e <;> simp [Expr.nodes]

/-! ### The tokens of the nodes -/

theorem Token.kind_of_unplaced {t : Token} {k : TokenKind} (h : t.unplaced = .fixed k) :
    t.kind = k :=
  congrArg Token.kind h

/-- The token of an expression that can be written is not illegal. -/
theorem Expr.Written.legal : ∀ {e : Expr}, e.Written → ∀ {t : Token}, e.token? = some t →
    t.kind ≠ .illegal
  | .var _, h, _, rfl => ne_of_eq_of_ne h.kind nofun
  | .int _ _, h, _, rfl => ne_of_eq_of_ne h.1 nofun
  | .bool _ true, h, _, rfl => ne_of_eq_of_ne (Token.kind_of_unplaced h) nofun
  | .bool _ false, h, _, rfl => ne_of_eq_of_ne (Token.kind_of_unplaced h) nofun
  | .this _, h, _, rfl => ne_of_eq_of_ne (Token.kind_of_unplaced h) nofun
  | .unary _ _ _, h, _, rfl => ne_of_eq_of_ne (Token.kind_of_unplaced h.1) nofun
  | .binary _ _ _ _, h, _, rfl => by
    obtain ⟨k, hop⟩ := h.1
    intro hkind
    rw [hkind] at hop
    cases hop
  | .index _ _ _, h, _, rfl => ne_of_eq_of_ne (Token.kind_of_unplaced h.1) nofun
  | .length _ _, h, _, rfl => ne_of_eq_of_ne (Token.kind_of_unplaced h.1) nofun
  | .call _ _ _ _, h, _, rfl => by
    rw [h.1]
    exact ne_of_eq_of_ne h.2.2.1.kind nofun
  | .newArray _ _, h, _, rfl => ne_of_eq_of_ne (Token.kind_of_unplaced h.1) nofun
  | .newObject _ _, h, _, rfl => ne_of_eq_of_ne (Token.kind_of_unplaced h.1) nofun

/-- Every one of the nodes can be written and is reported at one of the tokens. -/
def ReportedAmong (ts : List Token) (ns : List Expr) : Prop :=
  ∀ n ∈ ns, n.Written ∧ ∃ t ∈ ts, n.token? = some t

namespace ReportedAmong

variable {ts us : List Token} {ns ms : List Expr}

theorem mono (h : ReportedAmong ts ns) (hts : ts ⊆ us) : ReportedAmong us ns := by
  intro n hn
  obtain ⟨hwritten, t, ht, htoken⟩ := h n hn
  exact ⟨hwritten, t, hts ht, htoken⟩

theorem nil : ReportedAmong ts [] := nofun

theorem cons {n : Expr} {t : Token} (htoken : n.token? = some t) (hn : n.Written)
    (h : ReportedAmong ts ns) : ReportedAmong (t :: ts) (n :: ns) :=
  List.forall_mem_cons.mpr
    ⟨⟨hn, t, List.mem_cons_self, htoken⟩, h.mono (List.subset_cons_self t ts)⟩

theorem append (h : ReportedAmong ts ns) (h' : ReportedAmong us ms) :
    ReportedAmong (ts ++ us) (ns ++ ms) :=
  List.forall_mem_append.mpr
    ⟨h.mono (List.subset_append_left ts us), h'.mono (List.subset_append_right ts us)⟩

theorem flatMap {α : Type} {tokens : α → List Token} {nodes : α → List Expr} {as : List α}
    (h : ∀ a ∈ as, ReportedAmong (tokens a) (nodes a)) :
    ReportedAmong (as.flatMap tokens) (as.flatMap nodes) := by
  intro n hn
  obtain ⟨a, ha, hn⟩ := List.mem_flatMap.mp hn
  exact (h a ha).mono (fun t ht => List.mem_flatMap.mpr ⟨a, ha, ht⟩) n hn

end ReportedAmong

mutual

theorem Expr.Written.reported : ∀ {e : Expr}, e.Written → ReportedAmong e.tokens e.nodes
  | .var _, h => .cons rfl h .nil
  | .int _ _, h => .cons rfl h .nil
  | .bool _ _, h => .cons rfl h .nil
  | .this _, h => .cons rfl h .nil
  | .unary _ _ _, h => .cons rfl h (Expr.Written.reported h.2.2)
  | .binary _ _ _ _, h =>
    .cons rfl h ((Expr.Written.reported h.2.2.1).append (Expr.Written.reported h.2.2.2))
  | .index _ _ _, h =>
    .cons rfl h ((Expr.Written.reported h.2.1).append (Expr.Written.reported h.2.2))
  | .length _ _, h => .cons rfl h (Expr.Written.reported h.2)
  | .call _ _ _ _, h =>
    .cons rfl h (.cons rfl h.2.2.1
      ((Expr.Written.reported h.2.1).append (Expr.AllWritten.reported h.2.2.2)))
  | .newArray _ _, h => .cons rfl h (Expr.Written.reported h.2)
  | .newObject _ _, h => .cons rfl h (.cons rfl h.2 .nil)
  | .missing, h => h.elim

theorem Expr.AllWritten.reported : ∀ {es : List Expr}, Expr.AllWritten es →
    ReportedAmong (Expr.allTokens es) (Expr.allNodes es)
  | [], _ => .nil
  | _ :: _, h => (Expr.Written.reported h.1).append (Expr.AllWritten.reported h.2)

end

mutual

/-- Only the expressions of a statement and its names are nodes: its own token is one more. -/
theorem Stmt.Written.reported : ∀ {s : Stmt}, s.Written → ReportedAmong s.tokens s.nodes
  | .block t _, h => (Stmt.AllWritten.reported h.2).mono (List.subset_cons_self t _)
  | .cond t _ _ _, h =>
    ((h.2.1.reported.append (Stmt.Written.reported h.2.2.1)).append
      (Stmt.Written.reported h.2.2.2)).mono (List.subset_cons_self t _)
  | .loop t _ _, h =>
    (h.2.1.reported.append (Stmt.Written.reported h.2.2)).mono (List.subset_cons_self t _)
  | .print t _, h => h.2.reported.mono (List.subset_cons_self t _)
  | .assign t x _, h =>
    (ReportedAmong.cons (n := .var x) rfl h.2.1 h.2.2.reported).mono (List.subset_cons_self t _)
  | .assignElem t x _ _, h =>
    (ReportedAmong.cons (n := .var x) rfl h.2.1 (h.2.2.1.reported.append h.2.2.2.reported)).mono
      (List.subset_cons_self t _)
  | .missing, h => h.elim

theorem Stmt.AllWritten.reported : ∀ {ss : List Stmt}, Stmt.AllWritten ss →
    ReportedAmong (Stmt.allTokens ss) (Stmt.allNodes ss)
  | [], _ => .nil
  | _ :: _, h => (Stmt.Written.reported h.1).append (Stmt.AllWritten.reported h.2)

end

theorem MethodDecl.Written.reported {m : MethodDecl} (h : m.Written) :
    ReportedAmong m.tokens m.nodes := by
  have hcode := (Stmt.AllWritten.reported h.body).append h.result.reported
  apply (ReportedAmong.cons (n := .var m.name) rfl h.name hcode).mono
  grind [MethodDecl.tokens]

theorem ClassDecl.Written.reported {c : ClassDecl} (h : c.Written) :
    ReportedAmong c.tokens c.nodes := by
  have hmethods : ReportedAmong (c.methods.flatMap MethodDecl.tokens)
      (c.methods.flatMap MethodDecl.nodes) := .flatMap fun m hm => (h.methods m hm).reported
  apply (ReportedAmong.cons (n := .var c.name) rfl h.name hmethods).mono
  grind [ClassDecl.tokens]

theorem MainClass.Written.reported {m : MainClass} (h : m.Written) :
    ReportedAmong m.tokens m.nodes := by
  have hcode := Stmt.AllWritten.reported h.body
  apply (ReportedAmong.cons (n := .var m.name) rfl h.name hcode).mono
  grind [MainClass.tokens]

/-- Every node of a program that can be written is reported at a token of the program. -/
theorem Program.Written.reported {p : Program} (h : p.Written) :
    ReportedAmong p.tokens p.nodes := by
  obtain ⟨m, hmain, hm⟩ := h.main
  apply ReportedAmong.append
  · apply ReportedAmong.flatMap
    intro m' hm'
    obtain rfl : m' = m := by simpa [hmain] using hm'
    exact hm.reported
  · exact .flatMap fun c hc => (h.classes c hc).reported

end MiniJava
