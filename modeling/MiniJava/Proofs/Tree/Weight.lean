import MiniJava.Proofs.Grammar
import MiniJava.Proofs.Token.Scan

/-!
# How much it takes to write a tree

The weight of a tree is the least number of tokens that it can be written in.  It bounds
everything there is to count in a tree, and a source has at least as many bytes as its tree weighs.

* **`Expr.weight`**, **`Stmt.weight`**, **`Program.weight`** — the weight of a tree.
* **`weight_le_of_programOf`** — a phrase has at least as many tokens as its tree weighs.
-/

namespace MiniJava

mutual

/-- The least number of tokens that an expression takes. -/
def Expr.weight : Expr → Nat
  | .unary _ _ e => 1 + e.weight
  | .binary _ _ l r => 1 + l.weight + r.weight
  | .index _ a i => 2 + a.weight + i.weight
  | .length _ a => 2 + a.weight
  | .call _ recv _ args => 4 + recv.weight + Expr.weights args
  | .newArray _ e => 4 + e.weight
  | .newObject _ _ => 4
  | .missing => 0
  | _ => 1

/-- The least number of tokens that expressions take, apart from what separates them. -/
def Expr.weights : List Expr → Nat
  | [] => 0
  | e :: es => e.weight + Expr.weights es

end

mutual

/-- The least number of tokens that a statement takes. -/
def Stmt.weight : Stmt → Nat
  | .block _ ss => 2 + Stmt.weights ss
  | .cond _ c a b => 4 + c.weight + a.weight + b.weight
  | .loop _ c b => 3 + c.weight + b.weight
  | .print _ e => 8 + e.weight
  | .assign _ _ e => 3 + e.weight
  | .assignElem _ _ i e => 5 + i.weight + e.weight
  | .missing => 0

/-- The least number of tokens that statements take. -/
def Stmt.weights : List Stmt → Nat
  | [] => 0
  | s :: ss => s.weight + Stmt.weights ss

end

/-- The sum of what the members of a list come to. -/
def total {α : Type} (f : α → Nat) : List α → Nat
  | [] => 0
  | x :: xs => f x + total f xs

/-- The least number of tokens that a method takes. -/
def MethodDecl.weight (m : MethodDecl) : Nat :=
  9 + 2 * m.params.length + 3 * m.vars.length + Stmt.weights m.body + m.result.weight

/-- The least number of tokens that a class takes. -/
def ClassDecl.weight (c : ClassDecl) : Nat :=
  4 + 3 * c.fields.length + total MethodDecl.weight c.methods

/-- The least number of tokens that an entry class takes. -/
def MainClass.weight (m : MainClass) : Nat := 16 + 3 * m.vars.length + Stmt.weights m.body

/-- The least number of tokens that a program takes. -/
def Program.weight (p : Program) : Nat :=
  ((p.main.map MainClass.weight).getD 0) + total ClassDecl.weight p.classes

/-! ### Phrases are long enough -/

namespace Grammar

mutual

theorem weight_le_of_expAt {k : Nat} {ts : List Token} {e : Expr} :
    ExpAt k ts e → e.weight ≤ ts.length
  | .tighter h => weight_le_of_expAt h
  | .binary h _ h' => by
    have hl := weight_le_of_expAt h
    have hr := weight_le_of_expAt h'
    simp only [Expr.weight, List.length_append, List.length_cons]
    omega
  | .not _ h => by
    have he := weight_le_of_expAt h
    simp only [Expr.weight, List.length_cons]
    omega
  | .atom h => by cases h <;> simp [Expr.weight]
  | .paren _ h _ => by
    have he := weight_le_of_expAt h
    simp only [List.length_append, List.length_cons]
    omega
  | .newArray _ h _ => by
    have he := weight_le_of_expAt h
    simp only [Expr.weight, List.length_append, List.length_cons, List.length_nil]
    omega
  | .newObject _ => by simp [Expr.weight]
  | .index h _ h' _ => by
    have ha := weight_le_of_expAt h
    have hi := weight_le_of_expAt h'
    simp only [Expr.weight, List.length_append, List.length_cons, List.length_nil]
    omega
  | .length h _ => by
    have ha := weight_le_of_expAt h
    simp only [Expr.weight, List.length_append, List.length_cons, List.length_nil]
    omega
  | .call h _ hs _ => by
    have ha := weight_le_of_expAt h
    have hes := weights_le_of_argsAt hs
    simp only [Expr.weight, List.length_append, List.length_cons, List.length_nil]
    omega

theorem weights_le_of_argsAt {us : List Token} {es : List Expr} :
    ArgsAt us es → Expr.weights es ≤ us.length
  | .none => Nat.le_refl _
  | .some h hs => by
    have he := weight_le_of_expAt h
    have hes := weights_le_of_moreArgsAt hs
    simp only [Expr.weights, List.length_append]
    omega

theorem weights_le_of_moreArgsAt {us : List Token} {es : List Expr} :
    MoreArgsAt us es → Expr.weights es ≤ us.length
  | .none => Nat.le_refl _
  | .some _ h hs => by
    have he := weight_le_of_expAt h
    have hes := weights_le_of_moreArgsAt hs
    simp only [Expr.weights, List.length_append, List.length_cons]
    omega

end

mutual

theorem weight_le_of_stmtOf {ts : List Token} {s : Stmt} :
    StmtOf (ExpAt 0) ts s → s.weight ≤ ts.length
  | .block _ hs _ => by
    have hss := weights_le_of_stmtsOf hs
    simp only [Stmt.weight, List.length_append, List.length_cons, List.length_nil]
    omega
  | .cond _ hc _ ha _ hb => by
    have hcond := weight_le_of_expAt hc
    have hthen := weight_le_of_stmtOf ha
    have helse := weight_le_of_stmtOf hb
    simp only [Stmt.weight, List.length_append, List.length_cons, List.length_nil]
    omega
  | .loop _ hc _ hb => by
    have hcond := weight_le_of_expAt hc
    have hbody := weight_le_of_stmtOf hb
    simp only [Stmt.weight, List.length_append, List.length_cons, List.length_nil]
    omega
  | .print ho he _ => by
    obtain ⟨s, d, o, e, p, l, hts, -⟩ := ho
    have hlength := congrArg List.length hts
    have hvalue := weight_le_of_expAt he
    simp only [List.length_cons, List.length_nil] at hlength
    simp only [Stmt.weight, List.length_append, List.length_cons, List.length_nil]
    omega
  | .assign _ he _ => by
    have hvalue := weight_le_of_expAt he
    simp only [Stmt.weight, List.length_append, List.length_cons, List.length_nil]
    omega
  | .assignElem _ hi _ he _ => by
    have hindex := weight_le_of_expAt hi
    have hvalue := weight_le_of_expAt he
    simp only [Stmt.weight, List.length_append, List.length_cons, List.length_nil]
    omega

theorem weights_le_of_stmtsOf {ts : List Token} {ss : List Stmt} :
    StmtsOf (ExpAt 0) ts ss → Stmt.weights ss ≤ ts.length
  | .none => Nat.le_refl _
  | .some h hs => by
    have hfirst := weight_le_of_stmtOf h
    have hrest := weights_le_of_stmtsOf hs
    simp only [Stmt.weights, List.length_append]
    omega

end

theorem length_typeOf {ts : List Token} {type : TypeRef} (h : TypeOf ts type) : 1 ≤ ts.length := by
  cases h <;> simp

theorem length_typedName {ts : List Token} {d : VarDecl} (h : TypedName ts d) :
    2 ≤ ts.length := by
  cases h with
  | mk htype _ =>
    have hlength := length_typeOf htype
    simp only [List.length_append, List.length_cons, List.length_nil]
    omega

theorem length_decls {ts : List Token} {ds : List VarDecl} (h : Decls ts ds) :
    3 * ds.length ≤ ts.length := by
  induction h with
  | none => simp
  | some hd _ _ ih =>
    have hlength := length_typedName hd
    simp only [List.length_append, List.length_cons]
    omega

theorem length_moreParams {ts : List Token} {ds : List VarDecl} (h : MoreParams ts ds) :
    2 * ds.length ≤ ts.length := by
  induction h with
  | none => simp
  | some _ hd _ ih =>
    have hlength := length_typedName hd
    simp only [List.length_append, List.length_cons]
    omega

theorem length_params {ts : List Token} {ds : List VarDecl} (h : Params ts ds) :
    2 * ds.length ≤ ts.length := by
  cases h with
  | none => simp
  | some hd hs =>
    have hlength := length_typedName hd
    have hrest := length_moreParams hs
    simp only [List.length_append, List.length_cons]
    omega

theorem weight_le_of_methodOf {ts : List Token} {m : MethodDecl} (h : MethodOf (ExpAt 0) ts m) :
    m.weight ≤ ts.length := by
  cases h with
  | mk _ htype _ hps _ hds hss _ he _ =>
    have hreturns := length_typeOf htype
    have hparams := length_params hps
    have hvars := length_decls hds
    have hbody := weights_le_of_stmtsOf hss
    have hresult := weight_le_of_expAt he
    simp only [MethodDecl.weight, List.length_append, List.length_cons, List.length_nil]
    omega

theorem weight_le_of_methodsOf {ts : List Token} {ms : List MethodDecl}
    (h : MethodsOf (ExpAt 0) ts ms) : total MethodDecl.weight ms ≤ ts.length := by
  induction h with
  | none => exact Nat.zero_le _
  | some hm _ ih =>
    have hfirst := weight_le_of_methodOf hm
    simp only [total, List.length_append]
    omega

theorem weight_le_of_classOf {ts : List Token} {c : ClassDecl} (h : ClassOf (ExpAt 0) ts c) :
    c.weight ≤ ts.length := by
  cases h with
  | mk _ _ _ hfs hms _ =>
    have hfields := length_decls hfs
    have hmethods := weight_le_of_methodsOf hms
    simp only [ClassDecl.weight, List.length_append, List.length_cons, List.length_nil]
    omega

theorem weight_le_of_classesOf {ts : List Token} {cs : List ClassDecl}
    (h : ClassesOf (ExpAt 0) ts cs) : total ClassDecl.weight cs ≤ ts.length := by
  induction h with
  | none => exact Nat.zero_le _
  | some hc _ ih =>
    have hfirst := weight_le_of_classOf hc
    simp only [total, List.length_append]
    omega

/-- A phrase has at least as many tokens as its tree weighs. -/
theorem weight_le_of_programOf {ts : List Token} {p : Program} (h : ProgramOf (ExpAt 0) ts p) :
    p.weight ≤ ts.length := by
  cases h with
  | mk hm hcs =>
    have hclasses := weight_le_of_classesOf hcs
    cases hm with
    | mk _ hh _ hps hds hss hus =>
      have hhead := congrArg List.length hh
      have hopen := congrArg List.length hps
      have hclose := congrArg List.length hus
      have hvars := length_decls hds
      have hbody := weights_le_of_stmtsOf hss
      simp only [kinds, List.length_map, List.length_cons, List.length_nil] at hhead hopen hclose
      simp only [Program.weight, MainClass.weight, Option.map_some, Option.getD_some,
        List.length_append, List.length_cons, List.length_nil]
      omega

end Grammar

/-! ### Sources are long enough -/

theorem length_locate_le (p : Position) (ps : List Piece) :
    (Piece.locate p ps).length ≤ ps.length := by
  induction ps generalizing p with
  | nil => simp [Piece.locate]
  | cons piece ps ih =>
    cases piece with
    | gap t =>
      have hrest := ih (p.after t)
      simp only [Piece.locate, List.length_cons]
      omega
    | token kind literal t => simpa [Piece.locate] using ih (p.after t)

theorem length_piecesWithin_le (n : Nat) (source : Bytes) : (piecesWithin n source).length ≤ n := by
  induction n generalizing source with
  | zero => cases source <;> simp [piecesWithin]
  | succ n ih =>
    cases source with
    | nil => simp [piecesWithin]
    | cons c rest => simpa [piecesWithin] using ih _

/-- A source has at least as many bytes as tokens. -/
theorem length_ofSource_le (source : Bytes) :
    (TokenStream.ofSource source).pending.length ≤ source.length :=
  (length_locate_le _ _).trans (length_piecesWithin_le _ _)

/-! ### What weighs less than the whole -/

section Parts

variable {p : Program}

theorem le_total_of_mem {α : Type} {f : α → Nat} {xs : List α} {x : α} (h : x ∈ xs) :
    f x ≤ total f xs := by
  induction xs with
  | nil => cases h
  | cons y xs ih =>
    rcases List.mem_cons.mp h with rfl | h
    · exact Nat.le_add_right _ _
    · have hrest := ih h
      simp only [total]
      omega

theorem weight_class_le {c : ClassDecl} (hc : c ∈ p.classes) : c.weight ≤ p.weight := by
  have hle := le_total_of_mem (f := ClassDecl.weight) hc
  simp only [Program.weight]
  omega

theorem weight_main_le {m : MainClass} (hm : p.main = some m) : m.weight ≤ p.weight := by
  simp only [Program.weight, hm, Option.map_some, Option.getD_some]
  omega

theorem weight_method_le {c : ClassDecl} {d : MethodDecl} (hd : d ∈ c.methods) :
    d.weight ≤ c.weight := by
  have hle := le_total_of_mem (f := MethodDecl.weight) hd
  simp only [ClassDecl.weight]
  omega

theorem length_classes_le : p.classes.length ≤ p.weight := by
  have hle : p.classes.length ≤ total ClassDecl.weight p.classes := by
    induction p.classes with
    | nil => simp
    | cons c cs ih =>
      simp only [List.length_cons, total, ClassDecl.weight]
      omega
  simp only [Program.weight]
  omega

theorem length_fields_le : (p.classes.flatMap (·.fields)).length ≤ p.weight := by
  have hle : (p.classes.flatMap (·.fields)).length ≤ total ClassDecl.weight p.classes := by
    induction p.classes with
    | nil => simp
    | cons c cs ih =>
      simp only [List.flatMap_cons, List.length_append, total,
        ClassDecl.weight]
      omega
  simp only [Program.weight]
  omega

end Parts

end MiniJava
