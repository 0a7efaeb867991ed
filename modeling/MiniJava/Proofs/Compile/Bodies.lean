import MiniJava.Proofs.Compile.Program
import MiniJava.Proofs.Typing

/-!
# Code and types of bodies

A generator yields code exactly for the expressions that have a type and the statements that are
proper.

* **`hasType_of_exprCode`**, **`proper_of_stmtCode`** — what has code has a type.
* **`expression_of_hasType`**, **`statement_of_proper`** — what has a type has code.
-/

namespace MiniJava

open Gen ClassTable

section Bodies

variable {m : MainClass} {cs : List ClassDecl} {sc : Scope} {ctx : Context}

/-! ### What has code has a type -/

theorem yields_of_combine {op : BinaryOp} {type : Ty} {code : Code}
    (h : combine op = some (type, code)) : op.Yields type := by
  cases op with
  | other s => cases h
  | and =>
    obtain ⟨rfl, -⟩ := Prod.mk.inj (Option.some.inj h)
    exact .and
  | less =>
    obtain ⟨rfl, -⟩ := Prod.mk.inj (Option.some.inj h)
    exact .less
  | plus =>
    obtain ⟨rfl, -⟩ := Prod.mk.inj (Option.some.inj h)
    exact .plus
  | minus =>
    obtain ⟨rfl, -⟩ := Prod.mk.inj (Option.some.inj h)
    exact .minus
  | times =>
    obtain ⟨rfl, -⟩ := Prod.mk.inj (Option.some.inj h)
    exact .times

theorem isClassName_of_find? (hw : WellDeclared m cs) {x : Bytes} {cls : ClassInfo}
    (hfind : (tableOf m cs).find? x = some cls) (hentry : (tableOf m cs).isEntry x = false) :
    IsClassName m cs x ∧ cls.name = x := by
  obtain ⟨rfl, rfl | ⟨c, hc, k, -, -, rfl⟩⟩ := find?_cases hfind
  · simp [ClassTable.isEntry, tableOf] at hentry
  · refine ⟨⟨List.mem_map_of_mem hc, ?_⟩, rfl⟩
    rintro heq
    have hmem : c.name.name ∈ cs.map (·.name.name) := List.mem_map_of_mem hc
    exact (List.nodup_cons.mp hw.names).1 (heq ▸ hmem)

/-- A method that is called is declared, for the only method of the entry class is `main`, which
is no name. -/
theorem methodNamed_of_method? (hw : WellDeclared m cs) {x c : Bytes} (hx : IsName x)
    {cls : ClassInfo} {target : Method} (hfind : (tableOf m cs).find? c = some cls)
    (hmethod : (tableOf m cs).method? cls x = some target) :
    ∃ d, MethodNamed cs x c d ∧
      (d.params.length, d.returns.type) = (target.params.length, target.returns) := by
  obtain ⟨rfl, rfl | ⟨c, hc, k, -, -, rfl⟩⟩ := find?_cases hfind
  · obtain rfl := eq_mainName_of_method? hmethod
    exact absurd hx.2 (by decide)
  · exact (method?_view_iff hw hc k).mp (by rw [hmethod, Option.map_some])

theorem resolves_of_lookup? (ha : sc.Agrees m cs ctx) {x : Bytes} {v : Variable}
    (h : sc.lookup? x = some v) : Resolves cs ctx x v.type :=
  (ha.names x v.type).mp (by rw [h, Option.map_some])

mutual

/-- The type that the code of an expression comes with is its type. -/
theorem hasType_of_exprCode (hw : WellDeclared m cs) (ha : sc.Agrees m cs ctx) {n n' : Nat}
    {e : Expr} {type : Ty} {code : Code} :
    ExprCode sc n e type code n' → e.Written → HasType m cs ctx e type
  | .int, _ => .int
  | .true, _ => .bool
  | .false, _ => .bool
  | .this hmain, _ => .this (by simp [ha.self, hmain])
  | .var hv, _ => .var (resolves_of_lookup? ha hv)
  | .not he, h => .not (hasType_of_exprCode hw ha he h.2.2)
  | .binary hl hr hop, h => .binary (hasType_of_exprCode hw ha hl h.2.2.1)
      (hasType_of_exprCode hw ha hr h.2.2.2) (yields_of_combine hop)
  | .index ha' hi, h => .index (hasType_of_exprCode hw ha ha' h.2.1)
      (hasType_of_exprCode hw ha hi h.2.2)
  | .length ha', h => .length (hasType_of_exprCode hw ha ha' h.2)
  | .newArray he, h => .newArray (hasType_of_exprCode hw ha he h.2)
  | .newObject hfind hentry, _ => by
    rw [ha.table] at hfind hentry
    obtain ⟨hname, heq⟩ := isClassName_of_find? hw hfind hentry
    rw [heq]
    exact .newObject hname
  | .call hrecv hfind hmethod hcount hargs, h => by
    rw [ha.table] at hfind hmethod
    obtain ⟨-, hrecv', hname, hargs'⟩ := h
    obtain ⟨d, hd, hview⟩ := methodNamed_of_method? hw hname.name hfind hmethod
    obtain ⟨hparams, hreturns⟩ := Prod.mk.inj hview
    rw [← hreturns]
    exact .call (hasType_of_exprCode hw ha hrecv hrecv') hd (hcount.trans hparams.symm)
      (allTyped_of_argsCode hw ha hargs hargs')

theorem allTyped_of_argsCode (hw : WellDeclared m cs) (ha : sc.Agrees m cs ctx) {n n' : Nat}
    {es : List Expr} {code : Code} :
    ArgsCode sc n es code n' → Expr.AllWritten es → AllTyped m cs ctx es
  | .nil, _ => .nil
  | .cons hes he, h => .cons (hasType_of_exprCode hw ha he h.1) (allTyped_of_argsCode hw ha hes h.2)

end

mutual

/-- Statements that have code are proper. -/
theorem proper_of_stmtCode (hw : WellDeclared m cs) (ha : sc.Agrees m cs ctx) {n n' : Nat}
    {s : Stmt} {code : Code} : StmtCode sc n s code n' → s.Written → Proper m cs ctx s
  | .block hss, h => .block (allProper_of_stmtsCode hw ha hss h.2)
  | .cond hc hthen helse, h => .cond (hasType_of_exprCode hw ha hc h.2.1)
      (proper_of_stmtCode hw ha hthen h.2.2.1) (proper_of_stmtCode hw ha helse h.2.2.2)
  | .loop hc hb, h => .loop (hasType_of_exprCode hw ha hc h.2.1)
      (proper_of_stmtCode hw ha hb h.2.2)
  | .print he, h => .print (hasType_of_exprCode hw ha he h.2)
  | .assign he hv, h => .assign (resolves_of_lookup? ha hv) (hasType_of_exprCode hw ha he h.2.2)
  | .assignElem hv htype hi he, h =>
    .assignElem (htype ▸ resolves_of_lookup? ha hv) (hasType_of_exprCode hw ha hi h.2.2.1)
      (hasType_of_exprCode hw ha he h.2.2.2)

theorem allProper_of_stmtsCode (hw : WellDeclared m cs) (ha : sc.Agrees m cs ctx) {n n' : Nat}
    {ss : List Stmt} {code : Code} :
    StmtsCode sc n ss code n' → Stmt.AllWritten ss → AllProper m cs ctx ss
  | .nil, _ => .nil
  | .cons hs hss, h => .cons (proper_of_stmtCode hw ha hs h.1) (allProper_of_stmtsCode hw ha hss h.2)

end

end Bodies

/-! ### Steps that succeed -/

namespace Gen

/-- Whatever the state of the generator is, the step yields something with the property. -/
def Succeeds {α : Type} (x : Gen α) (P : α → Prop) : Prop :=
  ∀ g, ∃ a g', x g = (.ok a, g') ∧ P a

section Steps

variable {α β : Type} {x : Gen α} {f : α → Gen β} {P : α → Prop} {Q : β → Prop}

theorem bind_of_ok {g g' : Generator} {a : α} (h : x g = (.ok a, g')) : (x >>= f) g = f a g' := by
  show andThen x f g = f a g'
  simp only [andThen, h]

theorem Succeeds.pure {a : α} (h : P a) : Succeeds (Pure.pure a) P :=
  fun g => ⟨a, g, rfl, h⟩

theorem Succeeds.bind (hx : Succeeds x P) (hf : ∀ a, P a → Succeeds (f a) Q) :
    Succeeds (x >>= f) Q := by
  intro g
  obtain ⟨a, g₁, ha, hP⟩ := hx g
  obtain ⟨b, g₂, hb, hQ⟩ := hf a hP g₁
  exact ⟨b, g₂, by rw [bind_of_ok ha, hb], hQ⟩

theorem succeeds_newLabel : Succeeds newLabel fun _ => True :=
  fun _ => ⟨_, _, rfl, trivial⟩

theorem succeeds_report (e : GenEvent) : Succeeds (report e) fun _ => True :=
  fun _ => ⟨_, _, rfl, trivial⟩

theorem succeeds_layout (t : ClassTable) (cls : ClassInfo) (site : Expr) :
    Succeeds (layout t cls site) fun _ => True :=
  fun g => ⟨_, _, congrFun (layout_eq t cls site) g, trivial⟩

end Steps

end Gen

/-! ### What has a type has code -/

section Bodies

variable {m : MainClass} {cs : List ClassDecl} {sc : Scope} {ctx : Context}

theorem succeeds_resolve (ha : sc.Agrees m cs ctx) {x : Ident} {type : Ty}
    (h : Resolves cs ctx x.name type) : Succeeds (sc.resolve x) (·.type = type) := by
  obtain ⟨v, hv, htype⟩ := Option.map_eq_some_iff.mp ((ha.names x.name type).mpr h)
  rw [Scope.resolve, hv]
  exact .pure htype

theorem succeeds_callee (hw : WellDeclared m cs) (ha : sc.Agrees m cs ctx) {site : Expr}
    {c : Bytes} {name : Ident} {argCount : Nat} {d : MethodDecl}
    (h : MethodNamed cs name.name c d) (hcount : argCount = d.params.length) :
    Succeeds (callee sc site (.object c) name argCount) (·.returns = d.returns.type) := by
  obtain ⟨decl, hdecl, rfl⟩ := declared_of_nearest h
  obtain ⟨k, -, -, hfind⟩ := tableOf_find? hw (declOf_of_mem hw hdecl)
  obtain ⟨target, htarget, hview⟩ :=
    Option.map_eq_some_iff.mp ((method?_view_iff hw hdecl k).mpr ⟨d, h, rfl⟩)
  obtain ⟨hparams, hreturns⟩ := Prod.mk.inj hview
  rw [← ha.table] at hfind htarget
  simp only [callee, hfind, htarget]
  rw [if_pos (hcount.trans hparams.symm)]
  exact .pure hreturns

theorem combine_of_yields {op : BinaryOp} {type : Ty} (h : op.Yields type) :
    ∃ code, combine op = some (type, code) := by
  cases h with
  | and => exact ⟨_, rfl⟩
  | less => exact ⟨_, rfl⟩
  | plus => exact ⟨_, rfl⟩
  | minus => exact ⟨_, rfl⟩
  | times => exact ⟨_, rfl⟩

/-- A class that can be instantiated is found. -/
theorem find?_of_isClassName (hw : WellDeclared m cs) {x : Bytes} (h : IsClassName m cs x) :
    ∃ cls, (tableOf m cs).find? x = some cls ∧ cls.name = x ∧
      (tableOf m cs).isEntry x = false := by
  obtain ⟨hmem, hne⟩ := h
  obtain ⟨c, hc, rfl⟩ := List.mem_map.mp hmem
  obtain ⟨k, -, -, hfind⟩ := tableOf_find? hw (declOf_of_mem hw hc)
  refine ⟨_, hfind, rfl, ?_⟩
  simpa [ClassTable.isEntry, tableOf, MainClass.info] using hne.symm

mutual

/-- An expression that has a type has code. -/
theorem expression_of_hasType (hw : WellDeclared m cs) (ha : sc.Agrees m cs ctx) {e : Expr}
    {type : Ty} : HasType m cs ctx e type → Succeeds (expression sc e) (·.1 = type)
  | .int => by
    rw [expression]
    exact .pure rfl
  | .bool => by
    rw [expression]
    exact .pure rfl
  | .this hc => by
    rw [ha.self] at hc
    rw [expression]
    cases hmain : sc.isMain with
    | true =>
      rw [hmain] at hc
      cases hc
    | false =>
      rw [hmain] at hc
      obtain rfl := Option.some.inj hc
      exact .pure rfl
  | .var hx => by
    rw [expression]
    refine (succeeds_resolve ha hx).bind ?_
    rintro v rfl
    exact .pure rfl
  | .not he => by
    rw [expression]
    refine (expression_of_hasType hw ha he).bind ?_
    rintro ⟨et, code⟩ -
    exact .pure rfl
  | .binary hl hr hop => by
    obtain ⟨code, hcode⟩ := combine_of_yields hop
    rw [expression]
    refine (expression_of_hasType hw ha hl).bind ?_
    rintro ⟨lt, left⟩ -
    refine (expression_of_hasType hw ha hr).bind ?_
    rintro ⟨rt, right⟩ -
    simp only [hcode]
    exact .pure rfl
  | .index harray hi => by
    rw [expression]
    refine (expression_of_hasType hw ha harray).bind ?_
    rintro ⟨_, array⟩ rfl
    simp only [if_true]
    refine (expression_of_hasType hw ha hi).bind ?_
    rintro ⟨it, index⟩ -
    exact .pure rfl
  | .length harray => by
    rw [expression]
    refine (expression_of_hasType hw ha harray).bind ?_
    rintro ⟨_, array⟩ rfl
    simp only [if_true]
    exact .pure rfl
  | .newArray he => by
    rw [expression]
    refine (expression_of_hasType hw ha he).bind ?_
    rintro ⟨et, size⟩ -
    exact .pure rfl
  | .newObject hc => by
    obtain ⟨cls, hfind, hname, hentry⟩ := find?_of_isClassName hw hc
    rw [← ha.table] at hfind hentry
    rw [expression, hfind]
    simp only [hentry, Bool.false_eq_true, if_false]
    refine (succeeds_layout _ _ _).bind fun l _ => ?_
    refine succeeds_newLabel.bind fun top _ => ?_
    refine succeeds_newLabel.bind fun done _ => ?_
    exact .pure (congrArg Ty.object hname)
  | .call hrecv hmethod hcount hargs => by
    rw [expression]
    refine (expression_of_hasType hw ha hrecv).bind ?_
    rintro ⟨_, receiver⟩ rfl
    refine (succeeds_callee hw ha hmethod hcount).bind ?_
    intro target htarget
    refine (pushArguments_of_allTyped hw ha hargs).bind ?_
    intro arguments _
    exact .pure htarget

theorem pushArguments_of_allTyped (hw : WellDeclared m cs) (ha : sc.Agrees m cs ctx)
    {es : List Expr} : AllTyped m cs ctx es → Succeeds (pushArguments sc es) fun _ => True
  | .nil => by
    rw [pushArguments]
    exact .pure trivial
  | .cons he hes => by
    rw [pushArguments]
    refine (pushArguments_of_allTyped hw ha hes).bind fun others _ => ?_
    refine (expression_of_hasType hw ha he).bind fun _ _ => ?_
    exact .pure trivial

end

mutual

/-- A proper statement has code. -/
theorem statement_of_proper (hw : WellDeclared m cs) (ha : sc.Agrees m cs ctx) {s : Stmt} :
    Proper m cs ctx s → Succeeds (statement sc s) fun _ => True
  | .block hss => by
    rw [statement]
    exact statements_of_allProper hw ha hss
  | .cond hc hthen helse => by
    rw [statement]
    refine succeeds_newLabel.bind fun otherwise _ => ?_
    refine succeeds_newLabel.bind fun done _ => ?_
    refine (expression_of_hasType hw ha hc).bind fun _ _ => ?_
    refine (statement_of_proper hw ha hthen).bind fun thenBranch _ => ?_
    refine (statement_of_proper hw ha helse).bind fun elseBranch _ => ?_
    exact .pure trivial
  | .loop hc hb => by
    rw [statement]
    refine succeeds_newLabel.bind fun top _ => ?_
    refine succeeds_newLabel.bind fun done _ => ?_
    refine (expression_of_hasType hw ha hc).bind fun _ _ => ?_
    refine (statement_of_proper hw ha hb).bind fun body _ => ?_
    exact .pure trivial
  | .print he => by
    rw [statement]
    refine (expression_of_hasType hw ha he).bind fun _ _ => ?_
    exact .pure trivial
  | .assign hx he => by
    rw [statement]
    refine (expression_of_hasType hw ha he).bind fun _ _ => ?_
    refine (succeeds_resolve ha hx).bind fun v _ => ?_
    exact .pure trivial
  | .assignElem hx hi he => by
    rw [statement]
    refine (succeeds_resolve ha hx).bind fun v htype => ?_
    rw [if_pos htype]
    refine (expression_of_hasType hw ha hi).bind fun _ _ => ?_
    refine (expression_of_hasType hw ha he).bind fun _ _ => ?_
    exact .pure trivial

theorem statements_of_allProper (hw : WellDeclared m cs) (ha : sc.Agrees m cs ctx)
    {ss : List Stmt} : AllProper m cs ctx ss → Succeeds (statements sc ss) fun _ => True
  | .nil => by
    rw [statements]
    exact .pure trivial
  | .cons hs hss => by
    rw [statements]
    refine (statement_of_proper hw ha hs).bind fun first _ => ?_
    refine (statements_of_allProper hw ha hss).bind fun rest _ => ?_
    exact .pure trivial

end

end Bodies

end MiniJava
