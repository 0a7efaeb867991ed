import MiniJava.Compile.Program

/-!
# Translation

Which code stands for which construct, said without a generator: a relation between a construct,
the number of the next free label before and after, and the code.

* **`ExprCode`**, **`StmtCode`** — the code of expressions and statements.
* **`MethodCode`**, **`ClassesCode`**, **`MainCode`** — the code of declarations.
* **`exprCode_of_expression`**, **`stmtCode_of_statement`**, **`program_spec`** — what a generator
  yields is such code.
-/

namespace MiniJava

open Instr Reg Code

/-! ### The relation -/

mutual

/-- The code of an expression and its type; the next free label is `n` before and `n'` after. -/
inductive ExprCode (sc : Scope) : (n : Nat) → Expr → Ty → Code → (n' : Nat) → Prop
  | int {n : Nat} {t : Token} {v : Int} : ExprCode sc n (.int t v) .int [one (li a0 v)] n
  | true {n : Nat} {t : Token} :
      ExprCode sc n (.bool t true) .boolean [one (li a0 0), one (withRegs .nor a0 a0 a0)] n
  | false {n : Nat} {t : Token} : ExprCode sc n (.bool t false) .boolean [one (li a0 0)] n
  | this {n : Nat} {t : Token} : sc.isMain = .false →
      ExprCode sc n (.this t) (.object sc.cls.name)
        [one (lw a0 (thisOffset sc.method.params.length) fp)] n
  | var {n : Nat} {x : Ident} {v : Variable} : sc.lookup? x.name = some v →
      ExprCode sc n (.var x) v.type (sc.load v) n
  | not {n n' : Nat} {t : Token} {e : Expr} {type : Ty} {code : Code} :
      ExprCode sc n e type code n' →
      ExprCode sc n (.unary t .not e) .boolean (code ++ [one (withRegs .nor a0 a0 a0)]) n'
  | binary {n n' n'' : Nat} {t : Token} {op : BinaryOp} {l r : Expr} {lt rt type : Ty}
      {left right code : Code} :
      ExprCode sc n l lt left n' → ExprCode sc n' r rt right n'' →
      Gen.combine op = some (type, code) →
      ExprCode sc n (.binary t op l r) type
        (left ++ push a0 ++ right ++ [one (lw t1 4 sp)] ++ code ++ pop 1) n''
  | index {n n' n'' : Nat} {t : Token} {a i : Expr} {type : Ty} {array index : Code} :
      ExprCode sc n a .intArray array n' → ExprCode sc n' i type index n'' →
      ExprCode sc n (.index t a i) .int (array ++ push a0 ++ index ++ Gen.readElement) n''
  | length {n n' : Nat} {t : Token} {a : Expr} {array : Code} :
      ExprCode sc n a .intArray array n' →
      ExprCode sc n (.length t a) .int (array ++ [one (lw a0 0 a0)]) n'
  | newArray {n n' : Nat} {t : Token} {e : Expr} {type : Ty} {size : Code} :
      ExprCode sc n e type size n' →
      ExprCode sc n (.newArray t e) .intArray
        (size ++ [one (jump .jal Support.allocArray), one (move a0 v0)]) n'
  | newObject {n : Nat} {t : Token} {c : Ident} {cls : ClassInfo} :
      sc.table.find? c.name = some cls → sc.table.isEntry c.name = .false →
      ExprCode sc n (.newObject t c) (.object cls.name)
        (Gen.makeObject (sc.table.layout cls) (Gen.labelText n) (Gen.labelText (n + 1))) (n + 2)
  | call {n n' n'' : Nat} {t : Token} {recv : Expr} {m : Ident} {args : List Expr} {c : Bytes}
      {cls : ClassInfo} {target : Method} {receiver arguments : Code} :
      ExprCode sc n recv (.object c) receiver n' → sc.table.find? c = some cls →
      sc.table.method? cls m.name = some target → args.length = target.params.length →
      ArgsCode sc n' args arguments n'' →
      ExprCode sc n (.call t recv m args) target.returns
        (receiver ++ nullCheck a0 ++ push fp ++ push a0 ++ arguments ++
          [one (jump .jal (entryLabel target.owner target.name)), one (move a0 v0)]) n''

/-- The code that puts arguments on the stack, the last one first. -/
inductive ArgsCode (sc : Scope) : (n : Nat) → List Expr → Code → (n' : Nat) → Prop
  | nil {n : Nat} : ArgsCode sc n [] [] n
  | cons {n n' n'' : Nat} {e : Expr} {es : List Expr} {type : Ty} {others code : Code} :
      ArgsCode sc n es others n' → ExprCode sc n' e type code n'' →
      ArgsCode sc n (e :: es) (others ++ code ++ push a0) n''

end

mutual

/-- The code of a statement; the next free label is `n` before and `n'` after. -/
inductive StmtCode (sc : Scope) : (n : Nat) → Stmt → Code → (n' : Nat) → Prop
  | block {n n' : Nat} {t : Token} {ss : List Stmt} {code : Code} :
      StmtsCode sc n ss code n' → StmtCode sc n (.block t ss) code n'
  | cond {n n₁ n₂ n₃ : Nat} {t : Token} {c : Expr} {a b : Stmt} {type : Ty}
      {test thenBranch elseBranch : Code} :
      ExprCode sc (n + 2) c type test n₁ → StmtCode sc n₁ a thenBranch n₂ →
      StmtCode sc n₂ b elseBranch n₃ →
      StmtCode sc n (.cond t c a b)
        (test ++ [one (branch .beq a0 Reg.zero (Gen.labelText n))] ++ thenBranch ++
          [one (jump .j (Gen.labelText (n + 1))), .label (Gen.labelText n)] ++ elseBranch ++
          [.label (Gen.labelText (n + 1))]) n₃
  | loop {n n₁ n₂ : Nat} {t : Token} {c : Expr} {b : Stmt} {type : Ty} {test body : Code} :
      ExprCode sc (n + 2) c type test n₁ → StmtCode sc n₁ b body n₂ →
      StmtCode sc n (.loop t c b)
        (.label (Gen.labelText n) :: test ++
          [one (branch .beq a0 Reg.zero (Gen.labelText (n + 1)))] ++ body ++
          [one (jump .j (Gen.labelText n)), .label (Gen.labelText (n + 1))]) n₂
  | print {n n' : Nat} {t : Token} {e : Expr} {type : Ty} {code : Code} :
      ExprCode sc n e type code n' →
      StmtCode sc n (.print t e) (code ++ [one (jump .jal Support.printInt)]) n'
  | assign {n n' : Nat} {t : Token} {x : Ident} {e : Expr} {type : Ty} {code : Code}
      {v : Variable} :
      ExprCode sc n e type code n' → sc.lookup? x.name = some v →
      StmtCode sc n (.assign t x e)
        (code ++ (if v.type.isReference then nullCheck a0 else []) ++ sc.store v) n'
  | assignElem {n n' n'' : Nat} {t : Token} {x : Ident} {i e : Expr} {it et : Ty}
      {index value : Code} {v : Variable} :
      sc.lookup? x.name = some v → v.type = .intArray → ExprCode sc n i it index n' →
      ExprCode sc n' e et value n'' →
      StmtCode sc n (.assignElem t x i e)
        (index ++ push a0 ++ value ++ push a0 ++ sc.load v ++ Gen.writeElement) n''

/-- The code of statements in order. -/
inductive StmtsCode (sc : Scope) : (n : Nat) → List Stmt → Code → (n' : Nat) → Prop
  | nil {n : Nat} : StmtsCode sc n [] [] n
  | cons {n n' n'' : Nat} {s : Stmt} {ss : List Stmt} {first rest : Code} :
      StmtCode sc n s first n' → StmtsCode sc n' ss rest n'' →
      StmtsCode sc n (s :: ss) (first ++ rest) n''

end

/-- The code of a method of a class. -/
inductive MethodCode (t : ClassTable) (cls : ClassInfo) :
    (n : Nat) → MethodDecl → Code → (n' : Nat) → Prop
  | mk {n n' n'' : Nat} {d : MethodDecl} {m : Method} {type : Ty} {body result : Code} :
      cls.ownMethod? d.name.name = some m →
      StmtsCode ⟨t, cls, m, false⟩ n d.body body n' →
      ExprCode ⟨t, cls, m, false⟩ n' d.result type result n'' →
      MethodCode t cls n d
        ([.remark 0 (cls.name ++ "." ++ m.name), .label (entryLabel cls.name m.name)] ++
          Gen.prologue m ++ body ++ result ++ Gen.epilogue m) n''

/-- The code of methods of a class. -/
inductive MethodsCode (t : ClassTable) (cls : ClassInfo) :
    (n : Nat) → List MethodDecl → Code → (n' : Nat) → Prop
  | nil {n : Nat} : MethodsCode t cls n [] [] n
  | cons {n n' n'' : Nat} {d : MethodDecl} {ds : List MethodDecl} {first rest : Code} :
      MethodCode t cls n d first n' → MethodsCode t cls n' ds rest n'' →
      MethodsCode t cls n (d :: ds) (first ++ rest) n''

/-- The code of classes. -/
inductive ClassesCode (t : ClassTable) : (n : Nat) → List ClassDecl → Code → (n' : Nat) → Prop
  | nil {n : Nat} : ClassesCode t n [] [] n
  | cons {n n' n'' : Nat} {c : ClassDecl} {cs : List ClassDecl} {cls : ClassInfo}
      {first rest : Code} :
      t.find? c.name.name = some cls → MethodsCode t cls n c.methods first n' →
      ClassesCode t n' cs rest n'' → ClassesCode t n (c :: cs) (first ++ rest) n''

/-- The code of `main`. -/
inductive MainCode (t : ClassTable) (entry : ClassInfo) :
    (n : Nat) → MainClass → Code → (n' : Nat) → Prop
  | mk {n n' : Nat} {m : MainClass} {info : Method} {body : Code} :
      entry.ownMethod? ClassTable.mainName = some info →
      StmtsCode ⟨t, entry, info, true⟩ n m.body body n' →
      MainCode t entry n m
        ([.label "main", one (Instr.move fp sp),
          one (withImm .addiu sp sp (-4 * (info.locals.length + 1)))] ++ body ++
          [.remark 4 "exit"] ++ Support.exit ++ [.blank]) n'

/-! ### Steps of a generator -/

namespace Gen

theorem bind_eq_ok {α β : Type} {x : Gen α} {f : α → Gen β} {g g' : Generator} {b : β}
    (h : (x >>= f) g = (.ok b, g')) : ∃ a g₁, x g = (.ok a, g₁) ∧ f a g₁ = (.ok b, g') := by
  change andThen x f g = _ at h
  unfold andThen at h
  split at h
  · rename_i a g₁ hx
    exact ⟨a, g₁, hx, h⟩
  · cases h

theorem pure_eq_ok {α : Type} {a b : α} {g g' : Generator}
    (h : (pure a : Gen α) g = (.ok b, g')) : a = b ∧ g = g' := by
  obtain ⟨hok, rfl⟩ := Prod.mk.inj h
  exact ⟨Except.ok.inj hok, rfl⟩

theorem pair_eq_ok {α β : Type} {a a' : α} {b b' : β} {g g' : Generator}
    (h : (pure (a, b) : Gen (α × β)) g = (.ok (a', b'), g')) : a = a' ∧ b = b' ∧ g = g' := by
  obtain ⟨hpair, rfl⟩ := pure_eq_ok h
  obtain ⟨rfl, rfl⟩ := Prod.mk.inj hpair
  exact ⟨rfl, rfl, rfl⟩

theorem failAt_ne_ok {α : Type} {cause : GenErrorCause} {site : Expr} {g g' : Generator} {a : α}
    (h : failAt cause site g = (.ok a, g')) : False := by
  cases (Prod.mk.inj h).1

theorem newLabel_eq_ok {g g' : Generator} {l : Bytes} (h : newLabel g = (.ok l, g')) :
    l = labelText g.nextLabel ∧ g'.nextLabel = g.nextLabel + 1 := by
  obtain ⟨hl, rfl⟩ := Prod.mk.inj h
  exact ⟨(Except.ok.inj hl).symm, rfl⟩

/-- Two fresh labels are the next two. -/
theorem two_labels {g g₁ g₂ : Generator} {l₁ l₂ : Bytes} (h₁ : newLabel g = (.ok l₁, g₁))
    (h₂ : newLabel g₁ = (.ok l₂, g₂)) :
    l₁ = labelText g.nextLabel ∧ l₂ = labelText (g.nextLabel + 1) ∧
      g₂.nextLabel = g.nextLabel + 2 := by
  obtain ⟨rfl, hnext₁⟩ := newLabel_eq_ok h₁
  obtain ⟨rfl, hnext₂⟩ := newLabel_eq_ok h₂
  exact ⟨rfl, by rw [hnext₁], by rw [hnext₂, hnext₁]⟩

theorem report_eq_ok {e : GenEvent} {g g' : Generator} {u : Unit} (h : report e g = (.ok u, g')) :
    g'.nextLabel = g.nextLabel := by
  obtain ⟨-, rfl⟩ := Prod.mk.inj h
  rfl

/-- Every object has room for its header, so that a layout is always found. -/
theorem layout_eq (t : ClassTable) (cls : ClassInfo) (site : Expr) :
    layout t cls site = pure (t.layout cls) := by
  have hroom : ¬ (t.layout cls).bytes < 4 * headerWords := by
    rw [Layout.bytes]
    omega
  simp only [layout, hroom, if_false]

theorem layout_eq_ok {t : ClassTable} {cls : ClassInfo} {site : Expr} {g g' : Generator}
    {l : Layout} (h : layout t cls site g = (.ok l, g')) : t.layout cls = l ∧ g = g' := by
  rw [layout_eq] at h
  exact pure_eq_ok h

theorem resolve_eq_ok {sc : Scope} {x : Ident} {g g' : Generator} {v : Variable}
    (h : sc.resolve x g = (.ok v, g')) : sc.lookup? x.name = some v ∧ g = g' := by
  unfold Scope.resolve at h
  cases hw : sc.lookup? x.name with
  | none =>
    rw [hw] at h
    exact (failAt_ne_ok h).elim
  | some w =>
    rw [hw] at h
    obtain ⟨rfl, rfl⟩ := pure_eq_ok h
    exact ⟨rfl, rfl⟩

theorem callee_eq_ok {sc : Scope} {site : Expr} {recv : Ty} {method : Ident} {argCount : Nat}
    {g g' : Generator} {target : Method}
    (h : callee sc site recv method argCount g = (.ok target, g')) :
    ∃ c cls, recv = .object c ∧ sc.table.find? c = some cls ∧
      sc.table.method? cls method.name = some target ∧ argCount = target.params.length ∧ g = g' := by
  unfold callee at h
  cases recv with
  | object c =>
    simp only at h
    cases hcls : sc.table.find? c with
    | none =>
      rw [hcls] at h
      exact (failAt_ne_ok h).elim
    | some cls =>
      rw [hcls] at h
      simp only at h
      cases hm : sc.table.method? cls method.name with
      | none =>
        rw [hm] at h
        exact (failAt_ne_ok h).elim
      | some m =>
        rw [hm] at h
        simp only at h
        by_cases hcount : argCount = m.params.length
        · rw [if_pos hcount] at h
          obtain ⟨rfl, rfl⟩ := pure_eq_ok h
          exact ⟨c, cls, rfl, hcls, hm, hcount, rfl⟩
        · rw [if_neg hcount] at h
          exact (failAt_ne_ok h).elim
  | int => exact (failAt_ne_ok h).elim
  | boolean => exact (failAt_ne_ok h).elim
  | intArray => exact (failAt_ne_ok h).elim

theorem find?_own_name {t : ClassTable} {name : Bytes} {cls : ClassInfo}
    (h : t.find? name = some cls) : t.find? cls.name = some cls := by
  have hname : cls.name = name := by
    have hfound := List.find?_some h
    exact eq_of_beq hfound
  rw [hname]
  exact h

/-! ### What a generator yields for expressions -/

/-- What a generator yields for an expression is code of that expression. -/
def Yields (sc : Scope) (e : Expr) : Prop :=
  ∀ {g g' : Generator} {type : Ty} {code : Code}, expression sc e g = (.ok (type, code), g') →
    ExprCode sc g.nextLabel e type code g'.nextLabel

section Expressions

variable {sc : Scope} {t : Token} {e l r a i recv : Expr} {x c m : Ident} {args : List Expr}

theorem yields_bool (b : Bool) : Yields sc (.bool t b) := by
  intro g g' type code h
  rw [expression] at h
  obtain ⟨rfl, rfl, rfl⟩ := pair_eq_ok h
  cases b with
  | true => exact .true
  | false => exact .false

theorem yields_this : Yields sc (.this t) := by
  intro g g' type code h
  rw [expression] at h
  cases hmain : sc.isMain with
  | true =>
    rw [hmain] at h
    exact (failAt_ne_ok h).elim
  | false =>
    rw [hmain] at h
    obtain ⟨rfl, rfl, rfl⟩ := pair_eq_ok h
    exact .this hmain

theorem yields_var : Yields sc (.var x) := by
  intro g g' type code h
  rw [expression] at h
  obtain ⟨v, g₁, hv, h⟩ := bind_eq_ok h
  obtain ⟨hlookup, rfl⟩ := resolve_eq_ok hv
  obtain ⟨rfl, rfl, rfl⟩ := pair_eq_ok h
  exact .var hlookup

theorem yields_not (he : Yields sc e) : Yields sc (.unary t .not e) := by
  intro g g' type code h
  rw [expression] at h
  obtain ⟨⟨et, ec⟩, g₁, hrun, h⟩ := bind_eq_ok h
  obtain ⟨rfl, rfl, rfl⟩ := pair_eq_ok h
  exact .not (he hrun)

theorem yields_binary {op : BinaryOp} (hl : Yields sc l) (hr : Yields sc r) :
    Yields sc (.binary t op l r) := by
  intro g g' type code h
  rw [expression] at h
  obtain ⟨⟨lt, left⟩, g₁, hleft, h⟩ := bind_eq_ok h
  obtain ⟨⟨rt, right⟩, g₂, hright, h⟩ := bind_eq_ok h
  simp only at h
  cases hop : combine op with
  | none =>
    rw [hop] at h
    exact (failAt_ne_ok h).elim
  | some both =>
    rw [hop] at h
    obtain ⟨rfl, rfl, rfl⟩ := pair_eq_ok h
    exact .binary (hl hleft) (hr hright) hop

theorem yields_index (ha : Yields sc a) (hi : Yields sc i) : Yields sc (.index t a i) := by
  intro g g' type code h
  rw [expression] at h
  obtain ⟨⟨arrayType, array⟩, g₁, harray, h⟩ := bind_eq_ok h
  simp only at h
  by_cases htype : arrayType = .intArray
  · rw [if_pos htype] at h
    subst htype
    obtain ⟨⟨it, index⟩, g₂, hindex, h⟩ := bind_eq_ok h
    obtain ⟨rfl, rfl, rfl⟩ := pair_eq_ok h
    exact .index (ha harray) (hi hindex)
  · rw [if_neg htype] at h
    exact (failAt_ne_ok h).elim

theorem yields_length (ha : Yields sc a) : Yields sc (.length t a) := by
  intro g g' type code h
  rw [expression] at h
  obtain ⟨⟨arrayType, array⟩, g₁, harray, h⟩ := bind_eq_ok h
  simp only at h
  by_cases htype : arrayType = .intArray
  · rw [if_pos htype] at h
    subst htype
    obtain ⟨rfl, rfl, rfl⟩ := pair_eq_ok h
    exact .length (ha harray)
  · rw [if_neg htype] at h
    exact (failAt_ne_ok h).elim

theorem yields_newArray (he : Yields sc e) : Yields sc (.newArray t e) := by
  intro g g' type code h
  rw [expression] at h
  obtain ⟨⟨et, size⟩, g₁, hsize, h⟩ := bind_eq_ok h
  obtain ⟨rfl, rfl, rfl⟩ := pair_eq_ok h
  exact .newArray (he hsize)

theorem yields_newObject : Yields sc (.newObject t c) := by
  intro g g' type code h
  rw [expression] at h
  cases hcls : sc.table.find? c.name with
  | none =>
    rw [hcls] at h
    exact (failAt_ne_ok h).elim
  | some cls =>
    rw [hcls] at h
    simp only at h
    cases hentry : sc.table.isEntry c.name with
    | true =>
      rw [hentry] at h
      exact (failAt_ne_ok h).elim
    | false =>
      rw [hentry] at h
      obtain ⟨l, g₁, hl, h⟩ := bind_eq_ok h
      obtain ⟨rfl, rfl⟩ := layout_eq_ok hl
      obtain ⟨top, g₂, htop, h⟩ := bind_eq_ok h
      obtain ⟨done, g₃, hdone, h⟩ := bind_eq_ok h
      obtain ⟨rfl, rfl, hnext⟩ := two_labels htop hdone
      obtain ⟨rfl, rfl, rfl⟩ := pair_eq_ok h
      rw [hnext]
      exact .newObject hcls hentry

theorem yields_call (hrecv : Yields sc recv)
    (hargs : ∀ {g g' : Generator} {code : Code}, pushArguments sc args g = (.ok code, g') →
      ArgsCode sc g.nextLabel args code g'.nextLabel) :
    Yields sc (.call t recv m args) := by
  intro g g' type code h
  rw [expression] at h
  obtain ⟨⟨rt, receiver⟩, g₁, hreceiver, h⟩ := bind_eq_ok h
  obtain ⟨target, g₂, htarget, h⟩ := bind_eq_ok h
  obtain ⟨c, cls, rfl, hcls, hmethod, hcount, rfl⟩ := callee_eq_ok htarget
  obtain ⟨arguments, g₃, harguments, h⟩ := bind_eq_ok h
  obtain ⟨rfl, rfl, rfl⟩ := pair_eq_ok h
  exact .call (hrecv hreceiver) hcls hmethod hcount (hargs harguments)

end Expressions

mutual

/-- The code that a generator yields for an expression is code of that expression. -/
theorem exprCode_of_expression {sc : Scope} (e : Expr) {g g' : Generator} {type : Ty} {code : Code}
    (h : expression sc e g = (.ok (type, code), g')) :
    ExprCode sc g.nextLabel e type code g'.nextLabel := by
  match e with
  | .int t v =>
    rw [expression] at h
    obtain ⟨rfl, rfl, rfl⟩ := pair_eq_ok h
    exact .int
  | .bool t b => exact yields_bool b h
  | .this t => exact yields_this h
  | .var x => exact yields_var h
  | .unary t (.other s) e =>
    rw [expression] at h
    exact (failAt_ne_ok h).elim
  | .unary t .not e => exact yields_not (exprCode_of_expression e) h
  | .binary t op l r => exact yields_binary (exprCode_of_expression l) (exprCode_of_expression r) h
  | .index t a i => exact yields_index (exprCode_of_expression a) (exprCode_of_expression i) h
  | .length t a => exact yields_length (exprCode_of_expression a) h
  | .newArray t e => exact yields_newArray (exprCode_of_expression e) h
  | .newObject t c => exact yields_newObject h
  | .call t recv m args =>
    exact yields_call (exprCode_of_expression recv) (argsCode_of_pushArguments args) h
  | .missing =>
    rw [expression] at h
    exact (failAt_ne_ok h).elim

theorem argsCode_of_pushArguments {sc : Scope} (es : List Expr) {g g' : Generator} {code : Code}
    (h : pushArguments sc es g = (.ok code, g')) :
    ArgsCode sc g.nextLabel es code g'.nextLabel := by
  match es with
  | [] =>
    rw [pushArguments] at h
    obtain ⟨rfl, rfl⟩ := pure_eq_ok h
    exact .nil
  | e :: es =>
    rw [pushArguments] at h
    obtain ⟨others, g₁, hes, h⟩ := bind_eq_ok h
    obtain ⟨⟨et, ec⟩, g₂, he, h⟩ := bind_eq_ok h
    obtain ⟨rfl, rfl⟩ := pure_eq_ok h
    exact .cons (argsCode_of_pushArguments es hes) (exprCode_of_expression e he)

end

/-! ### What a generator yields for statements -/

mutual

/-- The code that a generator yields for a statement is code of that statement. -/
theorem stmtCode_of_statement {sc : Scope} (s : Stmt) {g g' : Generator} {code : Code}
    (h : statement sc s g = (.ok code, g')) : StmtCode sc g.nextLabel s code g'.nextLabel := by
  match s with
  | .block t ss =>
    rw [statement] at h
    exact .block (stmtsCode_of_statements ss h)
  | .cond t c a b =>
    rw [statement] at h
    obtain ⟨otherwise, g₁, h₁, h⟩ := bind_eq_ok h
    obtain ⟨done, g₂, h₂, h⟩ := bind_eq_ok h
    obtain ⟨rfl, rfl, hnext⟩ := two_labels h₁ h₂
    obtain ⟨⟨ct, test⟩, g₃, hc, h⟩ := bind_eq_ok h
    obtain ⟨thenBranch, g₄, ha, h⟩ := bind_eq_ok h
    obtain ⟨elseBranch, g₅, hb, h⟩ := bind_eq_ok h
    obtain ⟨rfl, rfl⟩ := pure_eq_ok h
    have htest := exprCode_of_expression c hc
    rw [hnext] at htest
    exact .cond htest (stmtCode_of_statement a ha) (stmtCode_of_statement b hb)
  | .loop t c b =>
    rw [statement] at h
    obtain ⟨top, g₁, h₁, h⟩ := bind_eq_ok h
    obtain ⟨done, g₂, h₂, h⟩ := bind_eq_ok h
    obtain ⟨rfl, rfl, hnext⟩ := two_labels h₁ h₂
    obtain ⟨⟨ct, test⟩, g₃, hc, h⟩ := bind_eq_ok h
    obtain ⟨body, g₄, hb, h⟩ := bind_eq_ok h
    obtain ⟨rfl, rfl⟩ := pure_eq_ok h
    have htest := exprCode_of_expression c hc
    rw [hnext] at htest
    exact .loop htest (stmtCode_of_statement b hb)
  | .print t e =>
    rw [statement] at h
    obtain ⟨⟨et, ec⟩, g₁, he, h⟩ := bind_eq_ok h
    obtain ⟨rfl, rfl⟩ := pure_eq_ok h
    exact .print (exprCode_of_expression e he)
  | .assign t x e =>
    rw [statement] at h
    obtain ⟨⟨et, ec⟩, g₁, he, h⟩ := bind_eq_ok h
    obtain ⟨v, g₂, hv, h⟩ := bind_eq_ok h
    obtain ⟨hlookup, rfl⟩ := resolve_eq_ok hv
    obtain ⟨rfl, rfl⟩ := pure_eq_ok h
    exact .assign (exprCode_of_expression e he) hlookup
  | .assignElem t x i e =>
    rw [statement] at h
    obtain ⟨v, g₁, hv, h⟩ := bind_eq_ok h
    obtain ⟨hlookup, rfl⟩ := resolve_eq_ok hv
    by_cases htype : v.type = .intArray
    · rw [if_pos htype] at h
      obtain ⟨⟨it, index⟩, g₂, hi, h⟩ := bind_eq_ok h
      obtain ⟨⟨et, value⟩, g₃, he, h⟩ := bind_eq_ok h
      obtain ⟨rfl, rfl⟩ := pure_eq_ok h
      exact .assignElem hlookup htype (exprCode_of_expression i hi) (exprCode_of_expression e he)
    · rw [if_neg htype] at h
      exact (failAt_ne_ok h).elim
  | .missing =>
    rw [statement] at h
    exact (failAt_ne_ok h).elim

theorem stmtsCode_of_statements {sc : Scope} (ss : List Stmt) {g g' : Generator} {code : Code}
    (h : statements sc ss g = (.ok code, g')) :
    StmtsCode sc g.nextLabel ss code g'.nextLabel := by
  match ss with
  | [] =>
    rw [statements] at h
    obtain ⟨rfl, rfl⟩ := pure_eq_ok h
    exact .nil
  | s :: ss =>
    rw [statements] at h
    obtain ⟨first, g₁, hs, h⟩ := bind_eq_ok h
    obtain ⟨rest, g₂, hss, h⟩ := bind_eq_ok h
    obtain ⟨rfl, rfl⟩ := pure_eq_ok h
    exact .cons (stmtCode_of_statement s hs) (stmtsCode_of_statements ss hss)

end

/-! ### Declarations and programs -/

theorem methodCode_of_method {t : ClassTable} {cls : ClassInfo} {d : MethodDecl} {g g' : Generator}
    {code : Code} (h : method t cls d g = (.ok code, g')) :
    MethodCode t cls g.nextLabel d code g'.nextLabel := by
  unfold method at h
  cases hm : cls.ownMethod? d.name.name with
  | none =>
    rw [hm] at h
    exact (failAt_ne_ok h).elim
  | some m =>
    rw [hm] at h
    obtain ⟨u, g₁, hreport, h⟩ := bind_eq_ok h
    obtain ⟨body, g₂, hss, h⟩ := bind_eq_ok h
    obtain ⟨⟨rt, result⟩, g₃, he, h⟩ := bind_eq_ok h
    obtain ⟨rfl, rfl⟩ := pure_eq_ok h
    have hbody := stmtsCode_of_statements d.body hss
    rw [report_eq_ok hreport] at hbody
    exact .mk hm hbody (exprCode_of_expression d.result he)

/-- The code of a method begins with its label. -/
theorem method_front {t : ClassTable} {cls : ClassInfo} {d : MethodDecl} {g g' : Generator}
    {code : Code} (h : method t cls d g = (.ok code, g')) :
    ∃ m remark rest, cls.ownMethod? d.name.name = some m ∧
      code = .remark 0 remark :: .label (entryLabel cls.name m.name) :: rest := by
  unfold method at h
  cases hm : cls.ownMethod? d.name.name with
  | none =>
    rw [hm] at h
    exact (failAt_ne_ok h).elim
  | some m =>
    rw [hm] at h
    obtain ⟨u, g₁, -, h⟩ := bind_eq_ok h
    obtain ⟨body, g₂, -, h⟩ := bind_eq_ok h
    obtain ⟨⟨rt, result⟩, g₃, -, h⟩ := bind_eq_ok h
    obtain ⟨rfl, -⟩ := pure_eq_ok h
    exact ⟨m, _, _, rfl, rfl⟩

theorem methodsCode_of_methods {t : ClassTable} {cls : ClassInfo} (ds : List MethodDecl)
    {g g' : Generator} {code : Code} (h : methods t cls ds g = (.ok code, g')) :
    MethodsCode t cls g.nextLabel ds code g'.nextLabel := by
  induction ds generalizing g code with
  | nil =>
    rw [methods] at h
    obtain ⟨rfl, rfl⟩ := pure_eq_ok h
    exact .nil
  | cons d ds ih =>
    rw [methods] at h
    obtain ⟨first, g₁, hd, h⟩ := bind_eq_ok h
    obtain ⟨rest, g₂, hds, h⟩ := bind_eq_ok h
    obtain ⟨rfl, rfl⟩ := pure_eq_ok h
    exact .cons (methodCode_of_method hd) (ih hds)

theorem classesCode_of_classes {t : ClassTable} (cs : List ClassDecl) {g g' : Generator}
    {code : Code} (h : classes t cs g = (.ok code, g')) :
    ClassesCode t g.nextLabel cs code g'.nextLabel := by
  induction cs generalizing g code with
  | nil =>
    rw [classes] at h
    obtain ⟨rfl, rfl⟩ := pure_eq_ok h
    exact .nil
  | cons c cs ih =>
    rw [classes] at h
    cases hcls : t.find? c.name.name with
    | none =>
      rw [hcls] at h
      exact (failAt_ne_ok h).elim
    | some cls =>
      rw [hcls] at h
      obtain ⟨first, g₁, hms, h⟩ := bind_eq_ok h
      obtain ⟨rest, g₂, hcs, h⟩ := bind_eq_ok h
      obtain ⟨rfl, rfl⟩ := pure_eq_ok h
      exact .cons hcls (methodsCode_of_methods c.methods hms) (ih hcs)

theorem mainCode_of_main {t : ClassTable} {entry : ClassInfo} {m : MainClass} {g g' : Generator}
    {code : Code} (h : main t entry m g = (.ok code, g')) :
    MainCode t entry g.nextLabel m code g'.nextLabel := by
  unfold main at h
  cases hinfo : entry.ownMethod? ClassTable.mainName with
  | none =>
    rw [hinfo] at h
    exact (failAt_ne_ok h).elim
  | some info =>
    rw [hinfo] at h
    obtain ⟨body, g₁, hss, h⟩ := bind_eq_ok h
    obtain ⟨rfl, rfl⟩ := pure_eq_ok h
    exact .mk hinfo (stmtsCode_of_statements m.body hss)

/-- The label of every method. -/
def entryLabels (p : Program) : List Bytes :=
  (methodNames p).map fun m => entryLabel m.1 m.2.name

/-- Labels pass only if no two are equal and none was seen before. -/
theorem checkLabels_eq_ok (seen : List (Bytes × Bytes)) (ms : List (Bytes × Ident))
    {g g' : Generator} (h : checkLabels seen ms g = (.ok (), g')) :
    (ms.map fun m => entryLabel m.1 m.2.name).Nodup ∧
      (∀ m ∈ ms, seen.lookup (entryLabel m.1 m.2.name) = none) ∧ g = g' := by
  induction ms generalizing seen with
  | nil =>
    rw [checkLabels] at h
    refine ⟨List.nodup_nil, ?_, (pure_eq_ok h).2⟩
    intro m hm
    cases hm
  | cons m ms ih =>
    obtain ⟨className, m⟩ := m
    rw [checkLabels] at h
    cases hseen : seen.lookup (entryLabel className m.name) with
    | some first =>
      simp only [hseen] at h
      exact (failAt_ne_ok h).elim
    | none =>
      simp only [hseen] at h
      obtain ⟨hnodup, hunseen, rfl⟩ := ih _ h
      refine ⟨List.nodup_cons.mpr ⟨?_, hnodup⟩, ?_, rfl⟩
      · intro hmem
        obtain ⟨m', hm', heq⟩ := List.mem_map.mp hmem
        have hnone := hunseen m' hm'
        rw [List.lookup_eq_none_iff] at hnone
        have hne := hnone _ (List.mem_cons_self ..)
        rw [heq, bne_self_eq_false] at hne
        cases hne
      · intro m' hm'
        rcases List.mem_cons.mp hm' with rfl | hm'
        · exact hseen
        · have hnone := hunseen m' hm'
          rw [List.lookup_eq_none_iff] at hnone ⊢
          intro entry hentry
          exact hnone entry (List.mem_cons_of_mem _ hentry)

/-- The code of a program: it starts with `main`, and all methods have labels of their own. -/
theorem program_spec {p : Program} {t : ClassTable} {g g' : Generator} {code : Code}
    (h : program p t g.reset = (.ok code, g')) :
    ∃ m entry start others g₁, p.main = some m ∧ t.entry = some entry ∧ (entryLabels p).Nodup ∧
      MainCode t entry 0 m start g₁.nextLabel ∧ classes t p.classes g₁ = (.ok others, g') ∧
      ClassesCode t g₁.nextLabel p.classes others g'.nextLabel ∧
      code = Support.header ++ (start ++ others ++ Support.routines) := by
  unfold program at h
  cases hmain : p.main with
  | none =>
    rw [hmain] at h
    exact (failAt_ne_ok h).elim
  | some m =>
    cases hentry : t.entry with
    | none =>
      rw [hmain, hentry] at h
      exact (failAt_ne_ok h).elim
    | some entry =>
      rw [hmain, hentry] at h
      obtain ⟨u, g₁, hlabels, h⟩ := bind_eq_ok h
      obtain ⟨hnodup, -, rfl⟩ := checkLabels_eq_ok _ _ hlabels
      obtain ⟨start, g₂, hstart, h⟩ := bind_eq_ok h
      have hmaincode := mainCode_of_main hstart
      obtain ⟨others, g₃, hothers, h⟩ := bind_eq_ok h
      have hclasses := classesCode_of_classes p.classes hothers
      obtain ⟨rfl, rfl⟩ := pure_eq_ok h
      refine ⟨m, entry, start, others, g₂, rfl, rfl, hnodup, hmaincode, hothers, hclasses, ?_⟩
      simp only [List.append_assoc]

/-- The code of methods holds the code of each of them. -/
theorem method_of_methods {t : ClassTable} {cls : ClassInfo} {ds : List MethodDecl}
    {d : MethodDecl} (hd : d ∈ ds) {g g' : Generator} {code : Code}
    (h : methods t cls ds g = (.ok code, g')) :
    ∃ g₁ g₂ front body back, method t cls d g₁ = (.ok body, g₂) ∧
      code = front ++ body ++ back := by
  induction ds generalizing g code with
  | nil => cases hd
  | cons d' ds ih =>
    rw [methods] at h
    obtain ⟨first, g₁, hfirst, h⟩ := bind_eq_ok h
    obtain ⟨rest, g₂, hrest, h⟩ := bind_eq_ok h
    obtain ⟨rfl, rfl⟩ := pure_eq_ok h
    rcases List.mem_cons.mp hd with rfl | hd
    · exact ⟨g, g₁, [], first, rest, hfirst, rfl⟩
    · obtain ⟨g₃, g₄, front, body, back, hbody, rfl⟩ := ih hd hrest
      exact ⟨g₃, g₄, first ++ front, body, back, hbody, by simp only [List.append_assoc]⟩

/-- The code of classes holds the code of each method. -/
theorem method_of_classes {t : ClassTable} {cs : List ClassDecl} {c : ClassDecl} (hc : c ∈ cs)
    {d : MethodDecl} (hd : d ∈ c.methods) {g g' : Generator} {code : Code}
    (h : classes t cs g = (.ok code, g')) :
    ∃ cls g₁ g₂ front body back, t.find? c.name.name = some cls ∧
      method t cls d g₁ = (.ok body, g₂) ∧ code = front ++ body ++ back := by
  induction cs generalizing g code with
  | nil => cases hc
  | cons c' cs ih =>
    rw [classes] at h
    cases hcls : t.find? c'.name.name with
    | none =>
      rw [hcls] at h
      exact (failAt_ne_ok h).elim
    | some cls =>
      rw [hcls] at h
      obtain ⟨first, g₁, hfirst, h⟩ := bind_eq_ok h
      obtain ⟨rest, g₂, hrest, h⟩ := bind_eq_ok h
      obtain ⟨rfl, rfl⟩ := pure_eq_ok h
      rcases List.mem_cons.mp hc with rfl | hc
      · obtain ⟨g₃, g₄, front, body, back, hbody, rfl⟩ := method_of_methods hd hfirst
        exact ⟨cls, g₃, g₄, front, body, back ++ rest, hcls, hbody,
          by simp only [List.append_assoc]⟩
      · obtain ⟨cls', g₃, g₄, front, body, back, hcls', hbody, rfl⟩ := ih hc hrest
        exact ⟨cls', g₃, g₄, first ++ front, body, back, hcls', hbody,
          by simp only [List.append_assoc]⟩

end Gen

end MiniJava
