import MiniJava.Proofs.Execution.Fragments

/-!
# Balanced code

Whatever the code of an expression or a statement puts on the stack it takes off again, and of the
words that were there it changes none but the parameters and locals of its own frame.  Here this is
shown under the assumption that methods that are called return.

* **`Scope.Slotted`** — parameters and locals have their place in the frame.
* **`Watch.Returns`** — calls return, within some number of steps.
* **`shifts_call`** — then the code of a call is balanced.
* **`shifts_of_exprCode`**, **`shifts_of_stmtCode`** — so is that of expressions and statements.
-/

namespace MiniJava

open Machine Instr Reg Code Gen

/-- What a name means in a method is a slot of its frame or a field. -/
def Scope.Slotted (sc : Scope) : Prop :=
  ∀ x v, sc.lookup? x = some v →
    v.role = .parameter ∧ v.index < sc.method.params.length ∨
      v.role = .localVar ∧ v.index < sc.method.locals.length ∨ v.role = .field

/-- The method is found by a name in a class. -/
def Callable (t : ClassTable) (target : Method) : Prop :=
  ∃ x name cls, IsName name ∧ t.find? x = some cls ∧ t.method? cls name = some target

/-! ### Tame pieces -/

theorem tame_load (sc : Scope) (v : Variable) : (sc.load v).Tame := by
  unfold Scope.load Scope.address
  cases v.role <;> rfl

theorem tame_combine {op : BinaryOp} {type : Ty} {code : Code}
    (h : combine op = some (type, code)) : code.Tame := by
  cases op with
  | other => cases h
  | _ =>
    obtain ⟨-, rfl⟩ := Prod.mk.inj (Option.some.inj h)
    rfl

theorem tame_makeObject (l : Layout) (top done : Bytes) : (makeObject l top done).Tame := by
  let known (name : Bytes) : Bool := (labels (makeObject l top done)).contains name ||
    name == Support.nullPointer || name == Support.outOfBounds
  -- only the two branches are not tame by themselves
  have htame : (makeObject l top done).Tame = (known done && (known top && true)) := rfl
  have hlabels : labels (makeObject l top done) = [top, done] := rfl
  rw [htame]
  simp [known, hlabels]

namespace Watch

/-- Within `n` steps, calls return.  At a call the caller's frame pointer lies at `d` and the
arguments below; after it they are off the stack, and all words above are as they were. -/
def Returns (w : Watch) (t : ClassTable) (n : Nat) : Prop :=
  ∀ (target : Method) (k : Nat) (f d : Int) (s : State), Callable t target →
    Performs w.image k (jump .jal (entryLabel target.owner target.name)) → w.Clear f (k + 1) →
    d % 4 = 0 → d + 4 ≤ f → f + 4 ≤ stackEnd →
    Poised k f (d - 4 * (target.params.length + 2)) s → ((s.memory.stackWord d).toNat : Int) = f →
    w.Follows (fun s' => Poised (k + 1) f d s' ∧
      s.memory.Spares (fun _ => False) d s'.memory) n s

variable {w : Watch} {base n : Nat} {m : Method} {f top d : Int}

/-- The code of a call, from where the caller saves its frame pointer on. -/
theorem shifts_call {t : ClassTable} (hreturns : ∀ i ≤ n, w.Returns t i) {target : Method}
    (htarget : Callable t target) (hframe : FrameAt m f d) (htop : d ≤ top) {arguments : Code}
    (harguments : w.Shifts n m f (d - 4) arguments (d - 4 - 4)
      (d - 4 - 4 - 4 * target.params.length)) :
    w.Shifts n m f top (push fp ++ (push a0 ++ arguments) ++
      [one (jump .jal (entryLabel target.owner target.name))]) d d := by
  have hlocals := hframe.locals
  have hparams := hframe.params
  intro k hlaid hclear i hi s hs
  obtain ⟨hlaid, hjump, -⟩ := laid_append.mp hlaid
  obtain ⟨hpush, hrest⟩ := laid_append.mp hlaid
  simp only [size_append (push fp ++ _), size_append (push fp), size_push, size_one, size_nil,
    Nat.zero_add, ← Nat.add_assoc] at hjump hclear ⊢
  -- the caller's frame pointer is put on the stack
  refine (follows_push hpush (hclear.mono (by omega)) htop hs).bind ?_
  rintro i₁ hi₁ s₁ ⟨hs₁, hspares₁, haligned, hsaved⟩
  -- it stays there while the arguments are evaluated
  have hbuild := ((shifts_push a0 (Int.le_refl _)).append harguments) (k + 2) hrest
    (hclear.mono (by omega))
  refine (hbuild i₁ (hi₁.trans hi) s₁ hs₁).bind ?_
  rintro i₂ hi₂ s₂ ⟨hs₂, hspares₂⟩
  have hkept : s₂.memory.stackWord d = s₁.memory.stackWord d := by
    refine hspares₂.words d haligned (by omega) (by omega) ?_
    intro hown
    have hbounds := hown.bounds
    omega
  have hdepth : d - 4 - 4 - 4 * (target.params.length : Int) =
      d - 4 * (target.params.length + 2) := by omega
  rw [hdepth] at hs₂
  -- the method is called
  have hword : ((s₂.memory.stackWord d).toNat : Int) = f := by
    rw [hkept, hsaved, hs.frame]
  refine (hreturns i₂ (hi₂.trans (hi₁.trans hi)) target _ f d s₂ htarget hjump hclear haligned
    (by omega) (by omega) hs₂ hword).imp ?_
  rintro s₃ ⟨hs₃, hspares₃⟩
  have hnone : ∀ a, top < a → False → m.Owns f a := fun _ _ hnone => hnone.elim
  have hlower : d - 4 ≤ top := by omega
  have hspares₂ := hspares₂.mono hlower fun _ _ hown => hown
  exact ⟨hs₃, ((hspares₁.mono (Int.le_refl top) hnone).trans hspares₂).trans
    (hspares₃.mono htop hnone)⟩

/-- An array is taken off the stack, and an element of it is read. -/
theorem shifts_readElement (hw : w.Settled base) (hframe : FrameAt m f d) :
    w.Shifts n m f top readElement (d - 4) d := by
  have harray : w.Shifts n m f top [.instr (lw t1 4 sp) "        # array"] (d - 4) (d - 4) :=
    shifts_tame hw rfl
  have hpop : w.Shifts n m f top (pop 1) (d - 4) d := shifts_pop (by omega) hframe
  exact ((harray.append hpop).append (shifts_tame hw rfl)).append (shifts_tame hw rfl)

/-- An element of an array is written, and its index and value are taken off the stack. -/
theorem shifts_writeElement (hw : w.Settled base) (hframe : FrameAt m f d) :
    w.Shifts n m f top writeElement (d - 4 - 4) d := by
  have hpop : w.Shifts n m f top (pop 2) (d - 4 - 4) d := shifts_pop (by omega) hframe
  exact (Shifts.append (shifts_tame hw rfl) (shifts_tame hw rfl)).append hpop

mutual

/-- The code of an expression is balanced. -/
theorem shifts_of_exprCode {sc : Scope} (hw : w.Settled base)
    (hreturns : ∀ i ≤ n, w.Returns sc.table i) {a a' : Nat} {e : Expr} {type : Ty} {code : Code}
    {d top : Int} : ExprCode sc a e type code a' → e.Written → FrameAt sc.method f d → d ≤ top →
      w.Shifts n sc.method f top code d d
  | .int, _, _, _ => shifts_tame hw rfl
  | .true, _, _, _ => shifts_tame hw rfl
  | .false, _, _, _ => shifts_tame hw rfl
  | .this _, _, _, _ => shifts_tame hw rfl
  | .var _, _, _, _ => shifts_tame hw (tame_load _ _)
  | .not h, hwritten, hframe, htop =>
    (shifts_of_exprCode hw hreturns h hwritten.2.2 hframe htop).append (shifts_tame hw rfl)
  | .binary h h' hop, hwritten, hframe, htop => by
    have hleft := (shifts_of_exprCode hw hreturns h hwritten.2.2.1 hframe htop).append
      (shifts_push a0 htop)
    have hright := hleft.append
      (shifts_of_exprCode hw hreturns h' hwritten.2.2.2 (hframe.mono (by omega)) (by omega))
    have hoperand := hright.append (shifts_tame (c := [one (lw t1 4 sp)]) hw rfl)
    have hcombined := hoperand.append (shifts_tame hw (tame_combine hop))
    exact hcombined.append (shifts_pop (by omega) hframe)
  | .index h h', hwritten, hframe, htop => by
    have harray := (shifts_of_exprCode hw hreturns h hwritten.2.1 hframe htop).append
      (shifts_push a0 htop)
    have hindex := harray.append
      (shifts_of_exprCode hw hreturns h' hwritten.2.2 (hframe.mono (by omega)) (by omega))
    exact hindex.append (shifts_readElement hw hframe)
  | .length h, hwritten, hframe, htop =>
    (shifts_of_exprCode hw hreturns h hwritten.2 hframe htop).append (shifts_tame hw rfl)
  | .newArray h, hwritten, hframe, htop => by
    have hsize := shifts_of_exprCode hw hreturns h hwritten.2 hframe htop
    exact hsize.append ((shifts_allocArray hw).append (shifts_tame hw rfl))
  | .newObject _ _, _, _, _ => shifts_tame hw (tame_makeObject _ _ _)
  | .call h hcls htarget hcount hs, hwritten, hframe, htop => by
    obtain ⟨-, hrecvWritten, hname, hargsWritten⟩ := hwritten
    have hargs := shifts_of_argsCode hw hreturns hs hargsWritten (d := d - 4 - 4)
      (hframe.mono (by omega)) (Int.sub_le_self (d - 4) (by decide))
    rw [hcount] at hargs
    have hreceiver := (shifts_of_exprCode hw hreturns h hrecvWritten hframe htop).append
      (shifts_tame (c := nullCheck a0) hw rfl)
    have hcall := hreceiver.append
      (shifts_call hreturns ⟨_, _, _, hname.name, hcls, htarget⟩ hframe htop hargs)
    have hwhole := hcall.append (shifts_tame (c := [one (move a0 v0)]) hw rfl)
    simpa only [List.append_assoc, List.cons_append, List.nil_append] using hwhole

/-- The code that puts arguments on the stack leaves them there. -/
theorem shifts_of_argsCode {sc : Scope} (hw : w.Settled base)
    (hreturns : ∀ i ≤ n, w.Returns sc.table i) {a a' : Nat} {es : List Expr} {code : Code}
    {d top : Int} : ArgsCode sc a es code a' → Expr.AllWritten es → FrameAt sc.method f d →
      d ≤ top → w.Shifts n sc.method f top code d (d - 4 * es.length)
  | .nil, _, _, _ => by
    simpa using Shifts.nil
  | .cons hs h, hwritten, hframe, htop => by
    have hothers := shifts_of_argsCode hw hreturns hs hwritten.2 hframe htop
    have hvalue := hothers.append
      (shifts_of_exprCode hw hreturns h hwritten.1 (hframe.mono (by omega)) (by omega))
    have hpushed := hvalue.append (shifts_push a0 (by omega))
    convert hpushed using 1
    rw [List.length_cons]
    omega

end

/-! ### Statements -/

/-- A variable is written. -/
theorem shifts_store {sc : Scope} (hw : w.Settled base) (hslots : sc.Slotted) {x : Bytes}
    {v : Variable} (hv : sc.lookup? x = some v) (hframe : FrameAt sc.method f d) (htop : d ≤ top) :
    w.Shifts n sc.method f top (sc.store v) d d := by
  unfold Scope.store Scope.address
  rcases hslots x v hv with ⟨hrole, hindex⟩ | ⟨hrole, hindex⟩ | hrole
  · rw [hrole]
    exact shifts_own hframe (.inl ⟨v.index, hindex, rfl⟩) htop
  · rw [hrole]
    exact shifts_own hframe (.inr ⟨v.index, hindex, rfl⟩) htop
  · rw [hrole]
    exact shifts_tame hw rfl

/-- One of two pieces of code is chosen. -/
theorem shifts_cond {test yes no : Code} {otherwise done : Bytes}
    (htest : w.Shifts n m f top test d d) (hyes : w.Shifts n m f top yes d d)
    (hno : w.Shifts n m f top no d d) :
    w.Shifts n m f top (test ++ [one (branch .beq a0 Reg.zero otherwise)] ++ yes ++
      [one (jump .j done), .label otherwise] ++ no ++ [.label done]) d d := by
  intro k hlaid hclear
  simp only [laid_append, size_append, size_one, size_label, size_nil, Nat.zero_add, Nat.add_zero,
    ← Nat.add_assoc] at hlaid hclear ⊢
  obtain ⟨⟨⟨⟨⟨htestLaid, hbranch, -⟩, hyesLaid⟩, hjump, hotherwise, -⟩, hnoLaid⟩, hdone, -⟩ := hlaid
  refine (htest k htestLaid (hclear.mono (by omega))).seq ?_
  refine .branch hbranch rfl hotherwise (hclear.mono (by omega)) ?_ ?_
  · intro _
    refine (hyes _ hyesLaid (hclear.mono (by omega))).seq ?_
    exact .branch hjump rfl hdone (hclear.mono (by omega)) (fun hop => absurd rfl hop)
      fun _ _ => .nil
  · intro n' hn'
    exact (hno _ hnoLaid hclear).mono hn'.le

/-- A piece of code is repeated.  Each time round takes a step, so that the induction is on the
number of steps. -/
theorem shifts_loop {test body : Code} {again done : Bytes} (htest : w.Shifts n m f top test d d)
    (hbody : w.Shifts n m f top body d d) :
    w.Shifts n m f top (.label again :: test ++ [one (branch .beq a0 Reg.zero done)] ++ body ++
      [one (jump .j again), .label done]) d d := by
  intro k hlaid hclear
  simp only [laid_append, size_append, size_one, size_label, size_nil, Nat.zero_add,
    ← Nat.add_assoc] at hlaid hclear ⊢
  obtain ⟨⟨⟨⟨hagain, htestLaid⟩, hbranch, -⟩, hbodyLaid⟩, hjump, hdone, -⟩ := hlaid
  have hrounds : ∀ n' ≤ n, w.Runs n' m f top k d (k + test.size + 1 + body.size + 1) d := by
    intro n' hn'
    induction n' using Nat.strong_induction_on with
    | _ n' ih =>
      refine ((htest k htestLaid (hclear.mono (by omega))).mono hn').seq ?_
      refine .branch hbranch rfl hdone (hclear.mono (by omega)) ?_ fun _ _ => .nil
      intro _
      refine ((hbody _ hbodyLaid (hclear.mono (by omega))).mono hn').seq ?_
      refine .branch hjump rfl hagain (hclear.mono (by omega)) (fun hop => absurd rfl hop) ?_
      intro n'' hn''
      exact ih n'' hn'' (hn''.le.trans hn')
  exact hrounds n (Nat.le_refl n)

mutual

/-- The code of a statement is balanced. -/
theorem shifts_of_stmtCode {sc : Scope} (hw : w.Settled base) (hslots : sc.Slotted)
    (hreturns : ∀ i ≤ n, w.Returns sc.table i) {a a' : Nat} {s : Stmt} {code : Code}
    (hframe : FrameAt sc.method f d) (htop : d ≤ top) :
    StmtCode sc a s code a' → s.Written → w.Shifts n sc.method f top code d d
  | .block hs, hwritten => shifts_of_stmtsCode hw hslots hreturns hframe htop hs hwritten.2
  | .cond hc ha hb, hwritten =>
    shifts_cond (shifts_of_exprCode hw hreturns hc hwritten.2.1 hframe htop)
      (shifts_of_stmtCode hw hslots hreturns hframe htop ha hwritten.2.2.1)
      (shifts_of_stmtCode hw hslots hreturns hframe htop hb hwritten.2.2.2)
  | .loop hc hb, hwritten =>
    shifts_loop (shifts_of_exprCode hw hreturns hc hwritten.2.1 hframe htop)
      (shifts_of_stmtCode hw hslots hreturns hframe htop hb hwritten.2.2)
  | .print h, hwritten =>
    (shifts_of_exprCode hw hreturns h hwritten.2 hframe htop).append (shifts_printInt hw)
  | .assign h hv, hwritten => by
    have hvalue := shifts_of_exprCode hw hreturns h hwritten.2.2 hframe htop
    refine (hvalue.append ?_).append (shifts_store hw hslots hv hframe htop)
    split
    · exact shifts_tame hw rfl
    · exact .nil
  | .assignElem _ _ h h', hwritten => by
    have hindex := (shifts_of_exprCode hw hreturns h hwritten.2.2.1 hframe htop).append
      (shifts_push a0 htop)
    have hvalue := (hindex.append (shifts_of_exprCode hw hreturns h' hwritten.2.2.2
      (hframe.mono (by omega)) (by omega))).append (shifts_push a0 (by omega))
    exact (hvalue.append (shifts_tame hw (tame_load _ _))).append (shifts_writeElement hw hframe)

theorem shifts_of_stmtsCode {sc : Scope} (hw : w.Settled base) (hslots : sc.Slotted)
    (hreturns : ∀ i ≤ n, w.Returns sc.table i) {a a' : Nat} {ss : List Stmt} {code : Code}
    (hframe : FrameAt sc.method f d) (htop : d ≤ top) :
    StmtsCode sc a ss code a' → Stmt.AllWritten ss → w.Shifts n sc.method f top code d d
  | .nil, _ => .nil
  | .cons h hs, hwritten =>
    (shifts_of_stmtCode hw hslots hreturns hframe htop h hwritten.1).append
      (shifts_of_stmtsCode hw hslots hreturns hframe htop hs hwritten.2)

end

end Watch

end MiniJava
