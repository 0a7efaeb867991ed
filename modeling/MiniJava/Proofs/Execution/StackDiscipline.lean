import MiniJava.Proofs.Execution.Balance

/-!
# Stack discipline

The code of an expression or of a statement leaves the stack pointer as it was, and of the words
above it none is changed but the parameters and locals of its own frame.  Calls may come back to the
same code, with another frame, any number of times before that code is left; so the proof is by
induction on the number of steps: a call takes one, and for what is then run there are fewer left.

* **`follows_prologue`**, **`follows_epilogue`** — what a method does first and last.
* **`Settled.calls`** — calls return with the stack as it was.
* **`BodyCode`**, **`Fragment`** — the code of methods, and of what is in them.
* **`Code.Inner`** — code in which no frame is made or left, as that of every body.
* **`stack_discipline`** — the statement for whole runs.
-/

namespace MiniJava

open Machine Instr Reg Code Gen

/-! ### What a method does first and last -/

namespace Watch

variable {w : Watch} {base n : Nat} {m : Method} {f f' : Int} {k entry back : Nat} {s : State}

/-- What a method does first. -/
theorem follows_prologue (hw : w.Settled base) (hlaid : Laid w.image entry (prologue m))
    (hrange : 4 * (m.locals.length + 2) ≤ 0x80000000) (hlow : f' < w.frame)
    (hs : Poised entry f f' s) :
    w.Follows (fun s' => Poised (entry + 3) f' (f' - 4 * (m.locals.length + 2)) s' ∧
      s.memory.Spares (fun _ => False) f' s'.memory ∧ f' % 4 = 0 ∧
      s'.memory.stackWord f' = s.reg ra) n s := by
  obtain ⟨hmove, hsave, hlocals, -⟩ := hlaid
  have hclear : ∀ last, w.Clear f' last := fun _ => .inl hlow
  have haway : w.Away s := by
    rintro ⟨hpc, -⟩
    have hentry : entry = w.pc := by
      have hnext := hs.next
      omega
    exact hw.noEntry (hentry ▸ hmove)
  -- the frame pointer is set
  refine .next haway (step_move hmove hs.next) ?_
  intro i₁ _
  have hs₁ : Poised (entry + 1) f' f' (s.put fp (s.reg sp)) := by
    refine ⟨congrArg (· + 1) hs.next, (State.exited_put _ _ _).trans hs.running, ?_, ?_⟩
    · rw [State.reg_put_self _ _ _ (by decide), hs.depth]
    · rw [State.reg_put_ne _ _ _ _ (by decide), hs.depth]
  have hmemory : (s.put fp (s.reg sp)).memory = s.memory := State.memory_put _ _ _
  have hra : (s.put fp (s.reg sp)).reg ra = s.reg ra := State.reg_put_ne _ _ _ _ (by decide)
  generalize s.put fp (s.reg sp) = s₁ at hs₁ hmemory hra
  -- the return address is saved
  refine (follows_save hsave (hclear _) (Int.le_refl f') hs₁).bind ?_
  rintro i₂ - s₂ ⟨⟨hs₂, hbase, hhigh⟩, hspares, haligned, hword⟩
  rw [hmemory] at hspares
  rw [hra] at hword
  -- there is room for the locals, for the stack pointer does not leave the stack
  refine .next ((hclear _).away hs₂.next (Nat.lt_succ_self _) hs₂.frame)
    (step_addiu hlocals hs₂.next) ?_
  intro i₃ _
  refine .inside fun hinside => .now ⟨?_, ?_, haligned, ?_⟩
  · have hmoved := toNat_add_ofInt (s₂.reg sp) (-4 * (m.locals.length + 2))
    have hend : stackEnd = 0x80000000 := rfl
    have hdepth := hs₂.depth
    have hstack := hinside.stack.2
    rw [State.reg_put_self _ _ _ (by decide)] at hstack
    have hsum := hs₂.move (o := -4 * (m.locals.length + 2)) (by omega) (by omega)
    convert hsum using 1
    omega
  · rw [State.memory_put]
    exact hspares
  · rw [State.memory_put]
    exact hword

/-- What a method does last. -/
theorem follows_epilogue (hw : w.Settled base) (hlaid : Laid w.image k (epilogue m))
    (hlow : f' < w.frame) (hhigh : f' + 4 * (m.params.length + 2) + 4 ≤ stackEnd)
    (hback : back < 0x3ff00000) (hs : Poised k f' (f' - 4 * (m.locals.length + 2)) s)
    (hra : s.memory.stackWord f' = Image.codeAddress back)
    (hfp : ((s.memory.stackWord (f' + 4 * (m.params.length + 2))).toNat : Int) = f) :
    w.Follows (fun s' => Poised back f (f' + 4 * (m.params.length + 2)) s' ∧
      s'.memory = s.memory) n s := by
  obtain ⟨hvalue, hlocals, hreturn, hparams, hrestore, hjump, -⟩ := hlaid
  have hclear : ∀ last, w.Clear f' last := fun _ => .inl hlow
  have hend : stackEnd = 0x80000000 := rfl
  refine .inside fun hinside => ?_
  obtain ⟨hbase, hbottom, -⟩ := hs.bounds hinside
  -- the result is moved, and the locals are taken off the stack
  refine .next ((hclear _).away hs.next (Nat.lt_succ_self _) hs.frame) (step_move hvalue hs.next) ?_
  intro i₁ _
  have hs₁ := hs.put (r := v0) (by decide) (by decide) (s.reg a0)
  refine (follows_move hlocals (hclear _) (by omega) (by omega) hs₁).bind ?_
  rintro i₂ - s₂ ⟨hs₂, hmemory₂, -⟩
  rw [State.memory_put] at hmemory₂
  have htop : f' - 4 * (m.locals.length + 2) + 4 * (m.locals.length + 1) = f' - 4 := by omega
  rw [htop] at hs₂
  -- the return address is read
  refine (follows_load hreturn (hclear _) (by decide) (by omega) hs₂).bind ?_
  rintro i₃ - s₃ rfl
  rw [Int.sub_add_cancel, hmemory₂, hra]
  have hs₃ := hs₂.put (r := ra) (by decide) (by decide) (Image.codeAddress back)
  -- the arguments are taken off the stack, and the caller's frame pointer is read
  refine (follows_move hparams (hclear _) (by omega) (by omega) hs₃).bind ?_
  rintro i₄ - s₄ ⟨hs₄, hmemory₄, hra₄⟩
  rw [State.memory_put, hmemory₂] at hmemory₄
  rw [State.reg_put_self _ _ _ (by decide)] at hra₄
  have hdepth : f' - 4 + (4 * m.params.length + 12) = f' + 4 * (m.params.length + 2) := by omega
  rw [hdepth] at hs₄
  refine (follows_load hrestore (hclear _) (by decide) (by omega) hs₄).bind ?_
  rintro i₅ - s₅ rfl
  rw [Int.add_zero, hmemory₄]
  generalize s.memory.stackWord (f' + 4 * (m.params.length + 2)) = u at hfp
  -- the method returns
  have hpc : (s₄.put fp u).pc = (k + 5 : Nat) := congrArg (· + 1) hs₄.next
  have haway : w.Away (s₄.put fp u) := by
    rintro ⟨hwatched, -⟩
    have hlast : k + 5 = w.pc := by omega
    exact hw.noReturn (hlast ▸ hjump)
  have hra₅ := (State.reg_put_ne s₄ fp ra u (by decide)).trans hra₄
  have hreturned : step w.image w.cfg (s₄.put fp u) = _ :=
    step_jr hjump hpc (hra₅ ▸ validReturn_codeAddress hback)
  rw [hra₅, instrAt_codeAddress hback] at hreturned
  refine .next haway hreturned ?_
  intro i₆ _
  refine .now ⟨⟨rfl, (State.exited_put _ _ _).trans hs₄.running, ?_, ?_⟩, ?_⟩
  · rw [State.reg_jumped, State.reg_put_self _ _ _ (by decide), hfp]
  · rw [State.reg_jumped, State.reg_put_ne _ _ _ _ (by decide), hs₄.depth]
  · rw [State.memory_jumped, State.memory_put, hmemory₄]

end Watch

/-! ### Calls return -/

namespace Compiled

variable {p : Program} {m : MainClass} {start others : Code} {n n' : Nat}
  (h : Compiled p m start others n n')

include h

theorem slotted {c : ClassDecl} (hc : c ∈ p.classes) (d : MethodDecl) (k : Nat) :
    Scope.Slotted ⟨tableOf m p.classes, c.info p.classes k, d.info c.name.name, false⟩ := by
  intro x v hv
  have hparams : (d.info c.name.name).params.length = d.params.length := length_slots _ _ _
  have hlocals : (d.info c.name.name).locals.length = d.vars.length := length_slots _ _ _
  rcases lookup?_cases hv with hv | hv | ⟨-, hv⟩
  · obtain ⟨hrole, -, hlt⟩ := mem_slots (List.mem_of_find?_eq_some hv)
    exact .inl ⟨hrole, hlt.trans_eq ((Nat.zero_add _).trans hparams.symm)⟩
  · obtain ⟨hrole, -, hlt⟩ := mem_slots (List.mem_of_find?_eq_some hv)
    exact .inr (.inl ⟨hrole, hlt.trans_eq ((Nat.zero_add _).trans hlocals.symm)⟩)
  · exact .inr (.inr (field?_spec h.declared hc hv).1)

omit h in
theorem slotted_main {info : Method} (hinfo : m.info.ownMethod? ClassTable.mainName = some info) :
    Scope.Slotted ⟨tableOf m p.classes, m.info, info, true⟩ := by
  obtain rfl := List.mem_singleton.mp (List.mem_of_find?_eq_some hinfo)
  have hlocals : (slots .localVar 0 m.vars).length = m.vars.length := length_slots _ _ _
  intro x v hv
  rcases lookup?_cases hv with hv | hv | ⟨hmain, -⟩
  · cases hv
  · obtain ⟨hrole, -, hlt⟩ := mem_slots (List.mem_of_find?_eq_some hv)
    exact .inr (.inl ⟨hrole, hlt.trans_eq ((Nat.zero_add _).trans hlocals.symm)⟩)
  · cases hmain

end Compiled

/-- A frame pointer that is saved in a frame of the method is not one of its own words. -/
theorem Method.not_owns {m : Method} {f : Int} : ¬ m.Owns f (f + 4 * (m.params.length + 2)) := by
  intro hown
  have hbounds := hown.bounds
  omega

/-- Calls return, if at all, with the stack as it was before the call was prepared. -/
theorem Watch.Settled.calls {source : Bytes} {p : Program} {t : ClassTable} {whole : Code}
    {w : Watch} {base : Nat} (hw : w.Settled base) (h : Accepted source p t whole w.image)
    (n : Nat) : w.Returns t n := by
  induction n using Nat.strong_induction_on with
  | _ n ih =>
  intro target k f d s hcallable hcall hclear haligned hlow hhigh hs hword
  obtain ⟨x, name, cls, hname, hfind, hmethod⟩ := hcallable
  obtain ⟨c, hc, e, he, tag, a, a₁, a₂, type, stmts, result, front, back, rfl, hstmts, hresult,
    hwhole⟩ := h.callee hname hfind hmethod
  obtain ⟨m, start, others, b, b', rfl, hcompiled, -⟩ := h.parts
  have hwritten := (hcompiled.written.classes c hc).methods e he
  have hslots := hcompiled.slotted hc e tag
  obtain ⟨hlabel, hlaid⟩ := laid_label.mp (h.laid hwhole)
  generalize he : e.info c.name.name = target at *
  rw [laid_append, laid_append, size_append] at hlaid
  obtain ⟨⟨hprologue, hbody⟩, hepilogue⟩ := hlaid
  have hsize : (prologue target).size = 3 := rfl
  rw [hsize] at hbody hepilogue
  rw [← Nat.add_assoc] at hepilogue
  have hrange : 4 * (target.locals.length + 2) ≤ 0x80000000 := by
    have hmem : withImm .addiu sp sp (-4 * (target.locals.length + 2)) ∈ whole.instrs := by
      rw [hwhole]
      simp [prologue]
    have hlower := (h.inRange hmem).1
    simp only [withImm] at hlower
    omega
  -- the call itself takes a step, so that the body is run within fewer
  generalize hframe : d - 4 * ((target.params.length : Int) + 2) = f' at hs
  have hbelow : f' < w.frame := by
    rcases hclear with hclear | ⟨hclear, -⟩
    · omega
    · omega
  refine .next (hclear.away hs.next (Nat.lt_succ_self k) hs.frame)
    (step_jal hcall hs.next hlabel) ?_
  intro i₁ hi₁
  have hs₁ := hs.called front.size (Image.codeAddress (k + 1 : Nat))
  refine (follows_prologue hw hprologue hrange hbelow hs₁).bind ?_
  rintro i₂ hi₂ s₂ ⟨hs₂, hspares₂, haligned', hra⟩
  rw [State.memory_called] at hspares₂
  rw [State.reg_called_ra] at hra
  -- the body leaves what the method has saved alone
  have hplaced : FrameAt target f' (f' - 4 * (target.locals.length + 2)) := by
    constructor
    · omega
    · omega
  have hreturns : ∀ i ≤ i₂, w.Returns (tableOf m p.classes) i := fun i hi => ih i (by omega)
  have hshifts := (shifts_of_stmtsCode hw hslots hreturns hplaced (Int.le_refl _) hstmts
    hwritten.body).append (shifts_of_exprCode hw hreturns hresult hwritten.result hplaced
      (Int.le_refl _))
  refine (hshifts _ hbody (.inl hbelow) i₂ (Nat.le_refl i₂) s₂ hs₂).bind ?_
  rintro i₃ hi₃ s₃ ⟨hs₃, hspares₃⟩
  have hspares₃ : s₂.memory.Spares (target.Owns f') _ s₃.memory := hspares₃
  have hra₃ : s₃.memory.stackWord f' = Image.codeAddress (k + 1 : Nat) := by
    rw [hspares₃.words f' haligned' (by omega) (by omega) fun hown => hown.bounds.2.2 rfl, hra]
  have hsaved : f' + 4 * ((target.params.length : Int) + 2) = d := by omega
  have hfp₃ : ((s₃.memory.stackWord (f' + 4 * (target.params.length + 2))).toNat : Int) = f := by
    rw [hspares₃.words _ (by omega) (by omega) (by omega) Method.not_owns, hsaved,
      hspares₂.words d haligned (by omega) (by omega) id, hword]
  -- the method returns
  refine (follows_epilogue hw hepilogue hbelow (by omega) (hw.returns k _ hcall) hs₃ hra₃
    hfp₃).imp ?_
  rintro s₄ ⟨hs₄, hmemory⟩
  rw [hsaved] at hs₄
  refine ⟨hs₄, ?_⟩
  rw [hmemory]
  refine (hspares₂.mono (by omega) fun _ _ hnone => hnone).trans (hspares₃.mono (by omega) ?_)
  intro a ha hown
  have hbounds := hown.bounds
  omega

/-! ### Where a body can be left -/

/-- The instruction is none of those by which frames are made and left. -/
def Instr.Inner (i : Instr) : Bool := i.op != .jr && !(i.op == .move && i.rd == fp)

/-- No frame is made or left in the code. -/
def Code.Inner (c : Code) : Prop := c.instrs.all Instr.Inner = true

theorem Code.Inner.append {a b : Code} (ha : a.Inner) (hb : b.Inner) : Code.Inner (a ++ b) := by
  unfold Code.Inner at *
  rw [instrs_append, List.all_append, ha, hb]
  rfl

theorem Code.Inner.right {a b : Code} (h : Code.Inner (a ++ b)) : b.Inner := by
  unfold Code.Inner at *
  rw [instrs_append, List.all_append, Bool.and_eq_true] at h
  exact h.2

theorem inner_load (sc : Scope) (v : Variable) : (sc.load v).Inner := by
  unfold Scope.load Scope.address
  cases v.role <;> rfl

theorem inner_store (sc : Scope) (v : Variable) : (sc.store v).Inner := by
  unfold Scope.store Scope.address
  cases v.role <;> rfl

theorem inner_combine {op : BinaryOp} {type : Ty} {code : Code}
    (h : combine op = some (type, code)) : code.Inner := by
  cases op with
  | other => cases h
  | _ =>
    obtain ⟨-, rfl⟩ := Prod.mk.inj (Option.some.inj h)
    rfl

mutual

theorem inner_of_exprCode {sc : Scope} {n n' : Nat} {e : Expr} {type : Ty} {code : Code} :
    ExprCode sc n e type code n' → code.Inner
  | .int => rfl
  | .true => rfl
  | .false => rfl
  | .this _ => rfl
  | .var _ => inner_load _ _
  | .not h => (inner_of_exprCode h).append rfl
  | .binary h h' hop => by
    have hleft := (inner_of_exprCode h).append (b := push a0) rfl
    have hoperands := hleft.append (inner_of_exprCode h')
    exact .append (.append (.append hoperands rfl) (inner_combine hop)) rfl
  | .index h h' =>
    (((inner_of_exprCode h).append (b := push a0) rfl).append (inner_of_exprCode h')).append rfl
  | .length h => (inner_of_exprCode h).append rfl
  | .newArray h => (inner_of_exprCode h).append rfl
  | .newObject _ _ => rfl
  | .call h _ _ _ hs => by
    have hcaller := (((inner_of_exprCode h).append (b := nullCheck a0) rfl).append
      (b := push fp) rfl).append (b := push a0) rfl
    exact (hcaller.append (inner_of_argsCode hs)).append rfl

theorem inner_of_argsCode {sc : Scope} {n n' : Nat} {es : List Expr} {code : Code} :
    ArgsCode sc n es code n' → code.Inner
  | .nil => rfl
  | .cons hs h => ((inner_of_argsCode hs).append (inner_of_exprCode h)).append rfl

end

mutual

theorem inner_of_stmtCode {sc : Scope} {n n' : Nat} {s : Stmt} {code : Code} :
    StmtCode sc n s code n' → code.Inner
  | .block hs => inner_of_stmtsCode hs
  | .cond hc ha hb => by
    refine .append (.append (.append (.append ?_ (inner_of_stmtCode ha)) rfl)
      (inner_of_stmtCode hb)) rfl
    exact .append (inner_of_exprCode hc) rfl
  | .loop hc hb => by
    have htest := inner_of_exprCode hc
    exact .append (.append (.append htest rfl) (inner_of_stmtCode hb)) rfl
  | .print h => (inner_of_exprCode h).append rfl
  | .assign h _ => by
    refine ((inner_of_exprCode h).append ?_).append (inner_store _ _)
    split
    · rfl
    · rfl
  | .assignElem _ _ h h' => by
    have hindex := (inner_of_exprCode h).append (b := push a0) rfl
    have hvalue := (hindex.append (inner_of_exprCode h')).append (b := push a0) rfl
    exact (hvalue.append (inner_load _ _)).append rfl

theorem inner_of_stmtsCode {sc : Scope} {n n' : Nat} {ss : List Stmt} {code : Code} :
    StmtsCode sc n ss code n' → code.Inner
  | .nil => rfl
  | .cons h hs => (inner_of_stmtCode h).append (inner_of_stmtsCode hs)

end

/-! ### Bodies -/

/-- The code of a method or of `main` in three parts: what is done first, the body, and what is done
last. -/
inductive BodyCode (p : Program) (t : ClassTable) : Scope → (enter body leave : Code) → Prop
  | method {c : ClassDecl} {d : MethodDecl} {cls : ClassInfo} {m : Method} {g g₁ g₂ : Generator}
      {stmts result : Code} {type : Ty} : c ∈ p.classes → d ∈ c.methods →
      t.find? c.name.name = some cls → cls.ownMethod? d.name.name = some m →
      statements ⟨t, cls, m, false⟩ d.body g = (.ok stmts, g₁) →
      expression ⟨t, cls, m, false⟩ d.result g₁ = (.ok (type, result), g₂) →
      BodyCode p t ⟨t, cls, m, false⟩ (prologue m) (stmts ++ result) (epilogue m)
  | main {m : MainClass} {entry : ClassInfo} {info : Method} {g g' : Generator} {stmts : Code} :
      p.main = some m → t.entry = some entry → entry.ownMethod? ClassTable.mainName = some info →
      statements ⟨t, entry, info, true⟩ m.body g = (.ok stmts, g') →
      BodyCode p t ⟨t, entry, info, true⟩
        [one (move fp sp), one (withImm .addiu sp sp (-4 * (info.locals.length + 1)))] stmts
        ([.remark 4 "exit"] ++ Support.exit)

/-- What is known of a body. -/
theorem BodyCode.spec {source : Bytes} {p : Program} {t : ClassTable} {whole : Code} {image : Image}
    (h : Accepted source p t whole image) {sc : Scope} {enter body leave : Code}
    (hbody : BodyCode p t sc enter body leave) :
    sc.table = t ∧ sc.Slotted ∧ body.Inner ∧ ∃ i rest, leave.instrs = i :: rest ∧ i.Inner := by
  obtain ⟨m, start, others, n, n', rfl, hcompiled, -⟩ := h.parts
  cases hbody with
  | method hc hd hcls hm hstmts hresult =>
    obtain ⟨k, -, -, hclass⟩ := hcompiled.class_spec hc
    rw [hclass] at hcls
    obtain rfl := Option.some.inj hcls
    rw [hcompiled.method_spec hc hd k] at hm
    obtain rfl := Option.some.inj hm
    have hstmts := inner_of_stmtsCode (stmtsCode_of_statements _ hstmts)
    have hresult := inner_of_exprCode (exprCode_of_expression _ hresult)
    exact ⟨rfl, hcompiled.slotted hc _ k, hstmts.append hresult, _, _, rfl, rfl⟩
  | main hmain hentry hinfo hstmts =>
    rw [hcompiled.main] at hmain
    obtain rfl := Option.some.inj hmain
    obtain rfl := Option.some.inj hentry
    have hstmts := inner_of_stmtsCode (stmtsCode_of_statements _ hstmts)
    exact ⟨rfl, Compiled.slotted_main hinfo, hstmts, _, _, rfl, rfl⟩

/-- The code is that of an expression or of a statement. -/
inductive Fragment (sc : Scope) : Code → Prop
  | expression {e : Expr} {g g' : Generator} {type : Ty} {code : Code} : e.Written →
      Gen.expression sc e g = (.ok (type, code), g') → Fragment sc code
  | statement {s : Stmt} {g g' : Generator} {code : Code} : s.Written →
      Gen.statement sc s g = (.ok code, g') → Fragment sc code

theorem Fragment.shifts {sc : Scope} {code : Code} (h : Fragment sc code) {w : Watch} {base n : Nat}
    {f d : Int} (hw : w.Settled base) (hslots : sc.Slotted)
    (hreturns : ∀ i ≤ n, w.Returns sc.table i) (hframe : FrameAt sc.method f d) :
    w.Shifts n sc.method f d code d d := by
  cases h with
  | expression hwritten hcode =>
    have hcode := exprCode_of_expression _ hcode
    exact Watch.shifts_of_exprCode hw hreturns hcode hwritten hframe (Int.le_refl d)
  | statement hwritten hcode =>
    have hcode := stmtCode_of_statement _ hcode
    exact Watch.shifts_of_stmtCode hw hslots hreturns hframe (Int.le_refl d) hcode hwritten

/-- The end of code in a body is a place to watch. -/
theorem settled_of_body {source : Bytes} {p : Program} {t : ClassTable} {whole : Code}
    {image : Image} (h : Accepted source p t whole image)
    (haddresses : image.text.size ≤ 0x3ff00000) {front post leave rest : Code}
    (hpost : post.Inner) {i : Instr} {is : List Instr} (hleave : leave.instrs = i :: is)
    (hi : i.Inner)
    (hwhole : whole = front ++ (post ++ leave) ++ (rest ++ Support.routines)) (cfg : Config)
    (f : Int) : ∃ base, Watch.Settled ⟨image, cfg, front.size, f⟩ base := by
  have hnext : ∃ i, Performs image front.size i ∧ i.Inner := by
    have hlaid := h.laid hwhole
    cases hinstrs : post.instrs with
    | nil =>
      have hfirst : instrs (post ++ leave) = i :: is := by
        rw [instrs_append, hinstrs, hleave]
        rfl
      exact ⟨i, hlaid.first hfirst, hi⟩
    | cons j js =>
      have hfirst : instrs (post ++ leave) = j :: (js ++ leave.instrs) := by
        rw [instrs_append, hinstrs]
        rfl
      refine ⟨j, hlaid.first hfirst, List.all_eq_true.mp hpost j ?_⟩
      rw [hinstrs]
      exact List.mem_cons_self
  obtain ⟨j, hj, hinner⟩ := hnext
  unfold Instr.Inner at hinner
  have hroutines : whole = (front ++ (post ++ leave) ++ rest) ++ Support.routines ++ [] := by
    rw [hwhole]
    simp only [List.append_assoc, List.append_nil]
  have hlaid := h.laid hroutines
  refine ⟨_, ?_, ?_, ?_, hlaid, ?_⟩
  · intro hmove
    obtain ⟨hop, hrd⟩ := hj.op_eq hmove
    simp [hop, hrd, Instr.move] at hinner
  · intro hjump
    obtain ⟨hop, -⟩ := hj.op_eq hjump
    simp [hop, onReg] at hinner
  · have hsize : 0 < leave.size := by
      rw [size, hleave]
      exact Nat.zero_lt_succ _
    show front.size < _
    simp only [size_append]
    omega
  · -- the last instruction of all is a return and no call
    intro k l hcall
    have hsplit : Support.routines = Support.routines.dropLast ++ [one (onReg .jr ra)] := rfl
    rw [hsplit, laid_append] at hlaid
    have hlast : Performs image (Code.size (front ++ (post ++ leave) ++ rest) + 30)
        (onReg .jr ra) := hlaid.2.1
    have hsize : image.text.size = Code.size (front ++ (post ++ leave) ++ rest) + 31 := by
      rw [h.size_text, hroutines, size_append, size_append]
      rfl
    have hbefore : k < image.text.size := hcall.lt_size
    have hne : k ≠ Code.size (front ++ (post ++ leave) ++ rest) + 30 := by
      rintro rfl
      cases (Performs.op_eq hcall hlast).1
    omega

/-! ### Whole runs -/

/-- Let a run start where the code of an expression or of a statement of a method or of `main`
starts, with the frame of the method on the stack, and look at it when it is just past that code
for the first time with the same frame pointer.  If until then the stack pointer was always inside
the stack, the stack and the heap did not overlap, and nothing was stored on the stack by way of an
object or an array, then the stack pointer is what it was, and so is every word above it that is
neither a parameter nor a local of the frame.

The image has at most `0x3ff00000` instructions: the address of a later one would not fit into 32
bits, and a return to it would go elsewhere. -/
theorem stack_discipline {source : Bytes} {p : Program} {t : ClassTable} {whole : Code}
    {image : Image} (h : Accepted source p t whole image)
    (haddresses : image.text.size ≤ 0x3ff00000) {sc : Scope}
    {enter body leave outer rest pre code post : Code} (hbody : BodyCode p t sc enter body leave)
    (hwhole : whole = outer ++ (enter ++ body ++ leave) ++ (rest ++ Support.routines))
    (hcode : Fragment sc code) (hsplit : body = pre ++ code ++ post) {cfg : Config} {n : Nat}
    {s s' : State} (hpc : s.pc = (outer ++ enter ++ pre).size)
    (hlocals : (s.reg sp).toNat + 4 * (sc.method.locals.length + 1) ≤ (s.reg fp).toNat)
    (hparams : (s.reg fp).toNat + 4 * (sc.method.params.length + 1) ≤ stackEnd)
    (hrun : Steps image cfg n s s') (hpast : s'.pc = s.pc + code.size)
    (hframe : s'.reg fp = s.reg fp)
    (hfirst : ∀ m < n, ∀ u, Steps image cfg m s u →
      ¬ (u.pc = s.pc + code.size ∧ u.reg fp = s.reg fp))
    (hinside : ∀ m ≤ n, ∀ u, Steps image cfg m s u → Inside u)
    (hstores : ∀ m < n, ∀ u, Steps image cfg m s u → StoresApart image u) :
    s'.reg sp = s.reg sp ∧ ∀ a : UInt32, a.toNat % 4 = 0 → s.reg sp < a → a.toNat < stackEnd →
      (∀ i < sc.method.params.length, a ≠ s.reg fp + UInt32.ofInt (paramOffset i)) →
      (∀ j < sc.method.locals.length, a ≠ s.reg fp + UInt32.ofInt (localOffset j)) →
      s'.memory.word a = s.memory.word a := by
  rcases Nat.eq_zero_or_pos n with rfl | hpos
  · cases hrun
    exact ⟨rfl, fun _ _ _ _ _ _ => rfl⟩
  have hrunning : s.exited = false := by
    cases hrun with
    | refl => exact absurd hpos (Nat.lt_irrefl 0)
    | head hrunning _ _ => exact hrunning
  obtain ⟨rfl, hslots, hinner, i, is, hleave, hi⟩ := hbody.spec h
  subst hsplit
  have hplace : whole = outer ++ enter ++ pre ++ code ++ (post ++ leave) ++
      (rest ++ Support.routines) := by
    rw [hwhole]
    simp only [List.append_assoc]
  let w : Watch := ⟨image, cfg, (outer ++ enter ++ pre ++ code).size, (s.reg fp).toNat⟩
  obtain ⟨base, hw⟩ : ∃ base, w.Settled base :=
    settled_of_body h haddresses hinner.right hleave hi hplace cfg (s.reg fp).toNat
  have hend : (outer ++ enter ++ pre ++ code).size = (outer ++ enter ++ pre).size + code.size :=
    size_append _ _
  have hwatched : ∀ u : State, w.Away u ↔ ¬ (u.pc = s.pc + code.size ∧ u.reg fp = s.reg fp) := by
    intro u
    show ¬ (u.pc = ((outer ++ enter ++ pre ++ code).size : Nat) ∧ _) ↔ _
    rw [hend, hpc, Int.natCast_inj, UInt32.toNat_inj]
    rfl
  -- the code leads to its end, and nowhere else
  have hlaid : Laid image (outer ++ enter ++ pre).size code := by
    have hpart : whole = outer ++ enter ++ pre ++ code ++
        (post ++ leave ++ (rest ++ Support.routines)) := by
      rw [hplace]
      simp only [List.append_assoc]
    exact h.laid hpart
  have hplaced : FrameAt sc.method (s.reg fp).toNat (s.reg sp).toNat := by
    constructor
    · omega
    · omega
  have huntil := (hcode.shifts hw hslots (fun i _ => hw.calls h i) hplaced) _ hlaid
    (.inr ⟨rfl, hend.ge⟩) n (Nat.le_refl n) s ⟨hpc, hrunning, rfl, rfl⟩
  obtain ⟨hs', hspares⟩ := hrun.of_until
    (fun u hu haway => haway ⟨hu.1.next.trans (congrArg _ hend.symm), hu.1.frame⟩) huntil
    (fun haway => (hwatched s').mp haway ⟨hpast, hframe⟩)
    (fun m hm u hu => (hwatched u).mpr (hfirst m hm u hu)) hinside hstores
  have hstart := hinside 0 (Nat.zero_le n) s (.refl s)
  have hfinish := hinside n (Nat.le_refl n) s' hrun
  constructor
  · apply UInt32.toNat.inj
    have hdepth := hs'.depth
    omega
  intro a haligned habove htop hnoParam hnoLocal
  rw [UInt32.lt_iff_toNat_lt] at habove
  have hlow := hstart.stack.1
  refine hspares.word_eq hstart.apart hfinish.apart ⟨by omega, htop⟩ haligned (by omega) ?_
  intro howns
  rcases howns.slot with ⟨i, hi, ha⟩ | ⟨j, hj, ha⟩
  · exact hnoParam i hi ha
  · exact hnoLocal j hj ha

/-- A program with a method that calls itself in the middle of a statement. -/
def recursing : Bytes :=
  "class A\x7bpublic static void main(String[] a)\x7bSystem.out.println(new C().f(1));\x7d\x7d" ++
    "class C\x7bpublic int f(int n)\x7bint r;if(n<1)r=0;else r=n+this.f(n-1);return r;\x7d\x7d"

/-- Poisoned memory with a stack of thirty-two words. -/
def Machine.Config.roomy : Config := ⟨0, 128, 100, true⟩

set_option synthInstance.maxSize 2000 in
theorem stack_discipline_recursing :
    ∃ p t whole image s s', Accepted recursing p t whole image ∧
      Steps image .roomy 27 (.start image .roomy none) s ∧ Steps image .roomy 55 s s' ∧
      s.pc = 35 ∧ s'.pc = 71 ∧ s'.reg sp = s.reg sp ∧
      s'.memory.word (s.reg fp) = s.memory.word (s.reg fp) ∧
      s'.memory.word (s.reg fp + 8) = s.memory.word (s.reg fp + 8) := by
  let g : Generator := ⟨2, []⟩
  have hcheck : ∃ r ∈ accept? recursing, ∃ c ∈ r.1.classes.head?, ∃ d ∈ c.methods.head?,
      ∃ st ∈ d.body.head?, ∃ cls ∈ r.2.1.find? c.name.name, ∃ m ∈ cls.ownMethod? d.name.name,
      ∃ stmts ∈ (statements ⟨r.2.1, cls, m, false⟩ d.body g).1.toOption,
      ∃ result ∈ (expression ⟨r.2.1, cls, m, false⟩ d.result
        (statements ⟨r.2.1, cls, m, false⟩ d.body g).2).1.toOption,
      ∃ s ∈ after r.2.2.2 .roomy 27 (.start r.2.2.2 .roomy none),
      ∃ s' ∈ after r.2.2.2 .roomy 55 s,
      (statement ⟨r.2.1, cls, m, false⟩ st g).1.toOption = some stmts ∧
      r.2.2.1 = r.2.2.1.take 46 ++ (prologue m ++ (stmts ++ result.2) ++ epilogue m) ++
        ([] ++ Support.routines) ∧ r.2.2.2.text.size = 109 ∧
      Code.size (r.2.2.1.take 46 ++ prologue m ++ []) = 35 ∧ stmts.size = 36 ∧
      m.locals.length = 1 ∧ m.params.length = 1 ∧ s.pc = 35 ∧ s'.pc = 71 ∧
      s.reg sp = 0x7fffffe0 ∧ s.reg fp = 0x7fffffec ∧ s'.reg fp = 0x7fffffec ∧
      throughout r.2.2.2 .roomy (fun u => Inside u) 55 s ∧
      throughout r.2.2.2 .roomy (fun u => StoresApart r.2.2.2 u ∧
         ¬ (u.pc = 71 ∧ u.reg fp = 0x7fffffec)) 54 s := by
    decide +kernel
  obtain ⟨⟨p, t, whole, image⟩, haccept, c, hc, d, hd, st, hst, cls, hcls, m, hm, stmts, hstmts,
    ⟨type, result⟩, hresult, s, hs, s', hs', hst', hwhole, hsize, hstart, hlength, hlocals, hparams,
    hpc, hpast, hsp, hfp, hfp', hinside, hothers⟩ := hcheck
  have haccepted := accepted_of_accept? haccept
  obtain ⟨mc, start, others, n, n', -, hcompiled, -⟩ := haccepted.parts
  have hcmem := List.mem_of_mem_head? hc
  have hdmem := List.mem_of_mem_head? hd
  have hwritten := ((hcompiled.written.classes c hcmem).methods d hdmem).body
  have hstmt : st.Written := by
    cases hbody : d.body with
    | nil =>
      rw [hbody] at hst
      cases hst
    | cons first others =>
      rw [hbody] at hst hwritten
      obtain rfl := Option.some.inj hst
      exact hwritten.1
  have hbody := BodyCode.method hcmem hdmem hcls hm (eq_ok_of_mem hstmts) (eq_ok_of_mem hresult)
  have hfragment := Fragment.statement hstmt (eq_ok_of_mem hst')
  have hsteps := steps_of_after hs'
  have hend : s.pc + stmts.size = 71 := by
    rw [hpc, hlength]
    rfl
  have hfirst := of_throughout hothers
  have hnat : (s.reg sp).toNat = 0x7fffffe0 ∧ (s.reg fp).toNat = 0x7fffffec := by
    rw [hsp, hfp]
    decide
  obtain ⟨hstack, hwords⟩ := stack_discipline haccepted (by rw [hsize]; decide) hbody hwhole
    hfragment (List.nil_append _).symm (by rw [hpc, hstart]; rfl) (by rw [hlocals]; omega)
    (by rw [hparams, hnat.2]; decide) hsteps (hpast.trans hend.symm) (hfp'.trans hfp.symm)
    (by
      intro i hi u hu
      rw [hend, hfp]
      exact (of_decide_eq_true (hfirst i (Nat.le_of_lt_succ hi) u hu)).2)
    (fun i hi u hu => of_decide_eq_true (of_throughout hinside i hi u hu))
    (fun i hi u hu => (of_decide_eq_true (hfirst i (Nat.le_of_lt_succ hi) u hu)).1)
  simp only [hsp, hfp, hparams, hlocals] at hwords
  refine ⟨p, t, whole, image, s, s', haccepted, steps_of_after hs, hsteps, hpc, hpast, hstack,
    ?_, ?_⟩
  · rw [hfp]
    exact hwords _ (by decide) (by decide) (by decide) (by decide) (by decide)
  · rw [hfp]
    exact hwords _ (by decide) (by decide) (by decide) (by decide) (by decide)

end MiniJava
