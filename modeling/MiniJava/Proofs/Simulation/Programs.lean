import MiniJava.Proofs.Simulation.Statements

/-!
# Calls and programs

The machine follows the interpreter through a call, and with it through a whole program.

* **`calls_invokeWithin`** — calls, by induction on how deep they may be nested.
* **`leads_interpret`** — the code of `main`.
* **`Agrees`** — what a run has to do for what the interpreter yields.
* **`compile_preserves`** — a run of what a source is compiled to does what the interpreter does.
-/

namespace MiniJava.Simulation

open Instr Machine Semantics

/-! ### Calls -/

section Methods

variable {p : Image} {cfg : Config} {m : MainClass} {cs : List ClassDecl} {b : Budget} {k pc : Nat}
  {V : View}

/-- What lies where in the code of a method. -/
theorem Setting.method (hS : Setting p cfg m cs b) {c : ClassDecl} (hc : c ∈ cs) {d : MethodDecl}
    (hd : d ∈ c.methods) : ∃ sc n n₁ n₂ type body result,
      ∃ pc : Nat, Stands m cs sc ⟨some c.name.name, d.params, d.vars⟩ ∧
      StmtsCode sc n d.body body n₁ ∧ ExprCode sc n₁ d.result type result n₂ ∧
      p.textLabels.lookup (entryLabel c.name.name d.name.name) = some (pc : Int) ∧
      LiesAt p pc (Gen.prologue (d.info c.name.name) ++ body ++ result ++
        Gen.epilogue (d.info c.name.name)) := by
  obtain ⟨k, n, n', code, pc, hcode, hlies⟩ := hS.linked.methods c hc d hd
  cases hcode with
  | mk hown hbody hresult =>
    rw [ownMethod?_of_mem hS.declared hc hd k] at hown
    obtain rfl := Option.some.inj hown
    obtain ⟨hlabel, hlies⟩ := hlies
    have hst := stands_method hS.declared hc d k
    exact ⟨_, n, _, n', _, _, _, pc, hst, hbody, hresult, hlabel, hlies⟩

variable {α : Type} {x : Except Halt α} {pc' : Nat} {post : α → View → Prop} {d : MethodDecl}
  {owner : Bytes} {base : Nat} {w : World}

/-- Locals have no values at first. -/
theorem unassigned (vars : List VarDecl) (j : Nat) (v : Value) :
    (vars.map fun _ => (none : Option Value))[j]? ≠ some (some v) := by
  intro hv
  rw [List.getElem?_map] at hv
  obtain ⟨_, -, hnone⟩ := Option.map_eq_some_iff.mp hv
  cases hnone

/-- A method makes room for its locals. -/
theorem Leads.prologue {r : Ref} {args : List Value}
    (hlies : LiesAt p pc (Gen.prologue (d.info owner))) (hcalled : Called m cs r args base w V)
    (hlength : args.length = d.params.length)
    (hlimit : 4 * (base + 2 + args.length + d.vars.length + 1) ≤ cfg.stackBytes)
    (h : ∀ V', Ready cfg m cs ⟨some owner, d.params, d.vars⟩
        ⟨some r, args, d.vars.map fun _ => none⟩ (base + 2 + args.length)
        (base + 2 + args.length + d.vars.length + 2) w V' →
      V'.stack (base + 2 + args.length) = V.reg Reg.ra →
      (∀ j < base + 2 + args.length, V'.stack j = V.stack j) →
      Leads p cfg k (pc + 3) V' x pc' post) :
    Leads p cfg k pc V x pc' post := by
  obtain ⟨hframe, hsave, hmove, -⟩ := hlies
  have hlocals : (d.info owner).locals.length = d.vars.length := length_slots _ _ _
  refine Leads.step (moves_result (u := stackAddress (base + 2 + args.length)) hframe (by decide)
    (congrArg some hcalled.sp)) ?_
  refine Leads.step (moves_sw_stack (j := base + 2 + args.length) hsave ?_ (by omega)) ?_
  · show V.reg Reg.sp + UInt32.ofInt 0 = _
    rw [hcalled.sp]
    exact stackAddress_offset (by omega)
  refine Leads.step (moves_result
    (u := stackAddress (base + 2 + args.length + d.vars.length + 2)) hmove ?_ ?_) ?_
  · show Reg.sp ≠ Reg.zero
    decide
  · show some (V.reg Reg.sp + UInt32.ofInt (-4 * ((d.info owner).locals.length + 2))) = _
    rw [hcalled.sp, hlocals]
    exact congrArg some (stackAddress_offset (by omega))
  refine h _ ⟨⟨hlength, List.length_map _, rfl, ?_, hlimit, ?_, ?_, ?_⟩, ?_, rfl,
    hcalled.shows.congr rfl rfl⟩ (if_pos rfl) ?_
  · show d.params.length ≤ _
    omega
  · intro r' hr'
    obtain rfl := Option.some.inj hr'
    have hplace : base + 2 + args.length - (d.params.length + 1) = base + 1 := by omega
    refine ⟨?_, ?_⟩
    · show d.params.length < _
      omega
    · refine (if_neg ?_).trans ?_
      · show base + 2 + args.length - (d.params.length + 1) ≠ _
        omega
      · show V.stack (base + 2 + args.length - (d.params.length + 1)) = _
        rw [hplace, hcalled.receiver]
  · intro i v hv
    exact (if_neg (by omega)).trans (hcalled.args i v hv)
  · intro j v hv
    exact absurd hv (unassigned d.vars j v)
  · show base + 2 + args.length + d.vars.length < _
    omega
  · exact fun j hj => if_neg (Nat.ne_of_lt hj)

/-- A method returns and takes everything off the stack that was put there for it. -/
theorem Leads.epilogue (hlies : LiesAt p pc (Gen.epilogue (d.info owner)))
    (hsp : V.reg Reg.sp = stackAddress (base + 2 + d.params.length + d.vars.length + 2))
    (hlimit : 4 * (base + 2 + d.params.length + 1) ≤ cfg.stackBytes) {caller : Nat}
    (hcaller : caller < 0x30000000)
    (hra : V.stack (base + 2 + d.params.length) = Image.codeAddress caller)
    {result : Value × World} (hresult : V.reg Reg.a0 = word result.1)
    (hshows : Shows (tableOf m cs) cs result.2 V) :
    Leads p cfg k pc V (.ok result) caller (Returned m cs base V) := by
  obtain ⟨hvalue, hlocals, hreturn, hparams, hframe, hjump, -⟩ := hlies
  have hlocalCount : (d.info owner).locals.length = d.vars.length := length_slots _ _ _
  have hparamCount : (d.info owner).params.length = d.params.length := length_slots _ _ _
  have hne : Reg.sp ≠ Reg.zero := by decide
  refine Leads.step (moves_result hvalue (by decide) rfl) ?_
  refine Leads.step (moves_result (u := stackAddress (base + 2 + d.params.length + 1)) hlocals hne
    ?_) ?_
  · show some (V.reg Reg.sp + UInt32.ofInt (4 * ((d.info owner).locals.length + 1))) = _
    rw [hsp, hlocalCount]
    exact congrArg some (stackAddress_offset (by omega))
  refine Leads.step (moves_lw_stack (j := base + 2 + d.params.length) hreturn (by decide)
    (stackAddress_offset (by omega)) hlimit) ?_
  refine Leads.step (moves_result (u := stackAddress base) hparams hne ?_) ?_
  · show some (stackAddress (base + 2 + d.params.length + 1) +
      UInt32.ofInt (4 * (d.info owner).params.length + 12)) = _
    rw [hparamCount]
    exact congrArg some (stackAddress_offset (by omega))
  refine Leads.step (moves_lw_stack (j := base) hframe (by decide)
    (stackAddress_offset (by omega)) (by omega)) ?_
  refine Leads.step (moves_jr hjump hra hcaller) ?_
  exact Leads.done rfl ⟨hresult, rfl, rfl, fun j _ => rfl, hshows.congr rfl rfl⟩

/-- The machine follows the interpreter through calls. -/
theorem calls_invokeWithin (hS : Setting p cfg m cs b) (hwritten : ∀ c ∈ cs, c.Written) (n : Nat) :
    Calls p cfg m cs n (invokeWithin cs b n) := by
  -- a call is a step of the machine, so that a call nested less deep is left for one step more
  induction n with
  | zero =>
    intro c hc d hd r args base pc w V _ _ hcalled
    rw [invokeWithin]
    exact Leads.timeout hcalled.shows.out
  | succ n ih =>
    intro c hc d hd r args base pc w V hcall hlength hcalled
    obtain ⟨sc, _, _, _, _, body, result, start, hst, hbody, hresult, hlabel, hlies⟩ :=
      hS.method hc hd
    simp only [List.append_assoc, liesAt_append] at hlies
    obtain ⟨hprologue, hliesBody, hliesResult, hepilogue⟩ := hlies
    have hstack := hS.stack
    have hd := (hwritten c hc).methods d hd
    rw [invokeWithin]
    refine Leads.tick (moves_jal hcall hlabel) ?_
    refine Leads.reserve fun hroom => ?_
    have hcalled' : Called m cs r args base w
        (V.set Reg.ra (Image.codeAddress (pc + 1 : Nat))) :=
      ⟨hcalled.sp, hcalled.receiver, hcalled.args, hcalled.shows.congr rfl rfl⟩
    refine Leads.prologue hprologue hcalled' hlength (by omega) ?_
    intro V₁ hready hra hbelow
    refine Leads.bind (leads_execAll hS hst ih hbody hd.body hliesBody hready) ?_
    rintro ⟨act, w₁⟩ V₂ hpassed
    refine Leads.seq (leads_eval hS hst ih hresult hd.result hliesResult hpassed.ready) ?_
    rintro ⟨v, w₂⟩ V₃ hv
    -- the return address and what lies below the arguments belong to no variable of the call
    have hsame : ∀ j, j ≤ base ∨ j = base + 2 + args.length → V₃.stack j = V₁.stack j := by
      intro j hj
      refine (hv.stays.stack j (by omega)).trans (hpassed.spares.stack j (by omega) ?_)
      rintro (⟨hle, hlt⟩ | ⟨hlt, -⟩)
      · have hle : base + 2 + args.length ≤ j + d.params.length := hle
        omega
      · omega
    have hreturn := (hsame _ (.inr rfl)).trans hra
    have hsp := (hv.ready hpassed.ready).sp
    rw [hlength] at hreturn hsp
    refine Leads.imp (Leads.epilogue hepilogue hsp (by omega) (hS.lt_small hcall) hreturn hv.value
      hv.shows) rfl ?_
    intro returned V₄ h
    refine ⟨h.value, h.sp, ?_, ?_, h.shows⟩
    · exact h.fp.trans ((hsame base (.inl (Nat.le_refl base))).trans (hbelow base (by omega)))
    · intro j hj
      refine (h.stack j hj).trans ((hsame j (.inl (Nat.le_of_lt hj))).trans ?_)
      exact hbelow j (by omega)

end Methods

/-! ### Programs -/

section Programs

variable {p : Image} {cfg : Config} {m : MainClass} {b : Budget} {pc : Nat} {V : View}
  {prog : Program}

/-- The machine follows the interpreter through the code of `main`. -/
theorem leads_interpret (hS : Setting p cfg m prog.classes b) (hmain : prog.main = some m)
    (hwritten : prog.Written) {info : Method}
    (hinfo : m.info.ownMethod? ClassTable.mainName = some info) {n n' : Nat} {body : Code}
    (hbody : StmtsCode ⟨tableOf m prog.classes, m.info, info, true⟩ n m.body body n')
    (hlies : LiesAt p pc ([Code.one (move Reg.fp Reg.sp),
      Code.one (withImm .addiu Reg.sp Reg.sp (-4 * (info.locals.length + 1)))] ++ body))
    (hsp : V.reg Reg.sp = stackAddress 0) (hheap : V.heap = []) (hout : V.out = []) (fuel : Nat) :
    Leads p cfg (fuel + 1) pc V (interpret prog b fuel) (pc + 2 + body.size)
      fun out V' => V'.out = out := by
  obtain ⟨hframe, hmove, hlies⟩ := hlies
  obtain ⟨m', hmain', hm⟩ := hwritten.main
  rw [hmain] at hmain'
  obtain rfl := Option.some.inj hmain'
  have hst := @stands_main m prog.classes info hinfo
  have hlocals : info.locals.length = m.vars.length := by
    obtain rfl := List.mem_singleton.mp (List.mem_of_find?_eq_some hinfo)
    exact length_slots _ _ _
  have hstack := hS.stack
  simp only [interpret, hmain]
  refine Leads.tick (moves_result (u := stackAddress 0) hframe (by decide) (congrArg some hsp)) ?_
  refine Leads.reserve fun hroom => ?_
  refine Leads.step (moves_result (u := stackAddress (m.vars.length + 1)) hmove ?_ ?_) ?_
  · show Reg.sp ≠ Reg.zero
    decide
  · show some (V.reg Reg.sp + UInt32.ofInt (-4 * (info.locals.length + 1))) = _
    rw [hsp, hlocals]
    exact congrArg some (stackAddress_offset (by omega))
  refine Leads.bind (leads_execAll (f := 0) hS hst (calls_invokeWithin hS hwritten.classes fuel)
    hbody hm.body hlies ⟨⟨rfl, List.length_map _, rfl, Nat.zero_le _, ?_, ?_, ?_, ?_⟩, ?_, rfl,
      hheap, hout⟩) ?_
  · show 4 * (0 + m.vars.length + 1) ≤ _
    omega
  · intro r hr
    cases hr
  · intro i v hv
    cases hv
  · intro j v hv
    exact absurd hv (unassigned m.vars j v)
  · show 0 + m.vars.length < _
    omega
  · rintro ⟨act, w⟩ V' hpassed
    exact Leads.done rfl hpassed.ready.shows.out

end Programs

/-! ### Runs -/

section Runs

variable (p : Image) (cfg : Config)

/-- A run of a program ends with the given status, and the program has then printed `out`: so it is
under every limit on steps that is large enough. -/
def RunsTo (status : Status) (out : Bytes) : Prop :=
  ∃ (n : Nat) (s : State), s.console.output = out ∧
    ∀ limit : Int, n < limit ∨ limit ≤ 0 ∧ n < endless →
      run p { cfg with maxSteps := limit } false (State.start p cfg none) = (status, s)

/-- A run of a program is still going on after more than `k` steps, and the program has then printed
`out`. -/
def RunsOn (k : Nat) (out : Bytes) : Prop :=
  ∃ (n : Nat) (s : State), k < n ∧ s.console.output = out ∧
    run p { cfg with maxSteps := n } false (State.start p cfg none) = (.failed (.stepLimit n), s)

/-- What a run of a program has to do for what the interpreter yields with the given fuel.  Nothing
is said when the interpreter is stuck or has used up its budget. -/
def Agrees (fuel : Nat) : Except Halt Bytes → Prop
  | .ok out => RunsTo p cfg .exited out
  | .error ⟨.nullPointer, out⟩ => RunsTo p cfg .exited (out ++ "Null pointer exception\n")
  | .error ⟨.outOfBounds, out⟩ => RunsTo p cfg .exited (out ++ "Index out of bound exception\n")
  | .error ⟨.nullLength, out⟩ =>
      ∃ line, RunsTo p cfg (.failed (.atLine line .lw (.access (.badAddress 0)))) out
  | .error ⟨.timeout, out⟩ => RunsOn p cfg fuel out
  | .error ⟨.stuck, _⟩ => True
  | .error ⟨.exhausted, _⟩ => True

variable {p cfg}

/-- A run within a limit that the steps keep to goes on after them. -/
theorem run_of_steps {n : Nat} {s : State} (h : Steps p cfg n (State.start p cfg none) s)
    {limit : Int} (hlimit : n < limit ∨ limit ≤ 0 ∧ n < endless) :
    ∃ m, run p { cfg with maxSteps := limit } false (State.start p cfg none) =
      runWithin p { cfg with maxSteps := limit } false (m + 1) s := by
  have hstart : (State.start p cfg none).steps = 0 := rfl
  rcases hlimit with hlimit | ⟨hlimit, hn⟩
  · refine ⟨limit.toNat - n, ?_⟩
    have hrun := runWithin_of_steps h (.inr (by omega : _ ≤ limit)) (limit.toNat - n + 1)
    rw [run, if_pos (show 0 < limit by omega), ← hrun]
    congr 1
    show limit.toNat + 1 = _
    omega
  · refine ⟨endless - n - 1, ?_⟩
    have hrun := runWithin_of_steps h (.inl hlimit) (endless - n - 1 + 1)
    rw [run, if_neg (show ¬ 0 < limit by omega), ← hrun]
    congr 1
    omega

theorem runsTo_of_exits {out : Bytes} (h : Exits p cfg (State.start p cfg none) out) :
    RunsTo p cfg .exited out := by
  obtain ⟨n, s, hsteps, hexited, hout⟩ := h
  refine ⟨n, s, hout, ?_⟩
  intro limit hlimit
  obtain ⟨m, hrun⟩ := run_of_steps hsteps hlimit
  rw [hrun, runWithin, if_pos hexited]

theorem runsTo_of_crashes {out : Bytes} (h : Crashes p cfg (State.start p cfg none) out) :
    ∃ line, RunsTo p cfg (.failed (.atLine line .lw (.access (.badAddress 0)))) out := by
  obtain ⟨n, s₁, s₂, i, hsteps, hrunning, hstep, hfetch, hop, hout⟩ := h
  refine ⟨i.line, n, s₂, hout, ?_⟩
  intro limit hlimit
  obtain ⟨m, hrun⟩ := run_of_steps hsteps hlimit
  have hcount : s₁.steps = 0 + n := hsteps.count
  have hstep : step p { cfg with maxSteps := limit } s₁ = _ := hstep
  have hgo : ¬ (0 < limit ∧ limit ≤ s₁.steps) := by omega
  rw [hrun, runWithin, hrunning, hstep]
  simp only [hgo, if_false, Bool.false_and, Bool.false_eq_true, faultAt, hfetch, hop]

theorem runsOn_of_goesOn {k : Nat} {out : Bytes}
    (h : GoesOn p cfg (k + 1) (State.start p cfg none) out) : RunsOn p cfg k out := by
  obtain ⟨n, s, hk, hsteps, hrunning, hout⟩ := h
  refine ⟨n, s, hk, hout, ?_⟩
  have hcount : s.steps = 0 + n := hsteps.count
  have hstart : (State.start p cfg none).steps = 0 := rfl
  have hrun := runWithin_of_steps hsteps (.inr (by omega : _ ≤ (n : Int))) 1
  have hover : 0 < (n : Int) ∧ (n : Int) ≤ s.steps := by omega
  rw [run, if_pos (show 0 < (n : Int) by omega)]
  show runWithin p _ false (n + 1) _ = _
  rw [Nat.add_comm, hrun, runWithin, hrunning]
  simp only [hover, if_true, Bool.false_eq_true, if_false, and_self]
  rw [hcount, Nat.zero_add]

/-- What the machine does from the start on, it does in a run. -/
theorem agrees_of_follows {k pc : Nat} {x : Except Halt Bytes}
    (hexit : LiesAt p pc Support.exit)
    (h : Follows p cfg (k + 1) (State.start p cfg none) x pc fun out V' => V'.out = out) :
    Agrees p cfg k x := by
  cases x with
  | ok out =>
    obtain ⟨n, s, V', hsteps, hs, hout⟩ := h
    obtain ⟨s₁, hstep₁, hs₁⟩ := moves_result hexit.1 (by decide) rfl s hs
    obtain ⟨s₂, hstep₂, hexited, hout'⟩ := step_exit hs₁ hexit.2.1 rfl
    have hend : Steps p cfg 2 s s₂ := .head hs.running hstep₁ (.head hs₁.running hstep₂ (.refl s₂))
    exact runsTo_of_exits ⟨2 + n, s₂, hsteps.trans hend, hexited, hout'.trans hout⟩
  | error halt =>
    obtain ⟨cause, out⟩ := halt
    cases cause with
    | nullPointer => exact runsTo_of_exits h
    | outOfBounds => exact runsTo_of_exits h
    | nullLength => exact runsTo_of_crashes h
    | timeout => exact runsOn_of_goesOn h
    | stuck => trivial
    | exhausted => trivial

/-- A run of a program whose image starts with its `main` does what the interpreter does. -/
theorem agrees_interpret {prog : Program} {m : MainClass} {b : Budget}
    (hS : Setting p cfg m prog.classes b) (hdata : p.data = Support.messages)
    (hentry : p.entry = Assembler.entryName) (hmain : prog.main = some m)
    (hwritten : prog.Written) {start : Code} {n n' : Nat}
    (hstart : MainCode (tableOf m prog.classes) m.info n m start n') (hlies : LiesAt p 0 start)
    (fuel : Nat) : Agrees p cfg fuel (interpret prog b fuel) := by
  have hapart := hS.apart
  obtain ⟨hinfo, hbody⟩ := hstart
  simp only [List.append_assoc, liesAt_append] at hlies
  obtain ⟨⟨hlabel, hframe, hmove, -⟩, hliesBody, -, hexit, -⟩ := hlies
  obtain ⟨V, hs, hsp, hheap, hout⟩ := @at_start p cfg 0 hdata (hentry ▸ hlabel) (by omega)
  have hleads := leads_interpret hS hmain hwritten hinfo hbody ⟨hframe, hmove, hliesBody⟩ hsp hheap
    hout fuel
  exact agrees_of_follows hexit (hleads _ hs)

end Runs

end MiniJava.Simulation

namespace MiniJava

open Machine Semantics Simulation

/-- A source that is compiled assembles, and on every machine that has room for what the interpreter
may use, a run of it does what the interpreter does. -/
theorem compile_preserves (source text : Bytes) (hsmall : source.length < 0x4000000)
    (hshort : (Program.parse source).program.NamesShort) (h : compile source = .ok text) :
    ∃ image, assemble text = .ok image ∧ ∀ (cfg : Config) (b : Budget) (fuel : Nat), Room cfg b →
      Agrees image cfg fuel (interpret (Program.parse source).program b fuel) := by
  obtain ⟨p, m, start, others, g, g', -, rfl, hweight, hc, -, rfl⟩ := compile_spec h
  have hbound : (Program.parse source).program.weight ≤ 0x4000000 := by omega
  have hasm := hc.assemblable hbound hshort
  refine ⟨_, assemble_text hasm, ?_⟩
  intro cfg b fuel hroom
  have hlies : LiesAt (Code.image (start ++ others ++ Support.routines)) 0 start := by
    have hnodup := hasm.nodup
    rw [List.append_assoc] at hnodup ⊢
    exact @liesAt_image [] start (others ++ Support.routines) hnodup
  exact agrees_interpret ⟨hroom, hc.declared, hc.linked hbound hshort⟩ rfl rfl hc.main hc.written
    hc.start hlies fuel

/-- A program with a method that calls itself, a field that hides another one, and an index out of
bounds. -/
def faulting : Bytes :=
  "class A\x7bpublic static void main(String[] a)\x7bSystem.out.println(new C().m(4));" ++
    "System.out.println(new C().t(2));\x7d\x7dclass B\x7bint x;public int m(int n)\x7bint r;" ++
    "if(n<1)r=1;else r=n*this.m(n-1);x=r;return x;\x7d\x7dclass C extends B\x7bint[] x;" ++
    "public int t(int n)\x7bx=new int[n];x[0]=this.m(n);System.out.println(x[0]);return x[n];\x7d\x7d"

theorem compile_preserves_faulting :
    ∃ text image, compile faulting = .ok text ∧ assemble text = .ok image ∧
      RunsTo image Config.default .exited "24\n2\nIndex out of bound exception\n" := by
  have haccepted : (compile faulting).toBool := by decide +kernel
  have hnames : (Program.parse faulting).program.NamesShort := by decide +kernel
  have hroom : Room Config.default ⟨200, 200, by decide⟩ := ⟨by decide, by decide, by decide⟩
  have hinterpret : interpret (Program.parse faulting).program ⟨200, 200, by decide⟩ 10 =
      .error ⟨.outOfBounds, "24\n2\n"⟩ := by decide +kernel
  cases hcompile : compile faulting with
  | error e =>
    rw [hcompile] at haccepted
    cases haccepted
  | ok text =>
    obtain ⟨image, hassemble, hagrees⟩ :=
      compile_preserves faulting text (by decide +kernel) hnames hcompile
    -- the interpreter has run already, so the program need not be known any more
    generalize (Program.parse faulting).program = p at hagrees hinterpret
    have hruns := hagrees Config.default _ 10 hroom
    rw [hinterpret] at hruns
    exact ⟨text, image, rfl, hassemble, hruns⟩

end MiniJava
