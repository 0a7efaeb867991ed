import MiniJava.Proofs.Simulation.Expressions

/-!
# Statements

The machine follows the interpreter through the code of a statement.

* **`Leads.test`**, **`Leads.checkAssigned`**, **`Leads.setElement`**, **`Leads.assignElement`** —
  the parts of statements.
* **`leads_repeatWhile`** — loops, by induction on the turns that they may take.
* **`TracksStmt`** — the machine follows the interpreter through the code of a statement; there is
  one lemma for each form of statement.
* **`leads_exec`** — the whole statement.
-/

namespace MiniJava.Simulation

open Instr Machine Semantics

/-! ### Parts of statements -/

section Parts

variable {p : Image} {cfg : Config} {m : MainClass} {cs : List ClassDecl} {b : Budget} {d : Nat}
  {w : World} {k pc pc' : Nat} {V : View} {α : Type} {x : Except Halt α} {post : α → View → Prop}

/-- A branch goes to its label if the number in the accumulator is zero. -/
theorem Leads.test {v : Value} {n : Int32} (hn : v.number? = some n) (ha : V.reg Reg.a0 = word v)
    {l : Bytes} {target : Nat} (hi : Fetches p pc (branch .beq Reg.a0 Reg.zero l))
    (hl : p.textLabels.lookup l = some (target : Int))
    (hzero : n = 0 → Leads p cfg k target V x pc' post)
    (hother : n ≠ 0 → Leads p cfg k (pc + 1) V x pc' post) : Leads p cfg k pc V x pc' post := by
  refine Leads.of_zero fun hz => ?_
  have htaken : V.taken (branch .beq Reg.a0 Reg.zero l) = some (word v == 0) := by
    show some (V.reg Reg.a0 == V.reg Reg.zero) = _
    rw [ha, hz]
  by_cases hword : word v = 0
  · rw [beq_iff_eq.mpr hword] at htaken
    exact Leads.step (moves_taken hi htaken hl) (hzero ((word_eq_zero_iff hn).mp hword))
  · rw [beq_eq_false_iff_ne.mpr hword] at htaken
    refine Leads.step (moves_onward hi htaken) (hother fun h => hword ?_)
    exact (word_eq_zero_iff hn).mpr h

/-- Null is not assigned to a variable whose values are references. -/
theorem Leads.checkAssigned (hS : Setting p cfg m cs b) {type : Ty} {v : Value}
    (ha : V.reg Reg.a0 = word v) (hout : V.out = w.output)
    (hlies : LiesAt p pc (if type.isReference then Code.nullCheck Reg.a0 else []))
    {g : Unit → Except Halt α}
    (h : Leads p cfg k (pc + Code.size (if type.isReference then Code.nullCheck Reg.a0 else [])) V
      (g ()) pc' post) :
    Leads p cfg k pc V (Semantics.checkAssigned w type v >>= g) pc' post := by
  unfold Semantics.checkAssigned
  cases href : type.isReference with
  | false =>
    rw [href] at h
    exact h
  | true =>
    rw [href] at h hlies
    simp only [if_true] at h hlies ⊢
    cases v with
    | null => exact Leads.isNull hS hlies ha hout
    | object r => exact Leads.notNull hlies (ha ▸ heapAddress_ne_zero r) h
    | array r => exact Leads.notNull hlies (ha ▸ heapAddress_ne_zero r) h
    | int n => exact Leads.stuck w
    | bool v => exact Leads.stuck w

/-- The element of an array is written. -/
theorem Leads.setElement (hS : Setting p cfg m cs b) (hshows : Shows (tableOf m cs) cs w V)
    (hlies : LiesAt p pc Gen.writeElement) (hsp : V.reg Reg.sp = stackAddress (d + 2))
    (hd : 4 * (d + 2) ≤ cfg.stackBytes) {array index value : Value}
    (harray : V.reg Reg.a0 = word array) (hindex : V.stack d = word index)
    (hvalue : V.stack (d + 1) = word value) :
    Leads p cfg k pc V (Semantics.setElement cs w array index value) (pc + 9) fun w' V' =>
      Stays d (V.set Reg.sp (stackAddress d)) V' ∧ Shows (tableOf m cs) cs w' V' := by
  obtain ⟨hnull, hload, hlength, hcheck, hshift, hadd, hload', hwrite, hpop, -⟩ := hlies
  cases array with
  | null =>
    simp only [Semantics.setElement]
    exact Leads.isNull hS ⟨hnull, trivial⟩ harray hshows.out
  | array r =>
    refine Leads.notNull ⟨hnull, trivial⟩ (harray ▸ heapAddress_ne_zero r) ?_
    cases hi : index.number? with
    | none =>
      simp only [Semantics.setElement, hi]
      exact Leads.stuck w
    | some i =>
      cases hn : value.number? with
      | none =>
        simp only [Semantics.setElement, hi, hn]
        exact Leads.stuck w
      | some n =>
        simp only [Semantics.setElement, hi, hn]
        split
        · rename_i elements hcell
          have hplace : V.reg Reg.sp + UInt32.ofInt 8 = stackAddress d := by
            rw [hsp]
            exact stackAddress_offset (by omega)
          refine Leads.step (moves_lw_stack hload (by decide) hplace (by omega)) ?_
          refine Leads.checkBounds hS (hshows.congr rfl rfl) hcell hlength hcheck harray
            (hindex.trans (word_number hi)) ?_ ?_
          · intro hin
            obtain ⟨hlt, hshows'⟩ := hshows.setElement hcell hin.2 n
            rw [if_pos hin]
            refine Leads.step (moves_result hshift (by decide) rfl) ?_
            refine Leads.step
              (moves_result (u := heapAddress (r + i.toInt.toNat)) hadd (by decide) ?_) ?_
            · show some ((V.stack d <<< (UInt32.ofInt 2 &&& 31)) + V.reg Reg.a0) = _
              rw [hindex, harray, word_number hi]
              exact congrArg some (heapAddress_shifted hin.1 r)
            have htop : V.reg Reg.sp + UInt32.ofInt 4 = stackAddress (d + 1) := by
              rw [hsp]
              exact stackAddress_offset (by omega)
            refine Leads.step (moves_lw_stack hload' (by decide) htop (by omega)) ?_
            refine Leads.step (moves_sw_heap hwrite (heapAddress_offset (by omega)) hlt) ?_
            refine Leads.pop (n := 2) (d := d) hpop hsp ?_
            refine Leads.done rfl ⟨⟨rfl, rfl, fun j _ => rfl⟩, ?_⟩
            rw [← word_number hn, ← hvalue] at hshows'
            exact hshows'.congr rfl rfl
          · intro hout
            rw [if_neg hout]
        · exact Leads.stuck w
  | _ => exact Leads.stuck w

end Parts

/-! ### Loops and elements -/

section Execution

/-- A statement is done: the code of the body may go on, and only the variables of its call have
changed on the stack. -/
structure Passed (cfg : Config) (m : MainClass) (cs : List ClassDecl) (rt : Routine) (f depth : Nat)
    (V : View) (result : Activation × World) (V' : View) : Prop where
  ready : Ready cfg m cs rt result.1 f depth result.2 V'
  spares : Spares rt f depth V V'

variable {p : Image} {cfg : Config} {m : MainClass} {cs : List ClassDecl} {b : Budget}
  {sc : Scope} {rt : Routine} {invoke : Invoke} {k : Nat} {act : Activation} {f depth : Nat}
  {w : World} {V V₁ V₂ : View}

/-- What an expression has done before a statement goes on. -/
theorem Passed.after {result : Activation × World} {r : Value × World}
    (hy : Yields m cs depth V r V₁) (h : Passed cfg m cs rt f depth V₁ result V₂) :
    Passed cfg m cs rt f depth V result V₂ :=
  ⟨h.ready, hy.stays.spares.trans h.spares⟩

/-- A loop whose test and body the machine follows. -/
theorem leads_repeatWhile {test : Activation → World → Except Halt (Value × World)}
    {body : Activation → World → Except Halt (Activation × World)} {pc pc₁ pc₂ pc' : Nat}
    {top done : Bytes} (htop : p.textLabels.lookup top = some (pc : Int))
    (htest : ∀ act w V, Ready cfg m cs rt act f depth w V →
      Leads p cfg k pc V (test act w) pc₁ (Yields m cs depth V))
    (hbranch : Fetches p pc₁ (branch .beq Reg.a0 Reg.zero done))
    (hbody : ∀ act w V, Ready cfg m cs rt act f depth w V →
      Leads p cfg k (pc₁ + 1) V (body act w) pc₂ (Passed cfg m cs rt f depth V))
    (hjump : Fetches p pc₂ (jump .j top))
    (hdone : p.textLabels.lookup done = some (pc' : Int)) {n : Nat} (hn : n ≤ k)
    (hready : Ready cfg m cs rt act f depth w V) :
    Leads p cfg n pc V (repeatWhile test body n act w) pc' (Passed cfg m cs rt f depth V) := by
  -- every turn ends with a jump, so that a turn less is left for one step more
  induction n generalizing act w V with
  | zero =>
    rw [repeatWhile]
    exact Leads.timeout hready.shows.out
  | succ n ih =>
    rw [repeatWhile]
    refine Leads.bind ((htest act w V hready).mono hn) ?_
    rintro ⟨v, w₁⟩ V₁ hv
    have hready₁ := hv.ready hready
    dsimp only
    split
    · rename_i value hnumber
      refine Leads.test hnumber hv.value hbranch hdone ?_ ?_
      · intro hzero
        rw [if_pos hzero]
        exact Leads.done rfl ⟨hready₁, hv.stays.spares⟩
      · intro hother
        rw [if_neg hother]
        refine Leads.bind ((hbody act w₁ V₁ hready₁).mono hn) ?_
        rintro ⟨act₂, w₂⟩ V₂ hpassed
        refine Leads.tick (moves_taken hjump rfl htop) ?_
        refine Leads.imp (ih (by omega) hpassed.ready) rfl ?_
        intro result V₃ h
        exact ⟨h.ready, hv.stays.spares.trans (hpassed.spares.trans h.spares)⟩
    · exact Leads.stuck w₁

/-- An element of the array in a variable is assigned; its index waits on the stack, and its value
is in the accumulator. -/
theorem Leads.assignElement {pc : Nat} (hS : Setting p cfg m cs b) (hst : Stands m cs sc rt)
    (hready : Ready cfg m cs rt act f depth w V) {index value array : Value} {w₁ : World}
    (hindex : V₁.stack depth = word index)
    (hvalue : Yields m cs depth (V.set Reg.sp (stackAddress (depth + 1))) (value, w₁) V₁)
    {v : Variable} {binding : Binding} (hmeans : v.Means cs binding)
    (harray : read? cs act w₁ binding = some array) (hroom : 4 * (depth + 2) ≤ cfg.stackBytes)
    (hpush : LiesAt p pc (Code.push Reg.a0)) (hload : LiesAt p (pc + 2) (sc.load v))
    (hwrite : LiesAt p (pc + 2 + (sc.load v).size) Gen.writeElement) :
    Leads p cfg k pc V₁ (Semantics.setElement cs w₁ array index value)
      (pc + 2 + (sc.load v).size + 9) fun w₂ V₂ =>
        Stays depth V V₂ ∧ Shows (tableOf m cs) cs w₂ V₂ := by
  have hready₁ := hvalue.readyAbove hready
  refine Leads.push hpush hready₁.sp hroom ?_
  refine Leads.load (d := depth + 2) hS.declared hst (hready₁.push _) hmeans harray hload ?_
  intro V₂ hword hstill
  have hsame : ∀ j < depth + 1, V₂.stack j = V₁.stack j := fun j hj =>
    (hstill.stack j (Nat.lt_succ_of_lt hj)).trans (if_neg (Nat.ne_of_lt hj))
  have hwaits : V₂.stack depth = word index :=
    (hsame depth (Nat.lt_succ_self depth)).trans hindex
  have hwaits' : V₂.stack (depth + 1) = word value :=
    (hstill.stack _ (Nat.lt_succ_self _)).trans ((if_pos rfl).trans hvalue.value)
  refine Leads.imp (Leads.setElement (d := depth) hS (hvalue.shows.congr hstill.heap hstill.out)
    hwrite hstill.sp hroom hword hwaits hwaits') rfl ?_
  rintro w₂ V₃ ⟨hstays, hshows⟩
  refine ⟨⟨hstays.sp.trans hready.sp.symm, ?_, ?_⟩, hshows⟩
  · exact hstays.fp.trans (hstill.fp.trans hvalue.stays.fp)
  · intro j hj
    refine (hstays.stack j hj).trans ((hsame j (Nat.lt_succ_of_lt hj)).trans ?_)
    exact hvalue.stays.stack j hj

/-! ### The forms of statements -/

section Forms

variable (p cfg m cs b rt invoke k)

/-- Wherever the code lies, the machine follows the interpreter through it to the end of the
statement. -/
def TracksStmt (s : Stmt) (code : Code) : Prop :=
  ∀ {act : Activation} {f depth pc : Nat} {w : World} {V : View}, LiesAt p pc code →
    Ready cfg m cs rt act f depth w V →
    Leads p cfg k pc V (exec cs b rt invoke k depth s act w) (pc + code.size)
      (Passed cfg m cs rt f depth V)

/-- The same for statements one after another. -/
def TracksStmts (ss : List Stmt) (code : Code) : Prop :=
  ∀ {act : Activation} {f depth pc : Nat} {w : World} {V : View}, LiesAt p pc code →
    Ready cfg m cs rt act f depth w V →
    Leads p cfg k pc V (execAll cs b rt invoke k depth ss act w) (pc + code.size)
      (Passed cfg m cs rt f depth V)

variable {p cfg m cs b rt invoke k} {t : Token} {c i e : Expr} {s s' : Stmt} {ss : List Stmt}
  {test index value code code' : Code} {x : Ident} {v : Variable} {l l' : Bytes}

theorem tracksStmt_block (hss : TracksStmts p cfg m cs b rt invoke k ss code) :
    TracksStmt p cfg m cs b rt invoke k (.block t ss) code := by
  intro act f depth pc w V hlies hready
  rw [exec]
  exact hss hlies hready

theorem tracksStmt_cond (hc : Tracks p cfg m cs b rt invoke k c test)
    (hs : TracksStmt p cfg m cs b rt invoke k s code)
    (hs' : TracksStmt p cfg m cs b rt invoke k s' code') :
    TracksStmt p cfg m cs b rt invoke k (.cond t c s s')
      (test ++ [Code.one (branch .beq Reg.a0 Reg.zero l)] ++ code ++
        [Code.one (jump .j l'), .label l] ++ code' ++ [.label l']) := by
  intro act f depth pc w V hlies hready
  simp only [List.append_assoc, liesAt_append] at hlies
  obtain ⟨htest, hbranch, hthen, ⟨hjump, hotherwise, -⟩, helse, hdone, -⟩ := hlies
  rw [exec]
  refine Leads.bind (hc htest hready) ?_
  rintro ⟨v, w₁⟩ V₁ hv
  have hready₁ := hv.ready hready
  dsimp only
  split
  · rename_i value hnumber
    refine Leads.test hnumber hv.value hbranch.1 hotherwise ?_ ?_
    · intro hzero
      rw [if_pos hzero]
      refine Leads.imp (hs' helse hready₁) ?_ ?_
      · simp; omega
      · exact fun _ _ h => h.after hv
    · intro hother
      rw [if_neg hother]
      refine Leads.seq (hs hthen hready₁) ?_
      intro result V₂ h
      refine Leads.step (moves_taken hjump rfl hdone) ?_
      refine Leads.done ?_ (h.after hv)
      simp; omega
  · exact Leads.stuck w₁

theorem tracksStmt_loop (hc : Tracks p cfg m cs b rt invoke k c test)
    (hs : TracksStmt p cfg m cs b rt invoke k s code) :
    TracksStmt p cfg m cs b rt invoke k (.loop t c s)
      (.label l :: test ++ [Code.one (branch .beq Reg.a0 Reg.zero l')] ++ code ++
        [Code.one (jump .j l), .label l']) := by
  intro act f depth pc w V hlies hready
  simp only [List.append_assoc, liesAt_append, Code.size_label] at hlies
  obtain ⟨⟨htop, htest⟩, ⟨hbranch, -⟩, hbody, hjump, hdone, -⟩ := hlies
  rw [exec]
  refine Leads.imp (leads_repeatWhile htop ?_ hbranch ?_ hjump hdone (Nat.le_refl k) hready) ?_ ?_
  · exact fun _ _ _ hready => hc htest hready
  · exact fun _ _ _ hready => hs hbody hready
  · simp; omega
  · exact fun _ _ h => h

theorem tracksStmt_print (hS : Setting p cfg m cs b)
    (he : Tracks p cfg m cs b rt invoke k e code) :
    TracksStmt p cfg m cs b rt invoke k (.print t e)
      (code ++ [Code.one (jump .jal Support.printInt)]) := by
  intro act f depth pc w V hlies hready
  rw [liesAt_append] at hlies
  rw [exec]
  refine Leads.bind (he hlies.1 hready) ?_
  rintro ⟨v, w₁⟩ V₁ hv
  dsimp only
  split
  · rename_i value hnumber
    refine Leads.printInt (d := depth) hS hlies.2.1 ?_
    intro V₂ hstays hheap hout
    rw [hv.value, signed_word hnumber, hv.shows.out] at hout
    have hshows : Shows (tableOf m cs) cs
        { w₁ with output := w₁.output ++ decimal value.toInt ++ "\n" } V₂ :=
      ⟨hheap.trans hv.shows.heap, hout⟩
    refine Leads.done (by simp; omega) ⟨(hv.ready hready).stays hstays hshows, ?_⟩
    exact (hv.stays.trans hstays).spares
  · exact Leads.stuck w₁

theorem tracksStmt_assign (hS : Setting p cfg m cs b) (hst : Stands m cs sc rt)
    (hx : sc.lookup? x.name = some v) (he : Tracks p cfg m cs b rt invoke k e code) :
    TracksStmt p cfg m cs b rt invoke k (.assign t x e)
      (code ++ (if v.type.isReference then Code.nullCheck Reg.a0 else []) ++ sc.store v) := by
  intro act f depth pc w V hlies hready
  simp only [List.append_assoc, liesAt_append] at hlies
  obtain ⟨hcode, hcheck, hstore⟩ := hlies
  obtain ⟨binding, hbinding, hmeans⟩ := hst.names _ _ hx
  rw [exec]
  simp only [hbinding]
  refine Leads.bind (he hcode hready) ?_
  rintro ⟨v, w₁⟩ V₁ hv
  refine Leads.checkAssigned hS hv.value hv.shows.out hcheck ?_
  cases hwrite : write? cs act w₁ v binding with
  | none => exact Leads.stuck w₁
  | some result =>
    refine Leads.store (d := depth) hS.declared hst (hv.ready hready) hmeans hwrite hv.value
      hstore ?_
    intro V₂ hready₂ hspares
    refine Leads.done ?_ ⟨hready₂, hv.stays.spares.trans hspares⟩
    simp; omega

theorem tracksStmt_assignElem (hS : Setting p cfg m cs b) (hst : Stands m cs sc rt)
    (hx : sc.lookup? x.name = some v) (hi : Tracks p cfg m cs b rt invoke k i index)
    (he : Tracks p cfg m cs b rt invoke k e value) :
    TracksStmt p cfg m cs b rt invoke k (.assignElem t x i e)
      (index ++ Code.push Reg.a0 ++ value ++ Code.push Reg.a0 ++ sc.load v ++
        Gen.writeElement) := by
  intro act f depth pc w V hlies hready
  simp only [List.append_assoc, liesAt_append] at hlies
  obtain ⟨hindex, hpush, hvalue, hpush', hload, hwrite⟩ := hlies
  obtain ⟨binding, hbinding, hmeans⟩ := hst.names _ _ hx
  rw [exec]
  simp only [hbinding, Option.bind_some]
  refine Leads.bind (hi hindex hready) ?_
  rintro ⟨index, w₁⟩ V₁ hx
  refine Leads.waiting hS hready hx hpush (fun _ hready₁ => he hvalue hready₁) ?_
  intro value w₂ V₂ _ hwaits hy
  refine Leads.reserve fun hroom => ?_
  have hstack := hS.stack
  dsimp only
  split
  · rename_i array harray
    refine Leads.bind (Leads.assignElement hS hst hready hwaits hy hmeans harray (by omega) hpush'
      hload hwrite) ?_
    rintro w₃ V₃ ⟨hstays, hshows⟩
    refine Leads.done ?_ ⟨hready.stays hstays hshows, hstays.spares⟩
    simp; omega
  · exact Leads.stuck w₂

theorem tracksStmts_nil : TracksStmts p cfg m cs b rt invoke k [] [] := by
  intro act f depth pc w V hlies hready
  rw [execAll]
  exact Leads.done rfl ⟨hready, rfl, rfl, fun j _ _ => rfl⟩

theorem tracksStmts_cons (hs : TracksStmt p cfg m cs b rt invoke k s code)
    (hss : TracksStmts p cfg m cs b rt invoke k ss code') :
    TracksStmts p cfg m cs b rt invoke k (s :: ss) (code ++ code') := by
  intro act f depth pc w V hlies hready
  rw [liesAt_append] at hlies
  rw [execAll]
  refine Leads.bind (hs hlies.1 hready) ?_
  rintro ⟨act₁, w₁⟩ V₁ hfirst
  refine Leads.imp (hss hlies.2 hfirst.ready) ?_ ?_
  · simp; omega
  · exact fun _ _ h => ⟨h.ready, hfirst.spares.trans h.spares⟩

end Forms

/-! ### Statements -/

mutual

/-- The machine follows the interpreter through the code of a statement. -/
theorem leads_exec (hS : Setting p cfg m cs b) (hst : Stands m cs sc rt)
    (hcalls : Calls p cfg m cs k invoke) {n n' : Nat} {s : Stmt} {code : Code} :
    StmtCode sc n s code n' → s.Written → TracksStmt p cfg m cs b rt invoke k s code
  | .block hss, hwritten => tracksStmt_block (leads_execAll hS hst hcalls hss hwritten.2)
  | .cond hc ha hb, hwritten =>
    tracksStmt_cond (leads_eval hS hst hcalls hc hwritten.2.1)
      (leads_exec hS hst hcalls ha hwritten.2.2.1) (leads_exec hS hst hcalls hb hwritten.2.2.2)
  | .loop hc hb, hwritten =>
    tracksStmt_loop (leads_eval hS hst hcalls hc hwritten.2.1)
      (leads_exec hS hst hcalls hb hwritten.2.2)
  | .print he, hwritten => tracksStmt_print hS (leads_eval hS hst hcalls he hwritten.2)
  | .assign he hx, hwritten =>
    tracksStmt_assign hS hst hx (leads_eval hS hst hcalls he hwritten.2.2)
  | .assignElem hx _ hi he, hwritten =>
    tracksStmt_assignElem hS hst hx (leads_eval hS hst hcalls hi hwritten.2.2.1)
      (leads_eval hS hst hcalls he hwritten.2.2.2)

/-- The machine follows the interpreter through the code of statements. -/
theorem leads_execAll (hS : Setting p cfg m cs b) (hst : Stands m cs sc rt)
    (hcalls : Calls p cfg m cs k invoke) {n n' : Nat} {ss : List Stmt} {code : Code} :
    StmtsCode sc n ss code n' → Stmt.AllWritten ss → TracksStmts p cfg m cs b rt invoke k ss code
  | .nil, _ => tracksStmts_nil
  | .cons hs hss, hwritten =>
    tracksStmts_cons (leads_exec hS hst hcalls hs hwritten.1)
      (leads_execAll hS hst hcalls hss hwritten.2)

end

end Execution

end MiniJava.Simulation
