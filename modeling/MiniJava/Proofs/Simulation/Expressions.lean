import MiniJava.Proofs.Simulation.Frames

/-!
# Expressions

The machine follows the interpreter through the code of an expression.

* **`typeOf_of_exprCode`** — the compiler and the interpreter give an expression the same type.
* **`Leads.combine`**, **`Leads.checkBounds`**, **`Leads.element`**, **`Leads.lengthOf`** —
  operators and arrays.
* **`Calls`**, **`Leads.call`** — what the machine has to do when the interpreter calls a method.
* **`Tracks`** — the machine follows the interpreter through the code of an expression; there is one
  lemma for each form of expression.
* **`leads_eval`** — the whole statement.
-/

namespace MiniJava.Simulation

open Instr Machine Semantics

/-! ### Types -/

section Types

variable {m : MainClass} {cs : List ClassDecl} {sc : Scope} {rt : Routine}

/-- The method that the compiler calls is the one that the interpreter calls. -/
theorem methodNamed?_of_find? (hw : WellDeclared m cs) {c x : Bytes} {cls : ClassInfo}
    {target : Method} (hx : IsName x) (hfind : (tableOf m cs).find? c = some cls)
    (hmethod : (tableOf m cs).method? cls x = some target) :
    ∃ e d, methodNamed? cs c x = some (e, d) ∧ e ∈ cs ∧ d ∈ e.methods ∧
      target = d.info e.name.name := by
  obtain ⟨rfl, rfl | ⟨decl, hdecl, k, -, -, rfl⟩⟩ := find?_cases hfind
  · obtain rfl := eq_mainName_of_method? hmethod
    exact absurd hx.2 (by decide)
  · exact methodNamed?_of_method? hw hdecl hmethod

theorem typeOf_of_combine {t : Token} {op : BinaryOp} {l r : Expr} {type : Ty} {code : Code}
    (h : Gen.combine op = some (type, code)) : typeOf cs rt (.binary t op l r) = some type := by
  cases op with
  | other s => cases h
  | _ =>
    obtain ⟨rfl, -⟩ := Prod.mk.inj (Option.some.inj h)
    simp only [typeOf]

/-- The compiler and the interpreter give an expression the same type. -/
theorem typeOf_of_exprCode (hw : WellDeclared m cs) (hst : Stands m cs sc rt) {n n' : Nat}
    {e : Expr} {type : Ty} {code : Code} :
    ExprCode sc n e type code n' → e.Written → typeOf cs rt e = some type
  | .int, _ => by rw [typeOf]
  | .true, _ => by rw [typeOf]
  | .false, _ => by rw [typeOf]
  | .this hmain, _ => by rw [typeOf, hst.self hmain, Option.map_some]
  | .var hv, _ => by
    obtain ⟨binding, hbinding, -⟩ := hst.names _ _ hv
    rw [typeOf, hbinding, Option.map_some]
  | .not _, _ => by rw [typeOf]
  | .binary _ _ hop, _ => typeOf_of_combine hop
  | .index _ _, _ => by rw [typeOf]
  | .length _, _ => by rw [typeOf]
  | .newArray _, _ => by rw [typeOf]
  | .newObject hfind _, _ => by
    rw [hst.table] at hfind
    rw [typeOf, (find?_cases hfind).1]
  | .call hrecv hfind hmethod _ _, hwritten => by
    rw [hst.table] at hfind hmethod
    have hname := hwritten.2.2.1.name
    obtain ⟨e, d, hd, -, -, rfl⟩ := methodNamed?_of_find? hw hname hfind hmethod
    rw [typeOf, typeOf_of_exprCode hw hst hrecv hwritten.2.1]
    simp only [hd, Option.map_some]
    rfl

end Types

/-! ### Operators -/

section Operators

variable {p : Image} {cfg : Config} {m : MainClass} {cs : List ClassDecl} {b : Budget} {d : Nat}
  {w : World} {k pc pc' : Nat} {V : View} {α : Type} {x : Except Halt α} {post : α → View → Prop}

/-- The code of an operator computes. -/
theorem Leads.combine {op : BinaryOp} {type : Ty} {code : Code}
    (hop : Gen.combine op = some (type, code)) (hlies : LiesAt p pc code)
    (h : ∀ V', V'.reg Reg.a0 = combined op (V.reg Reg.t1) (V.reg Reg.a0) → Still d V V' →
      Leads p cfg k (pc + code.size) V' x pc' post) :
    Leads p cfg k pc V x pc' post := by
  cases op with
  | other s => cases hop
  | and | plus | minus =>
    obtain ⟨-, rfl⟩ := Prod.mk.inj (Option.some.inj hop)
    refine Leads.step (moves_result hlies.1 (by decide) rfl) ?_
    exact h _ rfl ⟨⟨rfl, rfl, fun j _ => rfl⟩, rfl, rfl⟩
  | less =>
    obtain ⟨-, rfl⟩ := Prod.mk.inj (Option.some.inj hop)
    refine Leads.of_zero fun hzero => ?_
    refine Leads.step (moves_result hlies.1 (by decide) rfl) ?_
    refine Leads.step (moves_result hlies.2.1 (by decide) rfl) ?_
    refine h _ ?_ ⟨⟨rfl, rfl, fun j _ => rfl⟩, rfl, rfl⟩
    show V.reg Reg.zero - _ = 0 - _
    rw [hzero]
    rfl
  | times =>
    obtain ⟨-, rfl⟩ := Prod.mk.inj (Option.some.inj hop)
    refine Leads.step (moves_mult hlies.1) ?_
    refine Leads.step (moves_result hlies.2.1 (by decide) rfl) ?_
    exact h _ rfl ⟨⟨rfl, rfl, fun j _ => rfl⟩, rfl, rfl⟩

/-! ### Arrays -/

/-- An index is out of bounds exactly if it is not less than the length when both are taken as
natural numbers. -/
theorem ofNat_le_toUInt32_iff {i : Int32} {n : Nat} (hn : n < 0x80000000) :
    UInt32.ofNat n ≤ i.toUInt32 ↔ ¬ (0 ≤ i ∧ i.toInt.toNat < n) := by
  have hlow := Int32.le_toInt i
  have hhigh := Int32.toInt_lt i
  have hzero : (0 : Int32) ≤ i ↔ 0 ≤ i.toInt := Int32.le_iff_toInt_le
  have hword : i.toUInt32.toNat = (i.toInt % 0x100000000).toNat := by
    rw [toUInt32_eq]
    show (UInt32.ofNat (i.toInt % 0x100000000).toNat).toNat = _
    rw [UInt32.toNat_ofNat_of_lt']
    show _ < 0x100000000
    omega
  rw [UInt32.le_iff_toNat_le, UInt32.toNat_ofNat_of_lt' (by show n < 0x100000000; omega), hword,
    hzero]
  omega

/-- The address of an element is computed from its index. -/
theorem heapAddress_shifted {i : Int32} (hi : 0 ≤ i) (r : Nat) :
    (i.toUInt32 <<< (UInt32.ofInt 2 &&& 31)) + heapAddress r = heapAddress (r + i.toInt.toNat) := by
  have hnonneg : 0 ≤ i.toInt := Int32.le_iff_toInt_le.mp hi
  rw [toUInt32_eq, shiftLeft_two, UInt32.add_comm]
  exact heapAddress_offset (by omega)

/-- An index is checked against the length of an array. -/
theorem Leads.checkBounds (hS : Setting p cfg m cs b) (hshows : Shows (tableOf m cs) cs w V)
    {r : Ref} {elements : List Int32} (hcell : cellAt? cs w.heap r = some (.array elements))
    {array index : Reg} (hlength : Fetches p pc (lw Reg.t2 0 array))
    (hcheck : Fetches p (pc + 1) (branch .bgeu index Reg.t2 Support.outOfBounds))
    (harray : V.reg array = heapAddress r) {i : Int32}
    (hindex : (V.set Reg.t2 (UInt32.ofNat elements.length)).reg index = i.toUInt32)
    (hin : 0 ≤ i ∧ i.toInt.toNat < elements.length →
      Leads p cfg k (pc + 2) (V.set Reg.t2 (UInt32.ofNat elements.length)) x pc' post)
    (hout : ¬ (0 ≤ i ∧ i.toInt.toNat < elements.length) → x = w.halt .outOfBounds) :
    Leads p cfg k pc V x pc' post := by
  have hword := hshows.length hcell
  have hsize := hshows.length_lt hcell
  have hbase : V.reg array + UInt32.ofInt 0 = heapAddress r := by
    rw [harray]
    exact heapAddress_offset (by omega)
  refine Leads.of_heap_le fun hheap => ?_
  refine Leads.step (moves_lw_heap hlength (by decide) hbase hword) ?_
  have hbounds := @ofNat_le_toUInt32_iff i elements.length (by omega)
  have htaken : (V.set Reg.t2 (UInt32.ofNat elements.length)).taken
      (branch .bgeu index Reg.t2 Support.outOfBounds) =
        some (decide (UInt32.ofNat elements.length ≤ i.toUInt32)) := by
    rw [← hindex]
    rfl
  by_cases hi : 0 ≤ i ∧ i.toInt.toNat < elements.length
  · rw [decide_eq_false (fun hle => hbounds.mp hle hi)] at htaken
    exact Leads.step (moves_onward hcheck htaken) (hin hi)
  · rw [decide_eq_true (hbounds.mpr hi)] at htaken
    rw [hout hi]
    exact Leads.outOfBounds hS hcheck rfl htaken hshows.out

/-- The element of an array is read. -/
theorem Leads.element (hS : Setting p cfg m cs b) (hshows : Shows (tableOf m cs) cs w V)
    (hlies : LiesAt p pc Gen.readElement) (hsp : V.reg Reg.sp = stackAddress (d + 1))
    (hd : 4 * (d + 1) ≤ cfg.stackBytes) {array index : Value} (harray : V.stack d = word array)
    (hindex : V.reg Reg.a0 = word index) :
    Leads p cfg k pc V (Semantics.element cs w array index) (pc + 8) fun result V' =>
      V'.reg Reg.a0 = word result ∧ Still d (V.set Reg.sp (stackAddress d)) V' := by
  obtain ⟨hload, hpop, hnull, hlength, hcheck, hshift, hadd, hread, -⟩ := hlies
  have htop : V.reg Reg.sp + UInt32.ofInt 4 = stackAddress d := by
    rw [hsp]
    exact stackAddress_offset (by omega)
  refine Leads.step (moves_lw_stack hload (by decide) htop hd) ?_
  refine Leads.pop (n := 1) (d := d) hpop hsp ?_
  rw [harray]
  cases array with
  | null =>
    simp only [Semantics.element]
    exact Leads.isNull hS ⟨hnull, trivial⟩ rfl hshows.out
  | array r =>
    refine Leads.notNull ⟨hnull, trivial⟩ (heapAddress_ne_zero r) ?_
    cases hn : index.number? with
    | none =>
      simp only [Semantics.element, hn]
      exact Leads.stuck w
    | some i =>
      simp only [Semantics.element, hn]
      split
      · rename_i elements hcell
        refine Leads.checkBounds hS (hshows.congr rfl rfl) hcell hlength hcheck rfl
          (hindex.trans (word_number hn)) ?_ ?_
        · rintro ⟨hnonneg, hlt⟩
          have helement := hshows.element hcell (List.getElem?_eq_getElem hlt)
          rw [if_pos hnonneg, List.getElem?_eq_getElem hlt]
          refine Leads.step (moves_result hshift (by decide) rfl) ?_
          refine Leads.step
            (moves_result (u := heapAddress (r + i.toInt.toNat)) hadd (by decide) ?_) ?_
          · show some ((V.reg Reg.a0 <<< (UInt32.ofInt 2 &&& 31)) + heapAddress r) = _
            rw [hindex, word_number hn, heapAddress_shifted hnonneg]
          refine Leads.step (moves_lw_heap hread (by decide) ?_ helement) ?_
          · exact heapAddress_offset (by omega)
          exact Leads.done rfl ⟨rfl, ⟨rfl, rfl, fun j _ => rfl⟩, rfl, rfl⟩
        · intro hout
          by_cases hnonneg : 0 ≤ i
          · have hle := Nat.le_of_not_lt fun hlt => hout ⟨hnonneg, hlt⟩
            rw [if_pos hnonneg, List.getElem?_eq_none hle]
          · rw [if_neg hnonneg]
      · exact Leads.stuck w
  | _ => exact Leads.stuck w

/-- The length of an array is read. -/
theorem Leads.lengthOf (hshows : Shows (tableOf m cs) cs w V)
    (hi : Fetches p pc (lw Reg.a0 0 Reg.a0)) {array : Value} (ha : V.reg Reg.a0 = word array) :
    Leads p cfg k pc V (Semantics.lengthOf cs w array) (pc + 1) fun result V' =>
      V'.reg Reg.a0 = word result ∧ Still d V V' := by
  cases array with
  | null =>
    simp only [Semantics.lengthOf]
    intro s hs
    have hzero : V.reg Reg.a0 + UInt32.ofInt 0 = 0 := by
      rw [ha]
      rfl
    obtain ⟨line, s', hstep, hs', hfetch⟩ := step_lw_null hs hi hzero
    exact ⟨0, s, s', _, .refl s, hs.running, hstep, hfetch, rfl, hs'.printed.trans hshows.out⟩
  | array r =>
    simp only [Semantics.lengthOf]
    split
    · rename_i elements hcell
      have hbase : V.reg Reg.a0 + UInt32.ofInt 0 = heapAddress r := by
        rw [ha]
        exact heapAddress_offset (by omega)
      refine Leads.step (moves_lw_heap hi (by decide) hbase (hshows.length hcell)) ?_
      exact Leads.done rfl ⟨rfl, ⟨rfl, rfl, fun j _ => rfl⟩, rfl, rfl⟩
    · exact Leads.stuck w
  | _ => exact Leads.stuck w

end Operators

/-! ### Calls -/

section Calls

variable (p : Image) (cfg : Config) (m : MainClass) (cs : List ClassDecl)

/-- A method is about to be called: from the word `base` of the stack on lie the caller's frame
pointer, the receiver, and the arguments with the last one first. -/
structure Called (r : Ref) (args : List Value) (base : Nat) (w : World) (V : View) : Prop where
  sp : V.reg Reg.sp = stackAddress (base + 2 + args.length)
  receiver : V.stack (base + 1) = heapAddress r
  args : ∀ i v, args[i]? = some v → V.stack (base + 2 + args.length - (i + 1)) = word v
  shows : Shows (tableOf m cs) cs w V

/-- A method has returned: what was put on the stack from the word `base` on is taken off. -/
structure Returned (base : Nat) (V : View) (result : Value × World) (V' : View) : Prop where
  value : V'.reg Reg.v0 = word result.1
  sp : V'.reg Reg.sp = stackAddress base
  fp : V'.reg Reg.fp = V.stack base
  stack : ∀ j < base, V'.stack j = V.stack j
  shows : Shows (tableOf m cs) cs result.2 V'

/-- What the machine has to do when the interpreter calls a method. -/
def Calls (k : Nat) (invoke : Invoke) : Prop :=
  ∀ c ∈ cs, ∀ d ∈ c.methods, ∀ (r : Ref) (args : List Value) (base pc : Nat) (w : World) (V : View),
    Fetches p pc (jump .jal (entryLabel c.name.name d.name.name)) →
    args.length = d.params.length → Called m cs r args base w V →
    Leads p cfg k pc V (invoke c d r args (base + 2 + args.length) w) (pc + 1)
      (Returned m cs base V)

end Calls

/-! ### Operands and arguments -/

section Evaluation

/-- The values of arguments lie on the stack, that of the last one first. -/
structure Passes (m : MainClass) (cs : List ClassDecl) (depth count : Nat) (V : View)
    (result : List Value × World) (V' : View) : Prop where
  length : result.1.length = count
  sp : V'.reg Reg.sp = stackAddress (depth + count)
  fp : V'.reg Reg.fp = V.reg Reg.fp
  stack : ∀ j < depth, V'.stack j = V.stack j
  args : ∀ i v, result.1[i]? = some v → V'.stack (depth + count - (i + 1)) = word v
  shows : Shows (tableOf m cs) cs result.2 V'

variable {p : Image} {cfg : Config} {m : MainClass} {cs : List ClassDecl} {b : Budget}
  {sc : Scope} {rt : Routine} {invoke : Invoke} {k : Nat} {act : Activation} {f depth : Nat}
  {w w₁ w₂ : World} {V V₁ V₂ : View} {x y : Value}

theorem Yields.ready (h : Yields m cs depth V (x, w₁) V₁)
    (hready : Ready cfg m cs rt act f depth w V) :
    Ready cfg m cs rt act f depth w₁ V₁ :=
  hready.stays h.stays h.shows

/-- The accumulator is changed once more. -/
theorem Yields.then (h : Yields m cs depth V (x, w₁) V₁) (hstill : Still depth V₁ V₂)
    (hy : V₂.reg Reg.a0 = word y) : Yields m cs depth V (y, w₁) V₂ :=
  ⟨hy, h.stays.trans hstill.toStays, h.shows.congr hstill.heap hstill.out⟩

theorem Yields.trans {result : Value × World} (h : Yields m cs depth V (x, w₁) V₁)
    (h' : Yields m cs depth V₁ result V₂) : Yields m cs depth V result V₂ :=
  ⟨h'.value, h.stays.trans h'.stays, h'.shows⟩

/-- One operand waits on the stack while the other one is evaluated. -/
theorem Yields.beside (h : Yields m cs depth V (x, w₁) V₁)
    (h' : Yields m cs (depth + 1)
      ((V₁.setStack depth (V₁.reg Reg.a0)).set Reg.sp (stackAddress (depth + 1))) (y, w₂) V₂) :
    V₂.stack depth = word x ∧
      Yields m cs depth (V.set Reg.sp (stackAddress (depth + 1))) (y, w₂) V₂ := by
  refine ⟨?_, h'.value, ⟨h'.stays.sp, h'.stays.fp.trans h.stays.fp, ?_⟩, h'.shows⟩
  · rw [h'.stays.stack depth (Nat.lt_succ_self depth)]
    exact (if_pos rfl).trans h.value
  · intro j hj
    refine (h'.stays.stack j (Nat.lt_succ_of_lt hj)).trans ?_
    exact (if_neg (Nat.ne_of_lt hj)).trans (h.stays.stack j hj)

/-- The code of a body may run while an operand waits on the stack. -/
theorem Yields.readyAbove (hready : Ready cfg m cs rt act f depth w V)
    (h : Yields m cs depth (V.set Reg.sp (stackAddress (depth + 1))) (y, w₂) V₂) :
    Ready cfg m cs rt act f (depth + 1) w₂ V₂ :=
  ⟨hready.frame.congr hready.deep h.stays.fp h.stays.stack, Nat.lt_succ_of_lt hready.deep,
    h.stays.sp, h.shows⟩

/-- What waited on the stack is taken off. -/
theorem Yields.pop (hready : Ready cfg m cs rt act f depth w V)
    (h : Yields m cs depth (V.set Reg.sp (stackAddress (depth + 1))) (y, w₂) V₂) :
    Yields m cs depth V (y, w₂) (V₂.set Reg.sp (stackAddress depth)) :=
  ⟨h.value, ⟨hready.sp.symm, h.stays.fp, h.stays.stack⟩, h.shows.congr rfl rfl⟩

/-- The accumulator waits on the stack while another expression is evaluated. -/
theorem Leads.waiting {α : Type} {pc pc₁ pc' : Nat} {post : α → View → Prop}
    (hS : Setting p cfg m cs b) (hready : Ready cfg m cs rt act f depth w V)
    (hx : Yields m cs depth V (x, w₁) V₁) (hpush : LiesAt p pc (Code.push Reg.a0))
    {e : Except Halt (Value × World)} {g : Value × World → Except Halt α}
    (he : ∀ V₁, Ready cfg m cs rt act f (depth + 1) w₁ V₁ →
      Leads p cfg k (pc + 2) V₁ e pc₁ (Yields m cs (depth + 1) V₁))
    (h : ∀ y w₂ V₂, 4 * (depth + 1) ≤ cfg.stackBytes → V₂.stack depth = word x →
      Yields m cs depth (V.set Reg.sp (stackAddress (depth + 1))) (y, w₂) V₂ →
      Leads p cfg k pc₁ V₂ (g (y, w₂)) pc' post) :
    Leads p cfg k pc V₁ (w₁.reserve b depth >>= fun _ => e >>= g) pc' post := by
  have hready₁ := hx.ready hready
  have hstack := hS.stack
  refine Leads.reserve fun hroom => ?_
  refine Leads.push hpush hready₁.sp (by omega) ?_
  refine Leads.bind (he _ (hready₁.push _)) ?_
  rintro ⟨y, w₂⟩ V₂ hy
  obtain ⟨hwaits, hy⟩ := hx.beside hy
  exact h y w₂ V₂ (by omega) hwaits hy

variable {vs : List Value} {count : Nat}

theorem Passes.ready (h : Passes m cs depth count V (vs, w₁) V₁)
    (hready : Ready cfg m cs rt act f depth w V) :
    Ready cfg m cs rt act f (depth + count) w₁ V₁ :=
  ⟨hready.frame.congr hready.deep h.fp h.stack, Nat.lt_add_right count hready.deep, h.sp, h.shows⟩

/-- One more argument is passed. -/
theorem Passes.cons (h : Passes m cs depth count V (vs, w₁) V₁)
    (hv : Yields m cs (depth + count) V₁ (x, w₂) V₂) :
    Passes m cs depth (count + 1) V (x :: vs, w₂)
      ((V₂.setStack (depth + count) (V₂.reg Reg.a0)).set Reg.sp
        (stackAddress (depth + count + 1))) := by
  refine ⟨congrArg (· + 1) h.length, rfl, hv.stays.fp.trans h.fp, ?_, ?_, hv.shows.congr rfl rfl⟩
  · intro j hj
    refine (if_neg (by omega)).trans ?_
    exact (hv.stays.stack j (by omega)).trans (h.stack j hj)
  · intro i u hu
    cases i with
    | zero =>
      obtain rfl := Option.some.inj hu
      exact (if_pos rfl).trans hv.value
    | succ i =>
      have hu : vs[i]? = some u := hu
      have hlt : i < vs.length := (List.getElem?_eq_some_iff.mp hu).1
      have hlength : vs.length = count := h.length
      have hplace : depth + (count + 1) - (i + 1 + 1) = depth + count - (i + 1) := by omega
      rw [hplace]
      refine (if_neg (by omega)).trans ?_
      exact (hv.stays.stack _ (by omega)).trans (h.args i u hu)

/-- The arguments lie on the receiver and the frame pointer. -/
theorem Passes.called {r : Ref} (h : Passes m cs (depth + 2) count V (vs, w₁) V₁)
    (hr : V.stack (depth + 1) = heapAddress r) : Called m cs r vs depth w₁ V₁ := by
  have hlength : vs.length = count := h.length
  subst hlength
  exact ⟨h.sp, (h.stack _ (Nat.lt_succ_self _)).trans hr, h.args, h.shows⟩

/-- What a method returns is moved to the accumulator. -/
theorem Returned.yields {result : Value × World} (h : Returned m cs depth V₁ result V₂)
    (hready : Ready cfg m cs rt act f depth w V) (hfp : V₁.stack depth = V.reg Reg.fp)
    (hstack : ∀ j < depth, V₁.stack j = V.stack j) :
    Yields m cs depth V result (V₂.set Reg.a0 (V₂.reg Reg.v0)) where
  value := h.value
  stays :=
    ⟨h.sp.trans hready.sp.symm, h.fp.trans hfp, fun j hj => (h.stack j hj).trans (hstack j hj)⟩
  shows := h.shows.congr rfl rfl

/-- A method is called on the object in the accumulator. -/
theorem Leads.call {pc pc₁ : Nat} (hS : Setting p cfg m cs b) (hcalls : Calls p cfg m cs k invoke)
    (hready : Ready cfg m cs rt act f depth w V) {r : Ref}
    (hx : Yields m cs depth V (.object r, w₁) V₁) {c : ClassDecl} (hc : c ∈ cs) {d : MethodDecl}
    (hd : d ∈ c.methods) (hcount : count = d.params.length)
    (hframe : LiesAt p pc (Code.push Reg.fp)) (hself : LiesAt p (pc + 2) (Code.push Reg.a0))
    {e : Except Halt (List Value × World)} {g : List Value × World → Except Halt (Value × World)}
    (hargs : ∀ V₂, Ready cfg m cs rt act f (depth + 2) w₁ V₂ →
      Leads p cfg k (pc + 4) V₂ e pc₁ (Passes m cs (depth + 2) count V₂))
    (hg : ∀ vs w₂, g (vs, w₂) = invoke c d r vs (depth + 2 + count) w₂)
    (hcall : LiesAt p pc₁ [Code.one (jump .jal (entryLabel c.name.name d.name.name)),
      Code.one (move Reg.a0 Reg.v0)]) :
    Leads p cfg k pc V₁ (w₁.reserve b (depth + 1) >>= fun _ => e >>= g) (pc₁ + 2)
      (Yields m cs depth V) := by
  have hready₁ := hx.ready hready
  have hstack := hS.stack
  refine Leads.reserve fun hroom => ?_
  refine Leads.push hframe hready₁.sp (by omega) ?_
  refine Leads.push hself rfl (by omega) ?_
  refine Leads.bind (hargs _ ((hready₁.push _).push _)) ?_
  rintro ⟨vs, w₂⟩ V₂ hpasses
  have hlength : vs.length = count := hpasses.length
  rw [hg, ← hlength]
  refine Leads.seq (hcalls c hc d hd r vs depth _ w₂ V₂ hcall.1 (hlength.trans hcount) ?_) ?_
  · exact hpasses.called ((if_pos rfl).trans hx.value)
  · intro result V₃ hreturned
    refine Leads.step (moves_result hcall.2.1 (by decide) rfl) ?_
    refine Leads.done rfl (hreturned.yields hready ?_ ?_)
    · refine (hpasses.stack depth (by omega)).trans ?_
      exact (if_neg (by omega)).trans ((if_pos rfl).trans hx.stays.fp)
    · intro j hj
      refine (hpasses.stack j (by omega)).trans ?_
      refine (if_neg (by omega)).trans ((if_neg (by omega)).trans ?_)
      exact hx.stays.stack j hj

/-! ### The forms of expressions -/

section Forms

variable (p cfg m cs b rt invoke k)

/-- Wherever the code lies, the machine follows the interpreter through it to the value of the
expression. -/
def Tracks (e : Expr) (code : Code) : Prop :=
  ∀ {act : Activation} {f depth pc : Nat} {w : World} {V : View}, LiesAt p pc code →
    Ready cfg m cs rt act f depth w V →
    Leads p cfg k pc V (eval cs b rt invoke act depth e w) (pc + code.size) (Yields m cs depth V)

/-- The same with the values of arguments, which end up on the stack. -/
def TracksArgs (es : List Expr) (code : Code) : Prop :=
  ∀ {act : Activation} {f depth pc : Nat} {w : World} {V : View}, LiesAt p pc code →
    Ready cfg m cs rt act f depth w V →
    Leads p cfg k pc V (evalArgs cs b rt invoke act depth es w) (pc + code.size)
      (Passes m cs depth es.length V)

variable {p cfg m cs b rt invoke k} {t : Token} {e l r : Expr} {es : List Expr}
  {code left right others : Code}

theorem tracks_int {n : Int} :
    Tracks p cfg m cs b rt invoke k (.int t n) [Code.one (li Reg.a0 n)] := by
  intro act f depth pc w V hlies hready
  have hne : Reg.a0 ≠ Reg.zero := by decide
  rw [eval]
  refine Leads.step (moves_result hlies.1 hne rfl) ?_
  refine Leads.done rfl ⟨?_, ⟨rfl, rfl, fun j _ => rfl⟩, hready.shows.congr rfl rfl⟩
  exact (toUInt32_ofInt _).symm

theorem tracks_true : Tracks p cfg m cs b rt invoke k (.bool t true)
    [Code.one (li Reg.a0 0), Code.one (withRegs .nor Reg.a0 Reg.a0 Reg.a0)] := by
  intro act f depth pc w V hlies hready
  rw [eval]
  refine Leads.step (moves_result (u := 0) hlies.1 (by decide) rfl) ?_
  have hones : ~~~((0 : UInt32) ||| 0) = 0xFFFFFFFF := by decide
  refine Leads.step (moves_result hlies.2.1 (by decide) rfl) ?_
  exact Leads.done rfl ⟨hones, ⟨rfl, rfl, fun j _ => rfl⟩, hready.shows.congr rfl rfl⟩

theorem tracks_false :
    Tracks p cfg m cs b rt invoke k (.bool t false) [Code.one (li Reg.a0 0)] := by
  intro act f depth pc w V hlies hready
  rw [eval]
  refine Leads.step (moves_result hlies.1 (by decide) rfl) ?_
  exact Leads.done rfl ⟨rfl, ⟨rfl, rfl, fun j _ => rfl⟩, hready.shows.congr rfl rfl⟩

theorem tracks_this (hst : Stands m cs sc rt) : Tracks p cfg m cs b rt invoke k (.this t)
    [Code.one (lw Reg.a0 (thisOffset sc.method.params.length) Reg.fp)] := by
  intro act f depth pc w V hlies hready
  rw [eval]
  split
  · rename_i r hr
    refine Leads.receiver hst hready hr (by decide) hlies.1 ?_
    exact Leads.done rfl ⟨rfl, ⟨rfl, rfl, fun j _ => rfl⟩, hready.shows.congr rfl rfl⟩
  · exact Leads.stuck w

theorem tracks_var (hS : Setting p cfg m cs b) (hst : Stands m cs sc rt) {x : Ident}
    {v : Variable} (hv : sc.lookup? x.name = some v) :
    Tracks p cfg m cs b rt invoke k (.var x) (sc.load v) := by
  intro act f depth pc w V hlies hready
  obtain ⟨binding, hbinding, hmeans⟩ := hst.names _ _ hv
  rw [eval, hbinding]
  simp only [Option.bind_some]
  split
  · rename_i value hvalue
    refine Leads.load (d := depth) hS.declared hst hready hmeans hvalue hlies ?_
    intro V' hword hstill
    exact Leads.done rfl ⟨hword, hstill.toStays, hready.shows.congr hstill.heap hstill.out⟩
  · exact Leads.stuck w

theorem tracks_not (he : Tracks p cfg m cs b rt invoke k e code) :
    Tracks p cfg m cs b rt invoke k (.unary t .not e)
      (code ++ [Code.one (withRegs .nor Reg.a0 Reg.a0 Reg.a0)]) := by
  intro act f depth pc w V hlies hready
  rw [liesAt_append] at hlies
  rw [eval]
  refine Leads.bind (he hlies.1 hready) ?_
  rintro ⟨v, w₁⟩ V₁ hyields
  cases hv : v.not? with
  | none =>
    simp only [hv]
    exact Leads.stuck w₁
  | some v' =>
    simp only [hv]
    refine Leads.step (moves_result hlies.2.1 (by decide) rfl) ?_
    refine Leads.done (by simp; omega) (hyields.then ⟨⟨rfl, rfl, fun j _ => rfl⟩, rfl, rfl⟩ ?_)
    rw [word_not hv, ← hyields.value]
    rfl

theorem tracks_binary (hS : Setting p cfg m cs b) {op : BinaryOp} {type : Ty}
    (hop : Gen.combine op = some (type, code)) (hl : Tracks p cfg m cs b rt invoke k l left)
    (hr : Tracks p cfg m cs b rt invoke k r right) :
    Tracks p cfg m cs b rt invoke k (.binary t op l r)
      (left ++ Code.push Reg.a0 ++ right ++ [Code.one (lw Reg.t1 4 Reg.sp)] ++ code ++
        Code.pop 1) := by
  intro act f depth pc w V hlies hready
  simp only [List.append_assoc, liesAt_append] at hlies
  obtain ⟨hleft, hpush, hright, hload, hcode, hpop, -⟩ := hlies
  rw [eval]
  refine Leads.bind (hl hleft hready) ?_
  rintro ⟨x, w₁⟩ V₁ hx
  refine Leads.waiting hS hready hx hpush (fun _ hready₁ => hr hright hready₁) ?_
  intro y w₂ V₂ hroom hwaits hy
  dsimp only
  split
  · rename_i v happly
    have htop : V₂.reg Reg.sp + UInt32.ofInt 4 = stackAddress depth := by
      rw [hy.stays.sp]
      exact stackAddress_offset (by omega)
    refine Leads.step (moves_lw_stack hload.1 (by decide) htop hroom) ?_
    refine Leads.combine (d := depth) hop hcode ?_
    intro V₃ hword hstill
    have hstill : Still depth V₂ V₃ :=
      ⟨⟨hstill.sp, hstill.fp, hstill.stack⟩, hstill.heap, hstill.out⟩
    have hv : V₃.reg Reg.a0 = word v := by
      rw [word_apply happly, ← hwaits, ← hy.value]
      exact hword
    refine Leads.pop (n := 1) (d := depth) hpop (hstill.sp.trans hy.stays.sp) ?_
    exact Leads.done (by simp; omega) ((hy.then hstill hv).pop hready)
  · exact Leads.stuck w₂

theorem tracks_index (hS : Setting p cfg m cs b) (hl : Tracks p cfg m cs b rt invoke k l left)
    (hr : Tracks p cfg m cs b rt invoke k r right) :
    Tracks p cfg m cs b rt invoke k (.index t l r)
      (left ++ Code.push Reg.a0 ++ right ++ Gen.readElement) := by
  intro act f depth pc w V hlies hready
  simp only [List.append_assoc, liesAt_append] at hlies
  obtain ⟨harray, hpush, hindex, hread⟩ := hlies
  rw [eval]
  refine Leads.bind (hl harray hready) ?_
  rintro ⟨x, w₁⟩ V₁ hx
  refine Leads.waiting hS hready hx hpush (fun _ hready₁ => hr hindex hready₁) ?_
  intro y w₂ V₂ hroom hwaits hy
  refine Leads.bind
    (Leads.element (d := depth) hS hy.shows hread hy.stays.sp hroom hwaits hy.value) ?_
  rintro v V₃ ⟨hword, hstill⟩
  exact Leads.done (by simp; omega) ((hy.pop hready).then hstill hword)

theorem tracks_length (he : Tracks p cfg m cs b rt invoke k e code) :
    Tracks p cfg m cs b rt invoke k (.length t e)
      (code ++ [Code.one (lw Reg.a0 0 Reg.a0)]) := by
  intro act f depth pc w V hlies hready
  rw [liesAt_append] at hlies
  rw [eval]
  refine Leads.bind (he hlies.1 hready) ?_
  rintro ⟨v, w₁⟩ V₁ hyields
  refine Leads.bind (Leads.lengthOf (d := depth) hyields.shows hlies.2.1 hyields.value) ?_
  rintro v' V₂ ⟨hword, hstill⟩
  exact Leads.done (by simp; omega) (hyields.then hstill hword)

theorem tracks_newArray (hS : Setting p cfg m cs b)
    (he : Tracks p cfg m cs b rt invoke k e code) :
    Tracks p cfg m cs b rt invoke k (.newArray t e)
      (code ++ [Code.one (jump .jal Support.allocArray), Code.one (move Reg.a0 Reg.v0)]) := by
  intro act f depth pc w V hlies hready
  rw [liesAt_append] at hlies
  rw [eval]
  refine Leads.bind (he hlies.1 hready) ?_
  rintro ⟨v, w₁⟩ V₁ hyields
  refine Leads.imp (Leads.newArray (d := depth) hS hlies.2 hyields.shows hyields.value) ?_ ?_
  · simp; omega
  · exact fun result V₂ hnew => hyields.trans hnew

theorem tracks_newObject (hS : Setting p cfg m cs b) (hst : Stands m cs sc rt) {c : Ident}
    {cls : ClassInfo} {top done : Bytes} (hfind : sc.table.find? c.name = some cls)
    (hentry : sc.table.isEntry c.name = false) :
    Tracks p cfg m cs b rt invoke k (.newObject t c)
      (Gen.makeObject (sc.table.layout cls) top done) := by
  intro act f depth pc w V hlies hready
  rw [eval]
  rw [hst.table] at hfind hentry hlies ⊢
  exact Leads.newObject hS hready.shows hfind hentry hlies

/-- The method that is called depends on the type of the receiver. -/
theorem tracks_call (hS : Setting p cfg m cs b) (hcalls : Calls p cfg m cs k invoke) {x : Ident}
    {type : Bytes} (htype : typeOf cs rt e = some (.object type)) {c : ClassDecl} {d : MethodDecl}
    (hcallee : methodNamed? cs type x.name = some (c, d)) (hc : c ∈ cs) (hd : d ∈ c.methods)
    (hcount : es.length = d.params.length) (he : Tracks p cfg m cs b rt invoke k e code)
    (hes : TracksArgs p cfg m cs b rt invoke k es others) :
    Tracks p cfg m cs b rt invoke k (.call t e x es)
      (code ++ Code.nullCheck Reg.a0 ++ Code.push Reg.fp ++ Code.push Reg.a0 ++ others ++
        [Code.one (jump .jal (entryLabel c.name.name d.name.name)),
          Code.one (move Reg.a0 Reg.v0)]) := by
  intro act f depth pc w V hlies hready
  simp only [List.append_assoc, liesAt_append] at hlies
  obtain ⟨hreceiver, hnull, hframe, hself, harguments, hcall⟩ := hlies
  rw [eval, htype]
  simp only [callee?, hcallee]
  refine Leads.bind (he hreceiver hready) ?_
  rintro ⟨v, w₁⟩ V₁ hv
  cases v with
  | null => exact Leads.isNull hS hnull hv.value hv.shows.out
  | object r =>
    refine Leads.notNull hnull (hv.value ▸ heapAddress_ne_zero r) ?_
    refine Leads.imp (Leads.call hS hcalls hready hv hc hd hcount hframe hself
      (fun _ hready₂ => hes harguments hready₂) (fun _ _ => rfl) hcall) ?_ ?_
    · simp; omega
    · exact fun _ _ hyields => hyields
  | _ => exact Leads.stuck w₁

theorem tracksArgs_nil : TracksArgs p cfg m cs b rt invoke k [] [] := by
  intro act f depth pc w V hlies hready
  rw [evalArgs]
  refine Leads.done rfl ⟨rfl, hready.sp, rfl, fun j _ => rfl, ?_, hready.shows⟩
  intro i v hv
  cases hv

theorem tracksArgs_cons (hS : Setting p cfg m cs b)
    (hes : TracksArgs p cfg m cs b rt invoke k es others)
    (he : Tracks p cfg m cs b rt invoke k e code) :
    TracksArgs p cfg m cs b rt invoke k (e :: es) (others ++ code ++ Code.push Reg.a0) := by
  intro act f depth pc w V hlies hready
  simp only [List.append_assoc, liesAt_append] at hlies
  obtain ⟨hothers, hfirst, hpush⟩ := hlies
  rw [evalArgs]
  refine Leads.bind (hes hothers hready) ?_
  rintro ⟨vs, w₁⟩ V₁ hpasses
  have hready₁ := hpasses.ready hready
  refine Leads.bind (he hfirst hready₁) ?_
  rintro ⟨v, w₂⟩ V₂ hyields
  refine Leads.reserve fun hroom => ?_
  have hstack := hS.stack
  refine Leads.push hpush (hyields.ready hready₁).sp (by omega) ?_
  exact Leads.done (by simp; omega) (hpasses.cons hyields)

end Forms

/-! ### Expressions -/

mutual

/-- The machine follows the interpreter through the code of an expression. -/
theorem leads_eval (hS : Setting p cfg m cs b) (hst : Stands m cs sc rt)
    (hcalls : Calls p cfg m cs k invoke) {n n' : Nat} {e : Expr} {type : Ty} {code : Code} :
    ExprCode sc n e type code n' → e.Written → Tracks p cfg m cs b rt invoke k e code
  | .int, _ => tracks_int
  | .true, _ => tracks_true
  | .false, _ => tracks_false
  | .this _, _ => tracks_this hst
  | .var hv, _ => tracks_var hS hst hv
  | .not he, hwritten => tracks_not (leads_eval hS hst hcalls he hwritten.2.2)
  | .binary hl hr hop, hwritten =>
    tracks_binary hS hop (leads_eval hS hst hcalls hl hwritten.2.2.1)
      (leads_eval hS hst hcalls hr hwritten.2.2.2)
  | .index ha hi, hwritten =>
    tracks_index hS (leads_eval hS hst hcalls ha hwritten.2.1)
      (leads_eval hS hst hcalls hi hwritten.2.2)
  | .length ha, hwritten => tracks_length (leads_eval hS hst hcalls ha hwritten.2)
  | .newArray he, hwritten => tracks_newArray hS (leads_eval hS hst hcalls he hwritten.2)
  | .newObject hfind hentry, _ => tracks_newObject hS hst hfind hentry
  | .call hrecv hfind hmethod hcount hargs, hwritten => by
    have htype := typeOf_of_exprCode hS.declared hst hrecv hwritten.2.1
    rw [hst.table] at hfind hmethod
    obtain ⟨c, d, hcallee, hc, hd, rfl⟩ :=
      methodNamed?_of_find? hS.declared hwritten.2.2.1.name hfind hmethod
    have hparams : (d.info c.name.name).params.length = d.params.length := length_slots _ _ _
    exact tracks_call hS hcalls htype hcallee hc hd (hcount.trans hparams)
      (leads_eval hS hst hcalls hrecv hwritten.2.1)
      (leads_evalArgs hS hst hcalls hargs hwritten.2.2.2)

/-- The machine follows the interpreter through the code of arguments. -/
theorem leads_evalArgs (hS : Setting p cfg m cs b) (hst : Stands m cs sc rt)
    (hcalls : Calls p cfg m cs k invoke) {n n' : Nat} {es : List Expr} {code : Code} :
    ArgsCode sc n es code n' → Expr.AllWritten es → TracksArgs p cfg m cs b rt invoke k es code
  | .nil, _ => tracksArgs_nil
  | .cons hes he, hwritten =>
    tracksArgs_cons hS (leads_evalArgs hS hst hcalls hes hwritten.2)
      (leads_eval hS hst hcalls he hwritten.1)

end

end Evaluation

end MiniJava.Simulation
