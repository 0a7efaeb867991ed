import MiniJava.Proofs.Compile.Linked
import MiniJava.Proofs.Simulation.Heap
import MiniJava.Proofs.Simulation.Leads

/-!
# Support routines

What the routines that every program carries do.

* **`Room`**, **`Setting`** — a linked program on a machine that has room for the budget of the
  interpreter.
* **`Leads.nullPointer`**, **`Leads.outOfBounds`** — the reports of faults.
* **`Leads.printInt`** — a number is printed on a line of its own.
* **`Leads.newArray`**, **`Leads.newObject`** — arrays and objects are made.
-/

namespace MiniJava.Simulation

open Instr Machine Semantics

/-- A machine has room for what the interpreter may use. -/
structure Room (cfg : Config) (b : Budget) : Prop where
  stack : 4 * b.stack ≤ cfg.stackBytes
  heap : (56 + 4 * b.heap : Int) ≤ cfg.heapBytes
  apart : 56 + 4 * b.heap + cfg.stackBytes ≤ 0x6fff0000

/-- A linked program on a machine that has room for what the interpreter may use. -/
structure Setting (p : Image) (cfg : Config) (m : MainClass) (cs : List ClassDecl) (b : Budget) :
    Prop extends Room cfg b where
  declared : WellDeclared m cs
  linked : Linked p (tableOf m cs) cs

/-! ### Pushing and popping -/

section Stack

variable {p : Image} {cfg : Config} {α : Type} {k pc pc' : Nat} {V : View} {x : Except Halt α}
  {post : α → View → Prop}

/-- A register is put on the stack. -/
theorem Leads.push {r : Reg} {d : Nat} (hlies : LiesAt p pc (Code.push r))
    (hsp : V.reg Reg.sp = stackAddress d) (hd : 4 * (d + 1) ≤ cfg.stackBytes)
    (h : Leads p cfg k (pc + 2)
      ((V.setStack d (V.reg r)).set Reg.sp (stackAddress (d + 1))) x pc' post) :
    Leads p cfg k pc V x pc' post := by
  obtain ⟨hstore, hmove, -⟩ := hlies
  have htop : V.reg Reg.sp + UInt32.ofInt 0 = stackAddress d := by
    rw [hsp]
    exact stackAddress_offset (by omega)
  have hnew : (V.setStack d (V.reg r)).result (withImm .addiu Reg.sp Reg.sp (-4)) =
      some (stackAddress (d + 1)) := by
    show some (V.reg Reg.sp + UInt32.ofInt (-4)) = _
    rw [hsp]
    exact congrArg some (stackAddress_offset (by omega))
  refine Leads.step (moves_sw_stack hstore htop hd) ?_
  exact Leads.step (moves_result hmove (by decide) hnew) h

/-- Words are taken off the stack. -/
theorem Leads.pop {n d : Nat} (hi : Fetches p pc (withImm .addiu Reg.sp Reg.sp (4 * n)))
    (hsp : V.reg Reg.sp = stackAddress (d + n))
    (h : Leads p cfg k (pc + 1) (V.set Reg.sp (stackAddress d)) x pc' post) :
    Leads p cfg k pc V x pc' post := by
  have hnew : V.result (withImm .addiu Reg.sp Reg.sp (4 * n)) = some (stackAddress d) := by
    show some (V.reg Reg.sp + UInt32.ofInt (4 * n)) = _
    rw [hsp]
    exact congrArg some (stackAddress_offset (by omega))
  have hrd : Reg.sp ≠ Reg.zero := by decide
  exact Leads.step (moves_result hi hrd hnew) h

end Stack

/-! ### Faults -/

section Faults

variable {p : Image} {cfg : Config} {m : MainClass} {cs : List ClassDecl} {b : Budget}
  {k pc pc' : Nat} {V : View}

theorem Setting.address? (hS : Setting p cfg m cs b) {l : Bytes} {a : UInt32}
    (h : Support.messageLabels.lookup l = some a) : p.address? l = some a := by
  rw [Image.address?, hS.linked.messages, h]
  rfl

/-- A routine that reports a fault prints its message and ends the program. -/
theorem exits_of_fault {l message text : Bytes} {o : Nat}
    (hlies : LiesAt p pc (Support.faultRoutine l message))
    (haddress : p.address? message = some (dataBase + UInt32.ofNat o))
    (ht : Support.Message text o) {s : State} (hs : At cfg s pc V) :
    Exits p cfg s (V.out ++ text) := by
  obtain ⟨-, hla, hli, hprint, hten, hexit, -⟩ := hlies
  obtain ⟨s₁, hstep₁, hs₁⟩ := moves_la hla (by decide) haddress s hs
  obtain ⟨s₂, hstep₂, hs₂⟩ := moves_result hli (by decide) rfl s₁ hs₁
  obtain ⟨s₃, hstep₃, hs₃⟩ := moves_printString hprint rfl rfl ht s₂ hs₂
  obtain ⟨s₄, hstep₄, hs₄⟩ := moves_result hten (by decide) rfl s₃ hs₃
  obtain ⟨s₅, hstep₅, hexited, hout⟩ := step_exit hs₄ hexit rfl
  refine ⟨5, s₅, ?_, hexited, hout⟩
  exact .head hs.running hstep₁ (.head hs₁.running hstep₂ (.head hs₂.running hstep₃
    (.head hs₃.running hstep₄ (.head hs₄.running hstep₅ (.refl s₅)))))

/-- Where the report of a null pointer lies. -/
theorem Setting.nullPointer (hS : Setting p cfg m cs b) :
    ∃ pc, LiesAt p pc (Support.faultRoutine Support.nullPointer Support.nullPointerText) := by
  obtain ⟨pc, hlies⟩ := hS.linked.routines
  rw [Support.routines, liesAt_append, liesAt_append, liesAt_append] at hlies
  exact ⟨_, hlies.1.1.2⟩

/-- Where the report of an index out of bounds lies. -/
theorem Setting.outOfBounds (hS : Setting p cfg m cs b) :
    ∃ pc, LiesAt p pc (Support.faultRoutine Support.outOfBounds Support.outOfBoundsText) := by
  obtain ⟨pc, hlies⟩ := hS.linked.routines
  rw [Support.routines, liesAt_append, liesAt_append, liesAt_append] at hlies
  exact ⟨_, hlies.1.2⟩

/-- Where the making of arrays lies. -/
theorem Setting.allocArray (hS : Setting p cfg m cs b) :
    ∃ pc, LiesAt p pc Support.allocArrayRoutine := by
  obtain ⟨pc, hlies⟩ := hS.linked.routines
  rw [Support.routines, liesAt_append] at hlies
  exact ⟨_, hlies.2⟩

variable {α : Type} {w : World} {post : α → View → Prop} {i : Instr}

/-- A branch to the report of a null pointer is taken. -/
theorem Leads.nullPointer (hS : Setting p cfg m cs b) (hi : Fetches p pc i)
    (hlabel : i.label = Support.nullPointer) (ht : V.taken i = some true)
    (hout : V.out = w.output) :
    Leads p cfg k pc V (w.halt .nullPointer : Except Halt α) pc' post := by
  intro s hs
  obtain ⟨target, hlies⟩ := hS.nullPointer
  obtain ⟨s₁, hstep, hs₁⟩ := moves_taken hi ht (hlabel ▸ hlies.1) s hs
  have haddress := hS.address? (l := Support.nullPointerText) (a := dataBase + UInt32.ofNat 32)
    (by decide +kernel)
  have htext : Support.Message "Null pointer exception\n" 32 := by decide +kernel
  have hexits := exits_of_fault hlies haddress htext hs₁
  rw [hout] at hexits
  exact hexits.of_steps (.head hs.running hstep (.refl s₁))

/-- A branch to the report of an index out of bounds is taken. -/
theorem Leads.outOfBounds (hS : Setting p cfg m cs b) (hi : Fetches p pc i)
    (hlabel : i.label = Support.outOfBounds) (ht : V.taken i = some true)
    (hout : V.out = w.output) :
    Leads p cfg k pc V (w.halt .outOfBounds : Except Halt α) pc' post := by
  intro s hs
  obtain ⟨target, hlies⟩ := hS.outOfBounds
  obtain ⟨s₁, hstep, hs₁⟩ := moves_taken hi ht (hlabel ▸ hlies.1) s hs
  have haddress := hS.address? (l := Support.outOfBoundsText) (a := dataBase + UInt32.ofNat 2)
    (by decide +kernel)
  have htext : Support.Message "Index out of bound exception\n" 2 := by decide +kernel
  have hexits := exits_of_fault hlies haddress htext hs₁
  rw [hout] at hexits
  exact hexits.of_steps (.head hs.running hstep (.refl s₁))

end Faults

/-! ### What stays -/

/-- The stack and frame pointers and the words of the stack below `d` stay as they were. -/
structure Stays (d : Nat) (V V' : View) : Prop where
  sp : V'.reg Reg.sp = V.reg Reg.sp
  fp : V'.reg Reg.fp = V.reg Reg.fp
  stack : ∀ j < d, V'.stack j = V.stack j

theorem Stays.trans {d : Nat} {V V₁ V₂ : View} (h : Stays d V V₁) (h' : Stays d V₁ V₂) :
    Stays d V V₂ :=
  ⟨h'.sp.trans h.sp, h'.fp.trans h.fp, fun j hj => (h'.stack j hj).trans (h.stack j hj)⟩

/-- The accumulator holds the value of an expression, and the stack is as deep as it was. -/
structure Yields (m : MainClass) (cs : List ClassDecl) (depth : Nat) (V : View)
    (result : Value × World) (V' : View) : Prop where
  value : V'.reg Reg.a0 = word result.1
  stays : Stays depth V V'
  shows : Shows (tableOf m cs) cs result.2 V'

/-! ### Numbers are printed -/

section Routines

variable {p : Image} {cfg : Config} {m : MainClass} {cs : List ClassDecl} {b : Budget}
  {k pc pc' d : Nat} {V : View} {α : Type} {w : World} {x : Except Halt α}
  {post : α → View → Prop}

theorem Setting.lt_small (hS : Setting p cfg m cs b) {i : Instr} (hi : Fetches p pc i) :
    pc + 1 < 0x30000000 := by
  obtain ⟨line, hline⟩ := hi
  have hlt : pc < p.text.size := (Array.getElem?_eq_some_iff.mp hline).1
  have hsmall := hS.linked.small
  omega

/-- A number is printed on a line of its own. -/
theorem Leads.printInt (hS : Setting p cfg m cs b) (hi : Fetches p pc (.jump .jal Support.printInt))
    (h : ∀ V', Stays d V V' → V'.heap = V.heap →
      V'.out = V.out ++ decimal (signed (V.reg Reg.a0)) ++ "\n" →
      Leads p cfg k (pc + 1) V' x pc' post) :
    Leads p cfg k pc V x pc' post := by
  obtain ⟨start, hlies⟩ := hS.linked.routines
  rw [Support.routines, liesAt_append, liesAt_append, liesAt_append] at hlies
  obtain ⟨⟨⟨hroutine, -⟩, -⟩, -⟩ := hlies
  obtain ⟨hlabel, hone, hprint, hla, hfour, hnewline, hreturn, -⟩ := hroutine
  have haddress := hS.address? (l := Support.newline) (a := dataBase + UInt32.ofNat 0)
    (by decide +kernel)
  refine Leads.step (moves_jal hi hlabel) ?_
  refine Leads.step (moves_result (u := 1) hone (by decide) rfl) ?_
  refine Leads.step (moves_printInt hprint rfl) ?_
  refine Leads.step (moves_la hla (by decide) haddress) ?_
  refine Leads.step (moves_result (u := 4) hfour (by decide) rfl) ?_
  refine Leads.step (@moves_printString _ _ _ _ "\n" 0 hnewline rfl rfl (by decide +kernel)) ?_
  refine Leads.step (moves_jr hreturn rfl (hS.lt_small hi)) ?_
  exact h _ ⟨rfl, rfl, fun j _ => rfl⟩ rfl rfl

/-! ### Arrays are made -/

/-- The loop that fills an array with zeros and returns; it has come to the words `rest`. -/
theorem Leads.fillArray {last caller : Nat} {front rest : List UInt32} {i : Int}
    (hlies : LiesAt p pc (Support.allocArrayRoutine.drop 10)) (hheap : V.heap = front ++ rest)
    (hlast : front.length = last + 1) (hsmall : 56 + 4 * (front.length + rest.length) ≤ 0x6fff0000)
    (ht0 : V.reg Reg.t0 = UInt32.ofInt i) (ht1 : V.reg Reg.t1 = heapAddress last)
    (ha2 : V.reg Reg.a2 = UInt32.ofInt (i - 1 + rest.length)) (hi : 0 < i)
    (hbound : i + rest.length ≤ 0x1c000000) (hra : V.reg Reg.ra = Image.codeAddress caller)
    (hcaller : caller < 0x30000000)
    (h : ∀ V', Stays d V V' → V'.reg Reg.v0 = V.reg Reg.v0 →
      V'.heap = front ++ List.replicate rest.length 0 → V'.out = V.out →
      Leads p cfg k caller V' x pc' post) :
    Leads p cfg k pc V x pc' post := by
  have hwhole := hlies
  obtain ⟨htop, hbranch, hnext, hstore, hcount, hjump, hend, hreturn, -⟩ := hlies
  induction rest generalizing V front last i with
  | nil =>
    have htaken : V.taken (.branch .bgt Reg.t0 Reg.a2 "_alloc_int_array_end") = some true := by
      show some (decide (signed (V.reg Reg.a2) < signed (V.reg Reg.t0))) = _
      rw [List.length_nil] at ha2 hbound
      rw [ht0, ha2, signed_ofInt (by omega) (by omega), signed_ofInt (by omega) (by omega),
        decide_eq_true (by omega)]
    refine Leads.step (moves_taken hbranch htaken hend) ?_
    refine Leads.step (moves_jr hreturn hra hcaller) ?_
    exact h V ⟨rfl, rfl, fun j _ => rfl⟩ rfl hheap rfl
  | cons u rest ih =>
    rw [List.length_cons] at hsmall hbound ha2
    refine Leads.of_zero fun hzero => ?_
    have htaken : V.taken (.branch .bgt Reg.t0 Reg.a2 "_alloc_int_array_end") = some false := by
      show some (decide (signed (V.reg Reg.a2) < signed (V.reg Reg.t0))) = _
      rw [ht0, ha2, signed_ofInt (by omega) (by omega), signed_ofInt (by omega) (by omega),
        decide_eq_false (by omega)]
    refine Leads.step (moves_onward hbranch htaken) ?_
    have hfour : signed (V.reg Reg.t1) + signed (UInt32.ofInt 4) =
        0x10010038 + 4 * (front.length : Int) := by
      rw [ht1, heapAddress, signed_ofInt (by omega) (by omega), signed_ofInt (by omega) (by omega)]
      omega
    refine Leads.step (moves_addi hnext (by decide) ?_) ?_
    · rw [hfour]
      simp only [fits, Bool.and_eq_true, decide_eq_true_eq]
      omega
    rw [hfour]
    refine Leads.step (moves_sw_heap (k := front.length) hstore ?_ ?_) ?_
    · exact heapAddress_offset (by omega)
    · show front.length < V.heap.length
      rw [hheap, List.length_append, List.length_cons]
      omega
    have hset : V.heap.set front.length 0 = (front ++ [0]) ++ rest := by
      rw [hheap, List.set_append_right _ _ (Nat.le_refl _), Nat.sub_self, List.set_cons_zero,
        List.append_assoc]
      rfl
    have hone : signed (V.reg Reg.t0) + signed (UInt32.ofInt 1) = i + 1 := by
      rw [ht0, signed_ofInt (by omega) (by omega), signed_ofInt (by omega) (by omega)]
    refine Leads.step (moves_addi hcount (by decide) ?_) ?_
    · show fits (signed (V.reg Reg.t0) + signed (UInt32.ofInt 1)) = true
      rw [hone]
      simp only [fits, Bool.and_eq_true, decide_eq_true_eq]
      omega
    refine Leads.step (moves_taken hjump rfl htop) ?_
    refine @ih _ front.length (front ++ [0]) (i + 1) ?_ (by simp) ?_ ?_ rfl ?_ (by omega) ?_ hra ?_
    · show V.heap.set front.length (V.reg Reg.zero) = _
      rw [hzero, hset]
    · rw [List.length_append, List.length_singleton]
      omega
    · exact congrArg UInt32.ofInt hone
    · show V.reg Reg.a2 = _
      rw [ha2]
      congr 1
      omega
    · omega
    · intro V' hstays hv0 hheap' hout
      refine h V' ⟨hstays.sp, hstays.fp, hstays.stack⟩ hv0 ?_ hout
      rw [hheap', List.append_assoc]
      rfl

/-- An array of the given length is made where there is room for it. -/
theorem Leads.allocArray (hS : Setting p cfg m cs b) {size : Nat}
    (hcall : Fetches p pc (.jump .jal Support.allocArray))
    (ha : V.reg Reg.a0 = UInt32.ofInt size) (hroom : V.heap.length + (1 + size) ≤ b.heap)
    (h : ∀ V', Stays d V V' → V'.reg Reg.v0 = heapAddress V.heap.length →
      V'.heap = V.heap ++ UInt32.ofInt size :: List.replicate size 0 → V'.out = V.out →
      Leads p cfg k (pc + 1) V' x pc' post) :
    Leads p cfg k pc V x pc' post := by
  obtain ⟨start, hlabel, hnegative, hkeep, hplus, hshift, hnine, hsbrk, hlength, hcounter,
    hpointer, hloop⟩ := hS.allocArray
  have hbytes := hS.heap
  have hapart := hS.apart
  have hsigned : signed (V.reg Reg.a0) = size := by
    rw [ha, signed_ofInt (by omega) (by omega)]
  have hsucc : signed (V.reg Reg.a0) + signed (UInt32.ofInt 1) = size + 1 := by
    rw [hsigned, signed_ofInt (by omega) (by omega)]
  refine Leads.step (moves_jal hcall hlabel) ?_
  refine Leads.step (moves_onward hnegative ?_) ?_
  · show some (decide (signed (V.reg Reg.a0) < 0)) = _
    rw [hsigned, decide_eq_false (by omega)]
  refine Leads.step (moves_result (u := UInt32.ofInt size) hkeep (by decide) (congrArg some ha)) ?_
  refine Leads.step (moves_addi hplus (by decide) ?_) ?_
  · show fits (signed (V.reg Reg.a0) + signed (UInt32.ofInt 1)) = true
    rw [hsucc]
    simp only [fits, Bool.and_eq_true, decide_eq_true_eq]
    omega
  refine Leads.step (moves_result (u := UInt32.ofInt (4 * (size + 1))) hshift (by decide) ?_) ?_
  · show some (UInt32.ofInt (signed (V.reg Reg.a0) + signed (UInt32.ofInt 1)) <<<
      (UInt32.ofInt 2 &&& 31)) = _
    rw [hsucc, shiftLeft_two]
  refine Leads.step (moves_result (u := 9) hnine (by decide) rfl) ?_
  refine Leads.sbrk (n := size + 1) hsbrk rfl ?_ ?_ ?_ ?_
  · show signed (UInt32.ofInt (4 * (size + 1))) = _
    rw [signed_ofInt (by omega) (by omega)]
    omega
  · show (56 + 4 * (V.heap.length + (size + 1 : Nat)) : Int) ≤ _
    omega
  · show 56 + 4 * (V.heap.length + (size + 1)) + _ ≤ _
    omega
  intro fresh hfresh
  obtain ⟨u, rest, rfl⟩ := List.exists_cons_of_length_eq_add_one hfresh
  rw [List.length_cons, Nat.add_right_cancel_iff] at hfresh
  refine Leads.step (moves_sw_heap (k := V.heap.length) hlength ?_ ?_) ?_
  · show heapAddress V.heap.length + UInt32.ofInt 0 = _
    exact heapAddress_offset (by omega)
  · show V.heap.length < (V.heap ++ u :: rest).length
    rw [List.length_append, List.length_cons]
    omega
  refine Leads.step (moves_result (u := UInt32.ofInt 1) hcounter (by decide) rfl) ?_
  refine Leads.step (moves_result (u := heapAddress V.heap.length) hpointer (by decide) rfl) ?_
  refine @Leads.fillArray p cfg k _ pc' d _ α x post V.heap.length (pc + 1)
    (V.heap ++ [UInt32.ofInt size]) rest 1 hloop ?_ (by simp) ?_ rfl rfl ?_ (by omega) (by omega)
    rfl (hS.lt_small hcall) ?_
  · show (V.heap ++ u :: rest).set V.heap.length (UInt32.ofInt size) = _
    rw [List.set_append_right _ _ (Nat.le_refl _), Nat.sub_self, List.set_cons_zero,
      List.append_assoc]
    rfl
  · rw [List.length_append, List.length_singleton]
    omega
  · show UInt32.ofInt size = _
    rw [hfresh]
    congr 1
    omega
  · intro V' hstays hv0 hheap hout
    refine h V' ⟨hstays.sp, hstays.fp, hstays.stack⟩ hv0 ?_ hout
    rw [hheap, hfresh, List.append_assoc]
    rfl

/-- An array of zeros is made, unless its length is negative. -/
theorem Leads.newArray (hS : Setting p cfg m cs b)
    (hlies : LiesAt p pc [Code.one (.jump .jal Support.allocArray), Code.one (.move Reg.a0 Reg.v0)])
    (hshows : Shows (tableOf m cs) cs w V) {v : Value} (ha : V.reg Reg.a0 = word v) :
    Leads p cfg k pc V (Semantics.newArray cs b w v) (pc + 2)
      (Yields m cs d V) := by
  obtain ⟨hcall, hresult, -⟩ := hlies
  cases hn : v.number? with
  | none =>
    simp only [Semantics.newArray, hn]
    exact Leads.stuck w
  | some n =>
    have hsigned := signed_word hn
    simp only [Semantics.newArray, hn]
    have hsign : n < 0 ↔ n.toInt < 0 := Int32.lt_iff_toInt_lt
    by_cases hneg : n < 0
    · rw [if_pos hneg]
      obtain ⟨start, hlabel, hnegative, -⟩ := hS.allocArray
      refine Leads.step (moves_jal hcall hlabel) ?_
      refine Leads.outOfBounds hS hnegative rfl ?_ hshows.out
      show some (decide (signed (V.reg Reg.a0) < 0)) = _
      rw [ha, hsigned, decide_eq_true (hsign.mp hneg)]
    · rw [if_neg hneg, World.allocate]
      rw [hsign] at hneg
      split
      · rename_i hfits
        simp only [Cell.words, List.length_replicate] at hfits
        have hword : V.reg Reg.a0 = UInt32.ofInt n.toInt.toNat := by
          rw [ha, word_number hn, toUInt32_eq, Int.toNat_of_nonneg (by omega)]
        have hheap := hshows.length_heap
        refine Leads.allocArray (d := d) hS hcall hword (by omega) ?_
        intro V' hstays hv0 hheap' hout
        refine Leads.step (moves_result (u := V'.reg Reg.v0) hresult (by decide) rfl) ?_
        refine Leads.done rfl ⟨?_, ⟨hstays.sp, hstays.fp, hstays.stack⟩, ?_⟩
        · show V'.reg Reg.v0 = heapAddress (wordsOf cs w.heap)
          rw [hv0, hheap]
        · refine (hshows.allocate (.array (List.replicate n.toInt.toNat 0))).congr ?_ hout
          show V'.heap = V.heap ++ cellWords _ _ _
          rw [hheap', cellWords, List.length_replicate, List.map_replicate, ofNat_eq_ofInt]
          rfl
      · exact fun _ _ => trivial

/-! ### Objects are made -/

/-- The loop that fills the fields of an object with zeros; it has come to the fields `rest`. -/
theorem Leads.fillObject {l : Layout} {top done : Bytes} {front rest : List UInt32} {i : Int}
    (hlies : LiesAt p pc ((Gen.makeObject l top done).drop 12)) (hheap : V.heap = front ++ rest)
    (ht0 : V.reg Reg.t0 = UInt32.ofInt i) (ht1 : V.reg Reg.t1 = heapAddress front.length)
    (ht2 : V.reg Reg.t2 = UInt32.ofInt (i + rest.length)) (hi : 0 ≤ i)
    (hbound : i + rest.length ≤ 0x1c000000)
    (h : ∀ V', Stays d V V' → V'.reg Reg.a0 = V.reg Reg.a0 →
      V'.heap = front ++ List.replicate rest.length 0 → V'.out = V.out →
      Leads p cfg k (pc + 5) V' x pc' post) :
    Leads p cfg k pc V x pc' post := by
  obtain ⟨htop, hbranch, hstore, hnext, hcount, hjump, hdone, -⟩ := hlies
  induction rest generalizing V front i with
  | nil =>
    refine Leads.step (moves_taken hbranch ?_ hdone) ?_
    · show some (decide (signed (V.reg Reg.t2) ≤ signed (V.reg Reg.t0))) = _
      rw [List.length_nil] at ht2 hbound
      rw [ht0, ht2, signed_ofInt (by omega) (by omega), signed_ofInt (by omega) (by omega),
        decide_eq_true (by omega)]
    · exact h V ⟨rfl, rfl, fun j _ => rfl⟩ rfl hheap rfl
  | cons u rest ih =>
    rw [List.length_cons] at hbound ht2
    refine Leads.of_zero fun hzero => ?_
    refine Leads.step (moves_onward hbranch ?_) ?_
    · show some (decide (signed (V.reg Reg.t2) ≤ signed (V.reg Reg.t0))) = _
      rw [ht0, ht2, signed_ofInt (by omega) (by omega), signed_ofInt (by omega) (by omega),
        decide_eq_false (by omega)]
    refine Leads.step (moves_sw_heap (k := front.length) hstore ?_ ?_) ?_
    · rw [ht1]
      exact heapAddress_offset (by omega)
    · rw [hheap, List.length_append, List.length_cons]
      omega
    refine Leads.step
      (moves_result (u := heapAddress (front.length + 1)) hnext (by decide) ?_) ?_
    · show some (V.reg Reg.t1 + UInt32.ofInt 4) = _
      rw [ht1]
      exact congrArg some (heapAddress_offset (by omega))
    refine Leads.step (moves_result (u := UInt32.ofInt (i + 1)) hcount (by decide) ?_) ?_
    · show some (V.reg Reg.t0 + UInt32.ofInt 1) = _
      rw [ht0, UInt32.ofInt_add]
    refine Leads.step (moves_taken hjump rfl htop) ?_
    refine @ih _ (front ++ [0]) (i + 1) ?_ rfl ?_ ?_ (by omega) (by omega) ?_
    · show V.heap.set front.length (V.reg Reg.zero) = _
      rw [hzero, hheap, List.set_append_right _ _ (Nat.le_refl _), Nat.sub_self,
        List.set_cons_zero, List.append_assoc]
      rfl
    · rw [List.length_append, List.length_singleton]
      rfl
    · show V.reg Reg.t2 = _
      rw [ht2]
      congr 1
      omega
    · intro V' hstays ha0 hheap' hout
      refine h V' ⟨hstays.sp, hstays.fp, hstays.stack⟩ ha0 ?_ hout
      rw [hheap', List.append_assoc]
      rfl

/-- An object of the given shape is made where there is room for it. -/
theorem Leads.makeObject (hS : Setting p cfg m cs b) {l : Layout} {top done : Bytes}
    (hlies : LiesAt p pc (Gen.makeObject l top done))
    (hroom : V.heap.length + (3 + l.fields) ≤ b.heap)
    (h : ∀ V', Stays d V V' → V'.reg Reg.a0 = heapAddress V.heap.length →
      V'.heap = V.heap ++ UInt32.ofInt l.tag :: UInt32.ofInt l.bytes :: 0 ::
        List.replicate l.fields 0 → V'.out = V.out → Leads p cfg k (pc + 17) V' x pc' post) :
    Leads p cfg k pc V x pc' post := by
  obtain ⟨hbytes, hnine, hsbrk, hkeep, htag, htag', hsize, hsize', hzero, hpointer, hcounter,
    hfields, hloop⟩ := hlies
  have hheapBytes := hS.heap
  have hapart := hS.apart
  have hlayout : (l.bytes : Int) = 4 * (3 + l.fields) := by
    rw [Layout.bytes, headerWords]
    omega
  refine Leads.of_zero fun hzeroReg => ?_
  have hne₀ : Reg.a0 ≠ Reg.zero := by decide
  have hne₁ : Reg.t1 ≠ Reg.zero := by decide
  have hne₂ : Reg.t2 ≠ Reg.zero := by decide
  refine Leads.step (moves_result (u := UInt32.ofInt l.bytes) hbytes hne₀ rfl) ?_
  refine Leads.step (moves_result (u := 9) hnine (by decide) rfl) ?_
  refine Leads.sbrk (n := 3 + l.fields) hsbrk rfl ?_ ?_ ?_ ?_
  · show signed (UInt32.ofInt l.bytes) = _
    rw [signed_ofInt (by omega) (by omega)]
    omega
  · show (56 + 4 * (V.heap.length + (3 + l.fields : Nat)) : Int) ≤ _
    omega
  · show 56 + 4 * (V.heap.length + (3 + l.fields)) + _ ≤ _
    omega
  intro fresh hfresh
  rw [Nat.add_comm] at hfresh
  obtain ⟨u₀, fresh, rfl⟩ := List.exists_cons_of_length_eq_add_one hfresh
  obtain ⟨u₁, fresh, rfl⟩ := List.exists_cons_of_length_eq_add_one (Nat.add_right_cancel hfresh)
  have hfresh : (u₁ :: fresh).length = l.fields + 1 + 1 := Nat.add_right_cancel hfresh
  obtain ⟨u₂, rest, rfl⟩ := List.exists_cons_of_length_eq_add_one (Nat.add_right_cancel hfresh)
  have hrest : rest.length = l.fields := Nat.add_right_cancel (Nat.add_right_cancel hfresh)
  have hset : ∀ a b c, (((V.heap ++ u₀ :: u₁ :: u₂ :: rest).set V.heap.length a).set
      (V.heap.length + 1) b).set (V.heap.length + 2) c = V.heap ++ [a, b, c] ++ rest := by
    intro a b c
    simp
  refine Leads.step (moves_result (u := heapAddress V.heap.length) hkeep hne₀ rfl) ?_
  refine Leads.step (moves_result (u := UInt32.ofInt l.tag) htag hne₁ rfl) ?_
  refine Leads.step (moves_sw_heap (k := V.heap.length) htag' ?_ ?_) ?_
  · show heapAddress V.heap.length + UInt32.ofInt 0 = _
    exact heapAddress_offset (by omega)
  · show V.heap.length < (V.heap ++ u₀ :: u₁ :: u₂ :: rest).length
    simp
  refine Leads.step (moves_result (u := UInt32.ofInt l.bytes) hsize hne₁ rfl) ?_
  refine Leads.step (moves_sw_heap (k := V.heap.length + 1) hsize' ?_ ?_) ?_
  · show heapAddress V.heap.length + UInt32.ofInt 4 = _
    exact heapAddress_offset (by omega)
  · show V.heap.length + 1 < ((V.heap ++ u₀ :: u₁ :: u₂ :: rest).set _ _).length
    simp
  refine Leads.step (moves_sw_heap (k := V.heap.length + 2) hzero ?_ ?_) ?_
  · show heapAddress V.heap.length + UInt32.ofInt 8 = _
    exact heapAddress_offset (by omega)
  · show V.heap.length + 2 < (((V.heap ++ u₀ :: u₁ :: u₂ :: rest).set _ _).set _ _).length
    simp
  refine Leads.step (moves_result (u := heapAddress (V.heap.length + 3)) hpointer hne₁ ?_) ?_
  · show some (heapAddress V.heap.length + UInt32.ofInt 12) = _
    exact congrArg some (heapAddress_offset (by omega))
  refine Leads.step (moves_result (u := UInt32.ofInt 0) hcounter (by decide) rfl) ?_
  refine Leads.step (moves_result (u := UInt32.ofInt l.fields) hfields hne₂ rfl) ?_
  refine @Leads.fillObject p cfg k _ pc' d _ α x post l top done
    (V.heap ++ [UInt32.ofInt l.tag, UInt32.ofInt l.bytes, 0]) rest 0 hloop ?_ rfl ?_ ?_
    (by omega) (by omega) ?_
  · refine Eq.trans ?_ (hset _ _ 0)
    show List.set _ _ (V.reg Reg.zero) = _
    rw [hzeroReg]
    rfl
  · rw [List.length_append]
    rfl
  · show UInt32.ofInt l.fields = _
    rw [hrest, Int.zero_add]
  · intro V' hstays ha0 hheap hout
    refine h V' ⟨hstays.sp, hstays.fp, hstays.stack⟩ ha0 ?_ hout
    rw [hheap, hrest, List.append_assoc]
    rfl

/-- The value that a field starts with is kept as a zero. -/
theorem word_initial (type : Ty) : word (initial type) = 0 := by
  cases type with
  | int => rfl
  | boolean => rfl
  | intArray => rfl
  | object c => rfl

/-- An object is made. -/
theorem Leads.newObject (hS : Setting p cfg m cs b) (hshows : Shows (tableOf m cs) cs w V)
    {c : Bytes} {cls : ClassInfo} (hfind : (tableOf m cs).find? c = some cls)
    (hentry : (tableOf m cs).isEntry c = false) {top done : Bytes}
    (hlies : LiesAt p pc (Gen.makeObject ((tableOf m cs).layout cls) top done)) :
    Leads p cfg k pc V (Semantics.newObject cs b w c) (pc + 17)
      (Yields m cs d V) := by
  have hfields : (fieldsOf cs c).length = (tableOf m cs).fieldCount cls := by
    obtain ⟨rfl, rfl | ⟨decl, hdecl, i, -, -, rfl⟩⟩ := find?_cases hfind
    · simp [ClassTable.isEntry, tableOf] at hentry
    · exact length_fieldsOf hS.declared hdecl i
  have hheap := hshows.length_heap
  rw [Semantics.newObject, World.allocate]
  split
  · rename_i hfits
    simp only [Cell.words] at hfits
    refine Leads.makeObject (d := d) hS hlies ?_ ?_
    · show V.heap.length + (3 + (tableOf m cs).fieldCount cls) ≤ _
      omega
    · intro V' hstays ha0 hheap' hout
      refine Leads.done rfl ⟨?_, hstays, ?_⟩
      · show V'.reg Reg.a0 = heapAddress (wordsOf cs w.heap)
        rw [ha0, hheap]
      · refine (hshows.allocate _).congr ?_ hout
        show V'.heap = V.heap ++ cellWords _ _ _
        rw [hheap', cellWords_zeros, hfind, hfields]
        · rfl
        · intro key
          split
          · exact word_initial _
          · rfl
  · exact fun _ _ => trivial

end Routines

end MiniJava.Simulation
