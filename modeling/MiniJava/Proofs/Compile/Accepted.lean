import MiniJava.Proofs.Compile.Linked
import MiniJava.Proofs.Machine.Execution

/-!
# Accepted programs

A source is accepted if it compiles and the assembler takes the code.  There is no bound on the
size of the source: whatever was taken lies in the image as it was generated, but for numbers, of
which the image has the signed number of their 32 bits.

* **`Code.Legible`** — code that is read back; `Compiled.legible`: all compiled code is.
* **`Laid`** — code of an image, whatever became of the numbers in it.
* **`Accepted`** — an accepted source, its code and its image.
* **`Accepted.laid`** — every part of the code lies in the image.
-/

namespace MiniJava

open Instr Reg Code Gen Machine

/-! ### Legible code -/

/-- Code that is read back as it was written. -/
def Code.Legible (c : Code) : Prop := ∀ l ∈ c, l.Legible

namespace Code.Legible

variable {a b c : Code}

theorem nil : Legible [] := by
  intro l hl
  cases hl

theorem append (ha : a.Legible) (hb : b.Legible) : Legible (a ++ b) :=
  List.forall_mem_append.mpr ⟨ha, hb⟩

theorem cons {l : Line} (hl : l.Legible) (hc : c.Legible) : Legible (l :: c) :=
  List.forall_mem_cons.mpr ⟨hl, hc⟩

theorem of_plain {known : List Bytes} (h : Plain known c) : c.Legible :=
  fun l hl => (h.writable l hl).legible

/-- The pieces of code that are the same in every program. -/
theorem piece (h : c ∈ [push a0, push fp, pop 1, nullCheck a0, readElement, writeElement,
    [Code.one (lw t1 4 sp)], [Code.one (lw a0 0 a0)], [Code.one (li a0 0)],
    [Code.one (withRegs .nor a0 a0 a0)], [Code.one (jump .jal Support.printInt)],
    [Code.one (jump .jal Support.allocArray), Code.one (move a0 v0)], [Code.one (move a0 v0)],
    [Code.one (move fp sp), Code.one (sw ra 0 sp)], Support.exit]) : c.Legible :=
  of_plain (plain_pieces c h)

end Code.Legible

section Instructions

variable (n : Int) (r r' : Reg) {l : Bytes} (hl : isLabel l)

theorem legible_of_number (op : Opcode) (hop : op ∈ Opcode.names.map (·.2) ∧ .label ∉ op.operands)
    {i : Instr} (hi : i.op = op) (hwhole : i.absorb { op := i.op } 0 i.op.operands = i) :
    (one i).Legible := by
  subst hi
  exact ⟨⟨hop.1, fun h => absurd h hop.2, hwhole⟩, rfl⟩

theorem legible_li : (one (li r n)).Legible := legible_of_number .li (by decide) rfl rfl

theorem legible_lw : (one (lw r n r')).Legible := legible_of_number .lw (by decide) rfl rfl

theorem legible_sw : (one (sw r n r')).Legible := legible_of_number .sw (by decide) rfl rfl

theorem legible_addiu : (one (withImm .addiu r r' n)).Legible :=
  legible_of_number .addiu (by decide) rfl rfl

theorem legible_of_label (op : Opcode) (hop : op ∈ Opcode.names.map (·.2)) {i : Instr}
    (hi : i.op = op) (hlabel : isLabel i.label)
    (hwhole : i.absorb { op := i.op } 0 i.op.operands = i) : (one i).Legible := by
  subst hi
  exact ⟨⟨hop, fun _ => hlabel, hwhole⟩, rfl⟩

include hl

theorem legible_beq : (one (branch .beq r r' l)).Legible :=
  legible_of_label .beq (by decide) rfl hl rfl

theorem legible_bge : (one (branch .bge r r' l)).Legible :=
  legible_of_label .bge (by decide) rfl hl rfl

theorem legible_j : (one (jump .j l)).Legible := legible_of_label .j (by decide) rfl hl rfl

theorem legible_jal : (one (jump .jal l)).Legible := legible_of_label .jal (by decide) rfl hl rfl

end Instructions

theorem legible_address (sc : Scope) (v : Variable) : (sc.address v).1.Legible := by
  unfold Scope.address
  cases v.role with
  | field => exact .cons (legible_lw _ _ _) .nil
  | _ => exact .nil

theorem legible_load (sc : Scope) (v : Variable) : (sc.load v).Legible :=
  (legible_address sc v).append (.cons (legible_lw _ _ _) .nil)

theorem legible_store (sc : Scope) (v : Variable) : (sc.store v).Legible :=
  (legible_address sc v).append (.cons (legible_sw _ _ _) .nil)

theorem legible_makeObject (l : Layout) (n : Nat) :
    (makeObject l (labelText n) (labelText (n + 1))).Legible := by
  have htop := isLabel_labelText n
  have hdone := isLabel_labelText (n + 1)
  have hfixed : ∀ c ∈ [Code.one (li v0 9), Code.one Instr.syscall, Code.one (move a0 v0),
      .instr (sw t1 0 a0) "        # class tag", .instr (sw t1 4 a0) "        # object size",
      .instr (sw Reg.zero 8 a0) "      # dispatch word",
      Code.one (withImm .addiu t1 a0 (4 * headerWords))], c.Writable := by decide +kernel
  simp only [List.forall_mem_cons] at hfixed
  obtain ⟨hcode, hcall, hmove, htag, hsize, hzero, hfields, -⟩ := hfixed
  unfold makeObject
  refine .cons (legible_li _ _) (.cons hcode.legible (.cons hcall.legible (.cons hmove.legible ?_)))
  refine .cons (legible_li _ _) (.cons htag.legible (.cons (legible_li _ _) ?_))
  refine .cons hsize.legible (.cons hzero.legible (.cons hfields.legible ?_))
  refine .cons (legible_li _ _) (.cons (legible_li _ _) (.cons htop ?_))
  refine .cons (legible_bge _ _ hdone) (.cons (legible_sw _ _ _) (.cons (legible_addiu _ _ _) ?_))
  exact .cons (legible_addiu _ _ _) (.cons (legible_j htop) (.cons hdone .nil))

/-- What is called in a method has a label that is one. -/
def Scope.Labelled (sc : Scope) : Prop :=
  ∀ (x m : Bytes) (cls : ClassInfo) (target : Method), IsName m →
    sc.table.find? x = some cls → sc.table.method? cls m = some target →
      isLabel (entryLabel target.owner target.name)

mutual

/-- The code of an expression is legible. -/
theorem legible_of_exprCode {sc : Scope} (hsc : sc.Labelled) {n n' : Nat} {e : Expr} {type : Ty}
    {code : Code} : e.Written → ExprCode sc n e type code n' → code.Legible
  | _, .int => .cons (legible_li _ _) .nil
  | _, .true => .cons (legible_li _ _) (.piece (by simp))
  | _, .false => .cons (legible_li _ _) .nil
  | _, .this _ => .cons (legible_lw _ _ _) .nil
  | _, .var _ => legible_load _ _
  | hw, .not h => (legible_of_exprCode hsc hw.2.2 h).append (.piece (by simp))
  | hw, .binary h h' hop => by
    have hleft := (legible_of_exprCode hsc hw.2.2.1 h).append (.piece (c := push a0) (by simp))
    have hright := (hleft.append (legible_of_exprCode hsc hw.2.2.2 h')).append
      (.piece (c := [Code.one (lw t1 4 sp)]) (by simp))
    exact (hright.append (.of_plain (plain_combine hop))).append (.piece (by simp))
  | hw, .index h h' => by
    have harray := (legible_of_exprCode hsc hw.2.1 h).append (.piece (c := push a0) (by simp))
    exact (harray.append (legible_of_exprCode hsc hw.2.2 h')).append (.piece (by simp))
  | hw, .length h => (legible_of_exprCode hsc hw.2 h).append (.piece (by simp))
  | hw, .newArray h => (legible_of_exprCode hsc hw.2 h).append (.piece (by simp))
  | _, .newObject _ _ => legible_makeObject _ _
  | hw, .call h hcls htarget _ hs => by
    obtain ⟨-, hwrecv, hwm, hwargs⟩ := hw
    have hrecv := (legible_of_exprCode hsc hwrecv h).append (.piece (c := nullCheck a0) (by simp))
    have hframe := (hrecv.append (.piece (c := push fp) (by simp))).append
      (.piece (c := push a0) (by simp))
    exact (hframe.append (legible_of_argsCode hsc hwargs hs)).append
      (.cons (legible_jal (hsc _ _ _ _ hwm.name hcls htarget)) (.piece (by simp)))

theorem legible_of_argsCode {sc : Scope} (hsc : sc.Labelled) {n n' : Nat} {es : List Expr}
    {code : Code} : Expr.AllWritten es → ArgsCode sc n es code n' → code.Legible
  | _, .nil => .nil
  | hw, .cons hs h =>
    ((legible_of_argsCode hsc hw.2 hs).append (legible_of_exprCode hsc hw.1 h)).append
      (.piece (by simp))

end

mutual

/-- The code of a statement is legible. -/
theorem legible_of_stmtCode {sc : Scope} (hsc : sc.Labelled) {n n' : Nat} {s : Stmt}
    {code : Code} : s.Written → StmtCode sc n s code n' → code.Legible
  | hw, .block hs => legible_of_stmtsCode hsc hw.2 hs
  | hw, .cond (n := n) hc ha hb => by
    have helse := isLabel_labelText n
    have hdone := isLabel_labelText (n + 1)
    have htest := (legible_of_exprCode hsc hw.2.1 hc).append
      (.cons (legible_beq a0 Reg.zero helse) .nil)
    have hthen := (htest.append (legible_of_stmtCode hsc hw.2.2.1 ha)).append
      (.cons (legible_j hdone) (.cons (l := .label (labelText n)) helse .nil))
    exact (hthen.append (legible_of_stmtCode hsc hw.2.2.2 hb)).append (.cons hdone .nil)
  | hw, .loop (n := n) hc hb => by
    have htop := isLabel_labelText n
    have hdone := isLabel_labelText (n + 1)
    have htest := (Code.Legible.cons (l := .label (labelText n)) htop
      (legible_of_exprCode hsc hw.2.1 hc)).append (.cons (legible_beq a0 Reg.zero hdone) .nil)
    exact (htest.append (legible_of_stmtCode hsc hw.2.2 hb)).append
      (.cons (legible_j htop) (.cons hdone .nil))
  | hw, .print h => (legible_of_exprCode hsc hw.2 h).append (.piece (by simp))
  | hw, .assign (v := v) h _ => by
    have hcheck : Code.Legible (if v.type.isReference then nullCheck a0 else []) := by
      split
      · exact .piece (by simp)
      · exact .nil
    exact ((legible_of_exprCode hsc hw.2.2 h).append hcheck).append (legible_store _ _)
  | hw, .assignElem _ _ h h' => by
    have hpush : (push a0).Legible := .piece (by simp)
    have hindex := (legible_of_exprCode hsc hw.2.2.1 h).append hpush
    have hvalue := (hindex.append (legible_of_exprCode hsc hw.2.2.2 h')).append hpush
    exact (hvalue.append (legible_load _ _)).append (.piece (by simp))

theorem legible_of_stmtsCode {sc : Scope} (hsc : sc.Labelled) {n n' : Nat} {ss : List Stmt}
    {code : Code} : Stmt.AllWritten ss → StmtsCode sc n ss code n' → code.Legible
  | _, .nil => .nil
  | hw, .cons h hs =>
    (legible_of_stmtCode hsc hw.1 h).append (legible_of_stmtsCode hsc hw.2 hs)

end

theorem legible_prologue (m : Method) : (prologue m).Legible :=
  Code.Legible.append (.piece (c := [Code.one (move fp sp), Code.one (sw ra 0 sp)]) (by simp))
    (.cons (legible_addiu _ _ _) .nil)

theorem legible_epilogue (m : Method) : (epilogue m).Legible := by
  have hfixed : ∀ l ∈ [Code.one (move v0 a0), Code.one (lw ra 4 sp), Code.one (lw fp 0 sp),
      Code.one (onReg .jr ra)], l.Writable := by decide +kernel
  simp only [List.forall_mem_cons] at hfixed
  obtain ⟨hresult, hreturn, hframe, hjump, -⟩ := hfixed
  unfold epilogue
  refine .cons hresult.legible (.cons (legible_addiu _ _ _) (.cons hreturn.legible ?_))
  refine .cons (legible_addiu _ _ _) (.cons hframe.legible (.cons hjump.legible ?_))
  exact .cons trivial .nil

namespace Compiled

variable {p : Program} {m : MainClass} {start others : Code} {n n' : Nat}
  (h : Compiled p m start others n n')

include h

theorem labelled {sc : Scope} (hsc : sc.table = tableOf m p.classes) : sc.Labelled := by
  intro x name cls target hname hfind hmethod
  rw [hsc] at hfind hmethod
  obtain ⟨c, hc, d, hd, -, rfl⟩ := h.callee_spec hname hfind hmethod
  have hwritten := h.written.classes c hc
  exact isLabel_entryLabel hwritten.name.name.1 (hwritten.methods d hd).name.name.1

theorem legible_method {c : ClassDecl} (hc : c ∈ p.classes) {d : MethodDecl} (hd : d ∈ c.methods)
    {k a b : Nat} {code : Code}
    (hcode : MethodCode (tableOf m p.classes) (c.info p.classes k) a d code b) : code.Legible := by
  obtain ⟨hinfo, hbody, hresult⟩ := hcode
  rw [h.method_spec hc hd k] at hinfo
  obtain rfl := Option.some.inj hinfo
  have hclass := h.written.classes c hc
  have hwritten := hclass.methods d hd
  have hword := hclass.name.name.1
  have hbyte : ∀ {a : UInt8}, isWordPart a → isLineByte a := fun h =>
    (isBody_spec _ (isBody_of_isInner (isInner_of_isLabelByte (isLabelByte_of_isWordPart h)))).1
  have hremark : ∀ a ∈ c.name.name ++ utf8 "." ++ d.name.name, isLineByte a := by
    simp only [List.forall_mem_append]
    exact ⟨⟨fun a ha => hbyte (hword.2 a ha), List.all_eq_true.mp (by decide)⟩,
      fun a ha => hbyte (hwritten.name.name.1.2 a ha)⟩
  have hlabel : isLabel (entryLabel c.name.name d.name.name) :=
    isLabel_entryLabel hword hwritten.name.name.1
  have hstart : Code.Legible [.remark 0 (c.name.name ++ "." ++ d.name.name),
      .label (entryLabel c.name.name d.name.name)] := .cons hremark (.cons hlabel .nil)
  have hstmts := (hstart.append (legible_prologue (d.info c.name.name))).append
    (legible_of_stmtsCode (h.labelled rfl) hwritten.body hbody)
  exact (hstmts.append (legible_of_exprCode (h.labelled rfl) hwritten.result hresult)).append
    (legible_epilogue _)

theorem legible_methods {c : ClassDecl} (hc : c ∈ p.classes) {ds : List MethodDecl}
    (hds : ∀ d ∈ ds, d ∈ c.methods) {k a b : Nat} {code : Code}
    (hcode : MethodsCode (tableOf m p.classes) (c.info p.classes k) a ds code b) :
    code.Legible := by
  induction hcode with
  | nil => exact .nil
  | cons hd _ ih =>
    rw [List.forall_mem_cons] at hds
    exact (h.legible_method hc hds.1 hd).append (ih hds.2)

theorem legible_classes {cs : List ClassDecl} (hcs : ∀ c ∈ cs, c ∈ p.classes) {a b : Nat}
    {code : Code} (hcode : ClassesCode (tableOf m p.classes) a cs code b) : code.Legible := by
  induction hcode with
  | nil => exact .nil
  | cons hfind hmethods _ ih =>
    rw [List.forall_mem_cons] at hcs
    obtain ⟨k, -, -, hclass⟩ := h.class_spec hcs.1
    rw [hclass] at hfind
    obtain rfl := Option.some.inj hfind
    exact (h.legible_methods hcs.1 (fun d hd => hd) hmethods).append (ih hcs.2)

theorem legible_main : start.Legible := by
  obtain ⟨m', hmain, hwritten⟩ := h.written.main
  rw [h.main] at hmain
  obtain rfl := Option.some.inj hmain
  cases h.start with
  | @mk _ _ info body _ hbody =>
    have hlabel : (Line.label "main").Legible := by
      show isLabel _
      decide
    have hframe : (Code.one (move fp sp)).Legible :=
      Code.Legible.piece (c := [Code.one (move fp sp), Code.one (sw ra 0 sp)]) (by simp) _ (by simp)
    have hexit : Plain Support.labels ([.remark 4 "exit"] ++ Support.exit ++ [.blank]) := by
      decide +kernel
    have hstart : Code.Legible [.label "main", Code.one (move fp sp),
        Code.one (withImm .addiu sp sp (-4 * (info.locals.length + 1)))] :=
      .cons hlabel (.cons hframe (.cons (legible_addiu _ _ _) .nil))
    have hstmts := legible_of_stmtsCode (h.labelled rfl) hwritten.body hbody
    have hwhole := (hstart.append hstmts).append (.of_plain hexit)
    simp only [List.append_assoc] at hwhole ⊢
    exact hwhole

/-- All lines of a compiled program are legible. -/
theorem legible : Code.Legible (start ++ others ++ Support.routines) := by
  have hroutines : ∀ l ∈ Support.routines, l.Writable := by decide +kernel
  exact (h.legible_main.append (h.legible_classes (fun c hc => hc) h.others)).append
    fun l hl => (hroutines l hl).legible

end Compiled

/-! ### Code in the image of an accepted program -/

/-- The code lies in the image, with the numbers that the assembler keeps, and its first instruction
has the number `k`. -/
def Laid (p : Image) (k : Nat) (c : Code) : Prop := LiesAt p k c.wrapped

@[simp] theorem Code.size_wrapped (c : Code) : c.wrapped.size = c.size := by
  simp [size]

theorem laid_append {p : Image} {k : Nat} {a b : Code} :
    Laid p k (a ++ b) ↔ Laid p k a ∧ Laid p (k + a.size) b := by
  unfold Laid
  rw [wrapped_append, liesAt_append, size_wrapped]

theorem laid_instr {p : Image} {k : Nat} {i : Instr} {r : Bytes} {c : Code} :
    Laid p k (.instr i r :: c) ↔ Performs p k i ∧ Laid p (k + 1) c := Iff.rfl

theorem laid_label {p : Image} {k : Nat} {l : Bytes} {c : Code} :
    Laid p k (.label l :: c) ↔ p.textLabels.lookup l = some (k : Int) ∧ Laid p k c := Iff.rfl

/-- A source that is accepted: it is read and declares what it should, its code is generated, and
the assembler takes the code. -/
structure Accepted (source : Bytes) (p : Program) (t : ClassTable) (whole : Code) (image : Image) :
    Prop where
  analyzed : analyze source = .ok (p, t)
  generated : (Gen.program p t Generator.fresh.reset).1 = .ok whole
  assembled : assemble whole.text = .ok image

theorem Gen.eq_ok_of_result {α : Type} {x : Gen α} {g : Generator} {a : α}
    (h : (x g).1 = .ok a) : x g = (.ok a, (x g).2) :=
  Prod.ext h rfl

/-- What a step with a generator yields, if it yields something. -/
theorem Gen.eq_ok_of_mem {α : Type} {x : Gen α} {g : Generator} {a : α}
    (h : a ∈ (x g).1.toOption) : x g = (.ok a, (x g).2) := by
  cases hresult : (x g).1 with
  | error e =>
    rw [hresult] at h
    cases h
  | ok b =>
    rw [hresult] at h
    obtain rfl := Option.some.inj h
    exact eq_ok_of_result hresult

/-- What a source that is accepted is made of, if it is within bounds.  The image is made from the
code, so that there is no text to be read. -/
def accept? (source : Bytes) : Option (Program × ClassTable × Code × Image) :=
  match analyze source with
  | .error _ => none
  | .ok (p, t) =>
      match (Gen.program p t Generator.fresh.reset).1 with
      | .error _ => none
      | .ok whole =>
          if source.length < 0x4000000 ∧ p.NamesShort then
            some (p, t, whole, Code.image (whole.drop Support.header.length))
          else none

theorem accepted_of_accept? {source : Bytes} {p : Program} {t : ClassTable} {whole : Code}
    {image : Image} (h : accept? source = some (p, t, whole, image)) :
    Accepted source p t whole image := by
  unfold accept? at h
  split at h
  case h_1 => cases h
  case h_2 p' t' hanalyze =>
    split at h
    case h_1 => cases h
    case h_2 whole' hprogram =>
      split at h
      case isFalse => cases h
      case isTrue hbounds =>
        cases h
        obtain ⟨-, hweight, m, start, others, g, -, hcompiled, -, rfl⟩ :=
          generated_spec hanalyze (Gen.eq_ok_of_result hprogram)
        refine ⟨hanalyze, hprogram, ?_⟩
        rw [List.drop_left]
        exact assemble_text (hcompiled.assemblable (by omega) hbounds.2)

namespace Accepted

variable {source : Bytes} {p : Program} {t : ClassTable} {whole : Code} {image : Image}
  (h : Accepted source p t whole image)

include h

/-- The parts that the code of an accepted program has. -/
theorem parts : ∃ m start others n n', t = tableOf m p.classes ∧
    Compiled p m start others n n' ∧
    whole = Support.header ++ (start ++ others ++ Support.routines) := by
  obtain ⟨-, -, m, start, others, g, ht, hcompiled, -, hwhole⟩ :=
    generated_spec h.analyzed (Gen.eq_ok_of_result h.generated)
  exact ⟨m, start, others, _, _, ht, hcompiled, hwhole⟩

/-- What the assembler made of the code of an accepted program. -/
theorem image_spec : ∃ c : Code, whole = Support.header ++ c ∧ c.labels.Nodup ∧
    image = c.wrapped.image ∧ ∀ i ∈ c.instrs, Immediate.InRange i.imm := by
  have hassembled := h.assembled
  obtain ⟨m, start, others, n, n', -, hcompiled, hwhole⟩ := h.parts
  rw [hwhole] at hassembled
  exact ⟨_, hwhole, of_assemble_text hcompiled.legible hassembled⟩

/-- All of the code lies in the image. -/
theorem laid_whole : Laid image 0 whole := by
  obtain ⟨c, rfl, hnodup, rfl, -⟩ := h.image_spec
  have hlies := @liesAt_image [] c.wrapped [] (by simpa using hnodup)
  rw [List.nil_append, List.append_nil] at hlies
  exact hlies

/-- Every part of the code lies in the image. -/
theorem laid {front c back : Code} (hwhole : whole = front ++ c ++ back) :
    Laid image front.size c := by
  have hlaid := h.laid_whole
  rw [hwhole, laid_append, laid_append, Nat.zero_add] at hlaid
  exact hlaid.1.2

/-- The numbers in the code have 32 bits. -/
theorem inRange {i : Instr} (hi : i ∈ whole.instrs) : Immediate.InRange i.imm := by
  obtain ⟨c, rfl, -, -, hranges⟩ := h.image_spec
  exact hranges i hi

theorem dataLabels_eq : image.dataLabels = Support.messageLabels := by
  obtain ⟨c, -, -, rfl, -⟩ := h.image_spec
  rfl

theorem address? {l : Bytes} {a : UInt32} (hl : Support.messageLabels.lookup l = some a) :
    image.address? l = some a := by
  rw [Image.address?, h.dataLabels_eq, hl]
  rfl

theorem size_text : image.text.size = whole.size := by
  obtain ⟨c, rfl, -, rfl, -⟩ := h.image_spec
  show (numbered _ c.wrapped).toArray.size = _
  rw [List.size_toArray, length_numbered, size_wrapped]
  rfl

/-- The routines lie at the end of the image. -/
theorem routines_laid : ∃ front, whole = front ++ Support.routines ∧
    Laid image front.size Support.routines := by
  obtain ⟨m, start, others, n, n', -, -, hwhole⟩ := h.parts
  have hsplit : whole = Support.header ++ (start ++ others) ++ Support.routines ++ [] := by
    rw [hwhole]
    simp only [List.append_assoc, List.append_nil]
  exact ⟨_, hsplit.trans (List.append_nil _), h.laid hsplit⟩

/-- What is called by a name is a declared method, and its code is part of the whole. -/
theorem callee {x name : Bytes} (hname : IsName name) {cls : ClassInfo} {target : Method}
    (hfind : t.find? x = some cls) (hmethod : t.method? cls name = some target) :
    ∃ c ∈ p.classes, ∃ d ∈ c.methods, ∃ k n n₁ n₂ type stmts result front back,
      target = d.info c.name.name ∧
      StmtsCode ⟨t, c.info p.classes k, target, false⟩ n d.body stmts n₁ ∧
      ExprCode ⟨t, c.info p.classes k, target, false⟩ n₁ d.result type result n₂ ∧
      whole = front ++ .label (entryLabel target.owner target.name) ::
        (prologue target ++ (stmts ++ result) ++ epilogue target) ++
          (back ++ Support.routines) := by
  obtain ⟨m, start, others, a, b, rfl, hcompiled, hwhole⟩ := h.parts
  obtain ⟨c, hc, d, hd, -, rfl⟩ := hcompiled.callee_spec hname hfind hmethod
  obtain ⟨k, -, -, hclass⟩ := hcompiled.class_spec hc
  obtain ⟨own, n, n', front, code, back, hown, hcode, rfl⟩ :=
    methodCode_of_classes hc hd hcompiled.others
  rw [hclass] at hown
  obtain rfl := Option.some.inj hown
  cases hcode with
  | mk hinfo hstmts hresult =>
    rw [hcompiled.method_spec hc hd k] at hinfo
    obtain rfl := Option.some.inj hinfo
    refine ⟨c, hc, d, hd, _, _, _, _, _, _, _, Support.header ++ (start ++ front) ++
      [.remark 0 (c.name.name ++ "." ++ d.name.name)], back, rfl, hstmts, hresult, ?_⟩
    rw [hwhole]
    simp only [List.append_assoc, List.cons_append, List.nil_append]
    rfl

end Accepted

end MiniJava
