import Mathlib.Data.List.Perm.Basic
import MiniJava.Proofs.Compile.Labels
import MiniJava.Proofs.Compile.Translation
import MiniJava.Proofs.Tree.Weight
import MiniJava.Proofs.Tree.Written

/-!
# What is emitted

The code of expressions and statements: how large it is, that it defines each label it was given
exactly once, and that its lines can be written and name no label that is not there.

* **`exprCode_size`**, **`stmtCode_size`** — code is linear in the size of the tree.
* **`Emitted`** — code fit to be assembled, with labels of the given numbers.
* **`Scope.Fits`** — a method whose variables, classes and callees are within bounds.
* **`emitted_of_exprCode`**, **`emitted_of_stmtCode`** — the code of a method is so.
-/

namespace MiniJava

open Instr Reg Code Gen

/-! ### The size of code -/

@[simp] theorem length_instrs_push (r : Reg) : (instrs (push r)).length = 2 := rfl

@[simp] theorem length_instrs_pop (n : Nat) : (instrs (pop n)).length = 1 := rfl

@[simp] theorem length_instrs_nullCheck (r : Reg) : (instrs (nullCheck r)).length = 1 := rfl

theorem length_instrs_load_le (sc : Scope) (v : Variable) : (instrs (sc.load v)).length ≤ 2 := by
  unfold Scope.load Scope.address
  cases v.role <;> simp

theorem length_instrs_store_le (sc : Scope) (v : Variable) :
    (instrs (sc.store v)).length ≤ 2 := by
  unfold Scope.store Scope.address
  cases v.role <;> simp

theorem length_instrs_combine_le {op : BinaryOp} {type : Ty} {code : Code}
    (h : combine op = some (type, code)) : (instrs code).length ≤ 2 := by
  cases op with
  | other s => cases h
  | _ =>
    obtain ⟨-, rfl⟩ := Prod.mk.inj (Option.some.inj h)
    decide

mutual

/-- Labels and instructions are linear in the size of an expression. -/
theorem exprCode_size {sc : Scope} {n n' : Nat} {e : Expr} {type : Ty} {code : Code} :
    ExprCode sc n e type code n' →
      n ≤ n' ∧ n' ≤ n + e.weight ∧ (instrs code).length + 2 ≤ 8 * e.weight
  | .int => by simp [Expr.weight]
  | .true => by simp [Expr.weight]
  | .false => by simp [Expr.weight]
  | .this _ => by simp [Expr.weight]
  | .var (v := v) _ => by
    have hload := length_instrs_load_le sc v
    simp only [Expr.weight]
    omega
  | .not h => by
    have he := exprCode_size h
    simp only [Expr.weight, instrs_append, instrs_one, instrs_nil, List.length_append,
      List.length_cons, List.length_nil]
    omega
  | .binary h h' hop => by
    have hl := exprCode_size h
    have hr := exprCode_size h'
    have hcode := length_instrs_combine_le hop
    simp only [Expr.weight, instrs_append, instrs_one, instrs_nil, List.length_append,
      List.length_cons, List.length_nil, length_instrs_push, length_instrs_pop]
    omega
  | .index h h' => by
    have ha := exprCode_size h
    have hi := exprCode_size h'
    have hread : (instrs readElement).length = 8 := rfl
    simp only [Expr.weight, instrs_append, List.length_append, length_instrs_push, hread]
    omega
  | .length h => by
    have ha := exprCode_size h
    simp only [Expr.weight, instrs_append, instrs_one, instrs_nil, List.length_append,
      List.length_cons, List.length_nil]
    omega
  | .newArray h => by
    have he := exprCode_size h
    simp only [Expr.weight, instrs_append, instrs_one, instrs_nil, List.length_append,
      List.length_cons, List.length_nil]
    omega
  | .newObject _ _ => by
    have hmake (l : Layout) (top done : Bytes) : (instrs (makeObject l top done)).length = 17 := rfl
    simp only [Expr.weight, hmake]
    omega
  | .call h _ _ _ hs => by
    have hrecv := exprCode_size h
    have hargs := argsCode_size hs
    simp only [Expr.weight, instrs_append, instrs_one, instrs_nil, List.length_append,
      List.length_cons, List.length_nil, length_instrs_push, length_instrs_nullCheck]
    omega

theorem argsCode_size {sc : Scope} {n n' : Nat} {es : List Expr} {code : Code} :
    ArgsCode sc n es code n' →
      n ≤ n' ∧ n' ≤ n + Expr.weights es ∧ (instrs code).length ≤ 8 * Expr.weights es
  | .nil => by simp [Expr.weights]
  | .cons hs h => by
    have hes := argsCode_size hs
    have he := exprCode_size h
    simp only [Expr.weights, instrs_append, List.length_append, length_instrs_push]
    omega

end

mutual

/-- Labels and instructions are linear in the size of a statement. -/
theorem stmtCode_size {sc : Scope} {n n' : Nat} {s : Stmt} {code : Code} :
    StmtCode sc n s code n' →
      n ≤ n' ∧ n' ≤ n + s.weight ∧ (instrs code).length ≤ 8 * s.weight
  | .block h => by
    have hss := stmtsCode_size h
    simp only [Stmt.weight]
    omega
  | .cond hc ha hb => by
    have htest := exprCode_size hc
    have hthen := stmtCode_size ha
    have helse := stmtCode_size hb
    simp only [Stmt.weight, instrs_append, instrs_one, instrs_label, instrs_nil,
      List.length_append, List.length_cons, List.length_nil]
    omega
  | .loop hc hb => by
    have htest := exprCode_size hc
    have hbody := stmtCode_size hb
    simp only [Stmt.weight, List.cons_append, instrs_append, instrs_one, instrs_label, instrs_nil,
      List.length_append, List.length_cons, List.length_nil]
    omega
  | .print h => by
    have he := exprCode_size h
    simp only [Stmt.weight, instrs_append, instrs_one, instrs_nil, List.length_append,
      List.length_cons, List.length_nil]
    omega
  | .assign (v := v) h _ => by
    have he := exprCode_size h
    have hstore := length_instrs_store_le sc v
    have hcheck : (instrs (if v.type.isReference then nullCheck a0 else [])).length ≤ 1 := by
      split
      · exact Nat.le_refl _
      · exact Nat.zero_le _
    simp only [Stmt.weight, instrs_append, List.length_append]
    omega
  | .assignElem (v := v) _ _ h h' => by
    have hi := exprCode_size h
    have he := exprCode_size h'
    have hload := length_instrs_load_le sc v
    have hwrite : (instrs writeElement).length = 9 := rfl
    simp only [Stmt.weight, instrs_append, List.length_append, length_instrs_push, hwrite]
    omega

theorem stmtsCode_size {sc : Scope} {n n' : Nat} {ss : List Stmt} {code : Code} :
    StmtsCode sc n ss code n' →
      n ≤ n' ∧ n' ≤ n + Stmt.weights ss ∧ (instrs code).length ≤ 8 * Stmt.weights ss
  | .nil => by simp [Stmt.weights]
  | .cons h hs => by
    have hs' := stmtCode_size h
    have hss := stmtsCode_size hs
    simp only [Stmt.weights, instrs_append, List.length_append]
    omega

end

/-! ### Code without labels -/

/-- Code that defines no label and goes nowhere but to the known ones. -/
structure Plain (known : List Bytes) (c : Code) : Prop where
  labels : c.labels = []
  targets : ∀ i ∈ c.instrs, i.label = [] ∨ i.label ∈ known
  writable : ∀ l ∈ c, l.Writable

namespace Plain

variable {known : List Bytes} {a b : Code}

theorem nil : Plain known [] := ⟨rfl, by simp, by simp⟩

theorem append (ha : Plain known a) (hb : Plain known b) : Plain known (a ++ b) where
  labels := by rw [labels_append, ha.labels, hb.labels, List.append_nil]
  targets := by
    rw [instrs_append, List.forall_mem_append]
    exact ⟨ha.targets, hb.targets⟩
  writable := by
    rw [List.forall_mem_append]
    exact ⟨ha.writable, hb.writable⟩

/-- One instruction without a remark. -/
theorem one {i : Instr} (hw : (Code.one i).Writable) (h : i.label = [] ∨ i.label ∈ known) :
    Plain known [Code.one i] := by
  refine ⟨rfl, ?_, ?_⟩
  · simpa using h
  · simpa using hw

theorem mono {known' : List Bytes} (h : Plain known a) (hsub : known ⊆ known') :
    Plain known' a :=
  ⟨h.labels, fun i hi => (h.targets i hi).imp id fun hmem => hsub hmem, h.writable⟩

end Plain

instance (known : List Bytes) (c : Code) : Decidable (Plain known c) :=
  decidable_of_iff (c.labels = [] ∧ (∀ i ∈ c.instrs, i.label = [] ∨ i.label ∈ known) ∧
      ∀ l ∈ c, l.Writable)
    ⟨fun ⟨h₁, h₂, h₃⟩ => ⟨h₁, h₂, h₃⟩, fun ⟨h₁, h₂, h₃⟩ => ⟨h₁, h₂, h₃⟩⟩

/-- The pieces of code that are the same in every program. -/
theorem plain_pieces : ∀ c ∈ [push a0, push fp, pop 1, nullCheck a0, readElement, writeElement,
    [Code.one (lw t1 4 sp)], [Code.one (lw a0 0 a0)], [Code.one (li a0 0)],
    [Code.one (withRegs .nor a0 a0 a0)], [Code.one (jump .jal Support.printInt)],
    [Code.one (jump .jal Support.allocArray), Code.one (move a0 v0)], [Code.one (move a0 v0)],
    [Code.one (move fp sp), Code.one (sw ra 0 sp)], Support.exit],
    Plain Support.labels c := by
  decide +kernel

theorem plain_combine {op : BinaryOp} {type : Ty} {code : Code}
    (h : combine op = some (type, code)) : Plain Support.labels code := by
  cases op with
  | other s => cases h
  | _ =>
    obtain ⟨-, rfl⟩ := Prod.mk.inj (Option.some.inj h)
    decide +kernel

/-! ### Code with numbered labels -/

/-- The labels with the numbers from `n` on and below `n'`. -/
def labelsBetween (n n' : Nat) : List Bytes := (List.range' n (n' - n)).map labelText

theorem mem_labelsBetween {n n' : Nat} {l : Bytes} :
    l ∈ labelsBetween n n' ↔ ∃ k, n ≤ k ∧ k < n' ∧ l = labelText k := by
  simp only [labelsBetween, List.mem_map, List.mem_range'_1]
  constructor
  · rintro ⟨k, hk, rfl⟩
    exact ⟨k, by omega, by omega, rfl⟩
  · rintro ⟨k, hlow, hhigh, rfl⟩
    exact ⟨k, by omega, rfl⟩

theorem nodup_labelsBetween (n n' : Nat) : (labelsBetween n n').Nodup :=
  List.Nodup.map (fun _ _ h => labelText_injective h) List.nodup_range'

theorem labelsBetween_append {n n' n'' : Nat} (h : n ≤ n') (h' : n' ≤ n'') :
    labelsBetween n n' ++ labelsBetween n' n'' = labelsBetween n n'' := by
  have hrange := List.range'_append_1 (s := n) (m := n' - n) (n := n'' - n')
  rw [show n + (n' - n) = n' by omega, show n' - n + (n'' - n') = n'' - n by omega] at hrange
  rw [labelsBetween, labelsBetween, ← List.map_append, hrange, labelsBetween]

theorem labelsBetween_two {n n' : Nat} (h : n + 2 ≤ n') :
    labelsBetween n n' = labelText n :: labelText (n + 1) :: labelsBetween (n + 2) n' := by
  have hsplit := labelsBetween_append (Nat.le_add_right n 2) h
  rw [← hsplit]
  simp [labelsBetween, List.range'_succ]

/-- A label is none at all, a known one, or one of the given numbers. -/
def Aims (known : List Bytes) (n n' : Nat) (l : Bytes) : Prop :=
  l = [] ∨ l ∈ known ∨ l ∈ labelsBetween n n'

theorem Aims.mono {known : List Bytes} {n₁ n₁' n n' : Nat} {l : Bytes} (h : Aims known n₁ n₁' l)
    (hn : n ≤ n₁) (hn' : n₁' ≤ n') : Aims known n n' l := by
  refine h.imp id (Or.imp id fun hmem => ?_)
  obtain ⟨k, hlow, hhigh, hl⟩ := mem_labelsBetween.mp hmem
  exact mem_labelsBetween.mpr ⟨k, by omega, by omega, hl⟩

theorem aims_labelText {known : List Bytes} {n n' k : Nat} (hlow : n ≤ k) (hhigh : k < n') :
    Aims known n n' (labelText k) :=
  .inr (.inr (mem_labelsBetween.mpr ⟨k, hlow, hhigh, rfl⟩))

/-- Code fit to be assembled among code with the known labels; it defines each of the labels with
numbers from `n` on and below `n'` exactly once. -/
structure Emitted (known : List Bytes) (n n' : Nat) (c : Code) : Prop where
  le : n ≤ n'
  labels : c.labels.Perm (labelsBetween n n')
  targets : ∀ i ∈ c.instrs, Aims known n n' i.label
  writable : ∀ l ∈ c, l.Writable

namespace Emitted

variable {known : List Bytes} {n n' n'' : Nat} {a b c : Code}

theorem of_plain (h : Plain known c) (n : Nat) : Emitted known n n c where
  le := Nat.le_refl n
  labels := by
    rw [h.labels, labelsBetween, Nat.sub_self]
    exact List.Perm.refl _
  targets i hi := (h.targets i hi).imp id .inl
  writable := h.writable

theorem append (ha : Emitted known n n' a) (hb : Emitted known n' n'' b) :
    Emitted known n n'' (a ++ b) where
  le := ha.le.trans hb.le
  labels := by
    rw [labels_append, ← labelsBetween_append ha.le hb.le]
    exact ha.labels.append hb.labels
  targets := by
    rw [instrs_append, List.forall_mem_append]
    exact ⟨fun i hi => (ha.targets i hi).mono (Nat.le_refl _) hb.le,
      fun i hi => (hb.targets i hi).mono ha.le (Nat.le_refl _)⟩
  writable := by
    rw [List.forall_mem_append]
    exact ⟨ha.writable, hb.writable⟩

theorem append_plain (ha : Emitted known n n' a) (hb : Plain known b) :
    Emitted known n n' (a ++ b) :=
  ha.append (of_plain hb n')

/-- Code around other code that brings in two more labels. -/
theorem enclose (ha : Emitted known (n + 2) n' a)
    (hlabels : c.labels.Perm (labelText n :: labelText (n + 1) :: a.labels))
    (htargets : ∀ i ∈ c.instrs, i ∈ a.instrs ∨ Aims known n (n + 2) i.label)
    (hwritable : ∀ l ∈ c, l ∈ a ∨ l.Writable) : Emitted known n n' c where
  le := by
    have hle := ha.le
    omega
  labels := by
    rw [labelsBetween_two ha.le]
    exact hlabels.trans ((ha.labels.cons _).cons _)
  targets i hi := by
    rcases htargets i hi with hmem | haims
    · exact (ha.targets i hmem).mono (by omega) (Nat.le_refl _)
    · exact haims.mono (Nat.le_refl _) ha.le
  writable l hl := (hwritable l hl).elim (ha.writable l) id

/-- Two branches, with a label in front of the second and one behind it. -/
theorem cond {n₁ n₂ n₃ : Nat} {test thenBranch elseBranch : Code}
    (htest : Emitted known (n + 2) n₁ test) (hthen : Emitted known n₁ n₂ thenBranch)
    (helse : Emitted known n₂ n₃ elseBranch) (hn : n + 2 ≤ 0x4000000) :
    Emitted known n n₃ (test ++ [Code.one (branch .beq a0 Reg.zero (labelText n))] ++ thenBranch ++
      [Code.one (jump .j (labelText (n + 1))), .label (labelText n)] ++ elseBranch ++
      [.label (labelText (n + 1))]) := by
  have hlabel := isLabel_labelText n
  have hlabel' := isLabel_labelText (n + 1)
  have hshort := short_labelText (n := n) (by omega)
  have hshort' := short_labelText (n := n + 1) (by omega)
  refine enclose ((htest.append hthen).append helse) ?_ ?_ ?_
  · rw [List.perm_iff_count]
    intro l
    simp only [labels_append, labels_one, labels_label, labels_nil, List.count_append,
      List.count_cons, List.count_nil]
    omega
  · intro i hi
    simp only [instrs_append, instrs_one, instrs_label, instrs_nil, List.mem_append,
      List.mem_singleton, List.not_mem_nil, or_false] at hi ⊢
    rcases hi with (((hi | rfl) | hi) | rfl) | hi
    · exact .inl (.inl (.inl hi))
    · exact .inr (aims_labelText (by omega) (by omega))
    · exact .inl (.inl (.inr hi))
    · exact .inr (aims_labelText (by omega) (by omega))
    · exact .inl (.inr hi)
  · intro l hl
    simp only [List.mem_append, List.mem_cons, List.not_mem_nil, or_false] at hl ⊢
    rcases hl with ((((hl | rfl) | hl) | rfl | rfl) | hl) | rfl
    · exact .inl (.inl (.inl hl))
    · exact .inr (writable_beq hlabel hshort _ _)
    · exact .inl (.inl (.inr hl))
    · exact .inr (writable_j hlabel' hshort')
    · exact .inr (Line.writable_label hlabel hshort)
    · exact .inl (.inr hl)
    · exact .inr (Line.writable_label hlabel' hshort')

/-- A loop, with a label in front of the test and one behind the body. -/
theorem loop {n₁ n₂ : Nat} {test body : Code} (htest : Emitted known (n + 2) n₁ test)
    (hbody : Emitted known n₁ n₂ body) (hn : n + 2 ≤ 0x4000000) :
    Emitted known n n₂ (.label (labelText n) :: test ++
      [Code.one (branch .beq a0 Reg.zero (labelText (n + 1)))] ++ body ++
      [Code.one (jump .j (labelText n)), .label (labelText (n + 1))]) := by
  have hlabel := isLabel_labelText n
  have hlabel' := isLabel_labelText (n + 1)
  have hshort := short_labelText (n := n) (by omega)
  have hshort' := short_labelText (n := n + 1) (by omega)
  refine enclose (htest.append hbody) ?_ ?_ ?_
  · rw [List.perm_iff_count]
    intro l
    simp only [List.cons_append, labels_append, labels_one, labels_label, labels_nil,
      List.count_append, List.count_cons, List.count_nil]
    omega
  · intro i hi
    simp only [List.cons_append, instrs_append, instrs_one, instrs_label, instrs_nil,
      List.mem_append, List.mem_singleton] at hi ⊢
    rcases hi with ((hi | rfl) | hi) | rfl
    · exact .inl (.inl hi)
    · exact .inr (aims_labelText (by omega) (by omega))
    · exact .inl (.inr hi)
    · exact .inr (aims_labelText (by omega) (by omega))
  · intro l hl
    simp only [List.cons_append, List.mem_append, List.mem_cons, List.not_mem_nil,
      or_false] at hl ⊢
    rcases hl with rfl | (((hl | rfl) | hl) | rfl | rfl)
    · exact .inr (Line.writable_label hlabel hshort)
    · exact .inl (.inl hl)
    · exact .inr (writable_beq hlabel' hshort' _ _)
    · exact .inl (.inr hl)
    · exact .inr (writable_j hlabel hshort)
    · exact .inr (Line.writable_label hlabel' hshort')

/-- The code that makes an object has two labels of its own. -/
theorem makeObject {l : Layout} (htag : l.tag ≤ 0x4000000) (hfields : l.fields ≤ 0x4000000)
    {n : Nat} (hn : n + 2 ≤ 0x4000000) :
    Emitted known n (n + 2) (Gen.makeObject l (labelText n) (labelText (n + 1))) := by
  have hshort : Short (labelText n) ∧ Short (labelText (n + 1)) :=
    ⟨short_labelText (by omega), short_labelText (by omega)⟩
  have hbytes : l.bytes ≤ 0x20000000 := by
    unfold Layout.bytes headerWords
    omega
  refine enclose (of_plain Plain.nil (n + 2)) (List.Perm.refl _) ?_ ?_
  · have htop : Aims known n (n + 2) (labelText n) := aims_labelText (by omega) (by omega)
    have hdone : Aims known n (n + 2) (labelText (n + 1)) := aims_labelText (by omega) (by omega)
    have hnone : Aims known n (n + 2) [] := .inl rfl
    intro i hi
    refine .inr ?_
    revert i
    simp only [Gen.makeObject, instrs_one, instrs_instr, instrs_label, instrs_nil,
      List.forall_mem_cons]
    exact ⟨hnone, hnone, hnone, hnone, hnone, hnone, hnone, hnone, hnone, hnone, hnone, hnone,
      hdone, hnone, hnone, hnone, htop, by simp⟩
  · intro line hline
    refine .inr ?_
    revert line
    simp only [Gen.makeObject, List.forall_mem_cons]
    exact ⟨writable_li (by omega) (by omega) _, writable_li (by decide) (by decide) _,
      writable_syscall, writable_move _ _, writable_li (by omega) (by omega) _,
      writable_sw_remark (by decide) (by decide) _ _ (by decide) (by decide),
      writable_li (by omega) (by omega) _,
      writable_sw_remark (by decide) (by decide) _ _ (by decide) (by decide),
      writable_sw_remark (by decide) (by decide) _ _ (by decide) (by decide),
      writable_addiu (by decide) (by decide) _ _, writable_li (by decide) (by decide) _,
      writable_li (by omega) (by omega) _, Line.writable_label (isLabel_labelText n) hshort.1,
      writable_bge (isLabel_labelText (n + 1)) hshort.2 _ _,
      writable_sw (by decide) (by decide) _ _, writable_addiu (by decide) (by decide) _ _,
      writable_addiu (by decide) (by decide) _ _, writable_j (isLabel_labelText n) hshort.1,
      Line.writable_label (isLabel_labelText (n + 1)) hshort.2, by simp⟩

end Emitted

/-! ### Methods within bounds -/

/-- A method whose variables, classes and callees are within bounds, among code with the known
labels. -/
structure Scope.Fits (sc : Scope) (known : List Bytes) : Prop where
  params : sc.method.params.length ≤ 0x4000000
  slot : ∀ {x : Bytes} {v : Variable}, sc.lookup? x = some v → v.index ≤ 0x4000000
  layout : ∀ {x : Bytes} {cls : ClassInfo}, sc.table.find? x = some cls →
    sc.table.isEntry x = false →
      (sc.table.layout cls).tag ≤ 0x4000000 ∧ (sc.table.layout cls).fields ≤ 0x4000000
  callee : ∀ {x m : Bytes} {cls : ClassInfo} {target : Method}, IsName m →
    sc.table.find? x = some cls → sc.table.method? cls m = some target →
      entryLabel target.owner target.name ∈ known
  support : Support.labels ⊆ known
  known : ∀ l ∈ known, isLabel l ∧ Short l

namespace Scope.Fits

variable {sc : Scope} {known : List Bytes} (hsc : sc.Fits known)

include hsc

theorem piece {c : Code} (h : Plain Support.labels c) : Plain known c := h.mono hsc.support

theorem plain_this (r base : Reg) :
    Plain known [Code.one (lw r (thisOffset sc.method.params.length) base)] := by
  have hparams := hsc.params
  refine Plain.one (writable_lw ?_ ?_ r base) (.inl rfl)
  · unfold thisOffset
    omega
  · unfold thisOffset
    omega

/-- A variable is addressed within bounds. -/
theorem plain_address {x : Bytes} {v : Variable} (hv : sc.lookup? x = some v) :
    Plain known (sc.address v).1 ∧ -0x80000000 ≤ (sc.address v).2.2 ∧
      (sc.address v).2.2 < 0x80000000 := by
  have hslot := hsc.slot hv
  unfold Scope.address
  cases v.role with
  | parameter =>
    simp only [paramOffset]
    exact ⟨Plain.nil, by omega, by omega⟩
  | localVar =>
    simp only [localOffset]
    exact ⟨Plain.nil, by omega, by omega⟩
  | field =>
    simp only [fieldOffset, headerWords]
    exact ⟨hsc.plain_this t1 fp, by omega, by omega⟩

theorem plain_load {x : Bytes} {v : Variable} (hv : sc.lookup? x = some v) :
    Plain known (sc.load v) := by
  obtain ⟨haddress, hlow, hhigh⟩ := hsc.plain_address hv
  exact haddress.append (Plain.one (writable_lw hlow hhigh _ _) (.inl rfl))

theorem plain_store {x : Bytes} {v : Variable} (hv : sc.lookup? x = some v) :
    Plain known (sc.store v) := by
  obtain ⟨haddress, hlow, hhigh⟩ := hsc.plain_address hv
  exact haddress.append (Plain.one (writable_sw hlow hhigh _ _) (.inl rfl))

theorem plain_call {x m : Bytes} {cls : ClassInfo} {target : Method} (hm : IsName m)
    (hcls : sc.table.find? x = some cls) (htarget : sc.table.method? cls m = some target) :
    Plain known
      [Code.one (jump .jal (entryLabel target.owner target.name)), Code.one (move a0 v0)] := by
  have hknown := hsc.callee hm hcls htarget
  obtain ⟨hlabel, hshort⟩ := hsc.known _ hknown
  have hjump : Plain known [Code.one (jump .jal (entryLabel target.owner target.name))] :=
    Plain.one (writable_jal hlabel hshort) (.inr hknown)
  exact hjump.append (hsc.piece (plain_pieces _ (by simp)))

end Scope.Fits

/-! ### Expressions and statements -/

mutual

/-- The code of an expression is fit to be assembled. -/
theorem emitted_of_exprCode {sc : Scope} {known : List Bytes} (hsc : sc.Fits known) {n n' : Nat}
    {e : Expr} {type : Ty} {code : Code} :
    ExprCode sc n e type code n' → e.Written → n + e.weight ≤ 0x4000000 →
      Emitted known n n' code
  | .int, hw, _ => by
    obtain ⟨-, -, rfl, hsmall⟩ := hw
    unfold intMax at hsmall
    exact .of_plain (Plain.one (writable_li (by omega) (by omega) _) (.inl rfl)) _
  | .true, _, _ => .of_plain
      (hsc.piece ((plain_pieces [Code.one (li a0 0)] (by simp)).append
        (plain_pieces [Code.one (withRegs .nor a0 a0 a0)] (by simp)))) _
  | .false, _, _ => .of_plain (hsc.piece (plain_pieces _ (by simp))) _
  | .this _, _, _ => .of_plain (hsc.plain_this a0 fp) _
  | .var hv, _, _ => .of_plain (hsc.plain_load hv) _
  | .not h, hw, hn => by
    have he := emitted_of_exprCode hsc h hw.2.2 (by simp only [Expr.weight] at hn; omega)
    exact he.append_plain (hsc.piece (plain_pieces _ (by simp)))
  | .binary h h' hop, hw, hn => by
    simp only [Expr.weight] at hn
    have hle := (exprCode_size h).2.1
    have hl := emitted_of_exprCode hsc h hw.2.2.1 (by omega)
    have hr := emitted_of_exprCode hsc h' hw.2.2.2 (by omega)
    have hpush := hl.append_plain (hsc.piece (plain_pieces (push a0) (by simp)))
    have hload := (hpush.append hr).append_plain
      (hsc.piece (plain_pieces [Code.one (lw t1 4 sp)] (by simp)))
    exact (hload.append_plain (hsc.piece (plain_combine hop))).append_plain
      (hsc.piece (plain_pieces (pop 1) (by simp)))
  | .index h h', hw, hn => by
    simp only [Expr.weight] at hn
    have hle := (exprCode_size h).2.1
    have ha := emitted_of_exprCode hsc h hw.2.1 (by omega)
    have hi := emitted_of_exprCode hsc h' hw.2.2 (by omega)
    have hpush := ha.append_plain (hsc.piece (plain_pieces (push a0) (by simp)))
    exact (hpush.append hi).append_plain (hsc.piece (plain_pieces readElement (by simp)))
  | .length h, hw, hn => by
    have ha := emitted_of_exprCode hsc h hw.2 (by simp only [Expr.weight] at hn; omega)
    exact ha.append_plain (hsc.piece (plain_pieces _ (by simp)))
  | .newArray h, hw, hn => by
    have he := emitted_of_exprCode hsc h hw.2 (by simp only [Expr.weight] at hn; omega)
    exact he.append_plain (hsc.piece (plain_pieces _ (by simp)))
  | .newObject hcls hentry, _, hn => by
    obtain ⟨htag, hfields⟩ := hsc.layout hcls hentry
    exact Emitted.makeObject htag hfields (by simp only [Expr.weight] at hn; omega)
  | .call h hcls htarget _ hs, hw, hn => by
    simp only [Expr.weight] at hn
    obtain ⟨-, hwrecv, hwm, hwargs⟩ := hw
    have hle := (exprCode_size h).2.1
    have hrecv := emitted_of_exprCode hsc h hwrecv (by omega)
    have hargs := emitted_of_argsCode hsc hs hwargs (by omega)
    have hcheck := hrecv.append_plain (hsc.piece (plain_pieces (nullCheck a0) (by simp)))
    have hframe := (hcheck.append_plain (hsc.piece (plain_pieces (push fp) (by simp)))).append_plain
      (hsc.piece (plain_pieces (push a0) (by simp)))
    exact (hframe.append hargs).append_plain (hsc.plain_call hwm.name hcls htarget)

theorem emitted_of_argsCode {sc : Scope} {known : List Bytes} (hsc : sc.Fits known) {n n' : Nat}
    {es : List Expr} {code : Code} :
    ArgsCode sc n es code n' → Expr.AllWritten es → n + Expr.weights es ≤ 0x4000000 →
      Emitted known n n' code
  | .nil, _, _ => .of_plain Plain.nil _
  | .cons hs h, hw, hn => by
    simp only [Expr.weights] at hn
    have hle := (argsCode_size hs).2.1
    have hes := emitted_of_argsCode hsc hs hw.2 (by omega)
    have he := emitted_of_exprCode hsc h hw.1 (by omega)
    exact (hes.append he).append_plain (hsc.piece (plain_pieces (push a0) (by simp)))

end

mutual

/-- The code of a statement is fit to be assembled. -/
theorem emitted_of_stmtCode {sc : Scope} {known : List Bytes} (hsc : sc.Fits known) {n n' : Nat}
    {s : Stmt} {code : Code} :
    StmtCode sc n s code n' → s.Written → n + s.weight ≤ 0x4000000 → Emitted known n n' code
  | .block hs, hw, hn => by
    exact emitted_of_stmtsCode hsc hs hw.2 (by simp only [Stmt.weight] at hn; omega)
  | .cond hc ha hb, hw, hn => by
    simp only [Stmt.weight] at hn
    have hle := (exprCode_size hc).2.1
    have hle' := (stmtCode_size ha).2.1
    have htest := emitted_of_exprCode hsc hc hw.2.1 (by omega)
    have hthen := emitted_of_stmtCode hsc ha hw.2.2.1 (by omega)
    have helse := emitted_of_stmtCode hsc hb hw.2.2.2 (by omega)
    exact htest.cond hthen helse (by omega)
  | .loop hc hb, hw, hn => by
    simp only [Stmt.weight] at hn
    have hle := (exprCode_size hc).2.1
    have htest := emitted_of_exprCode hsc hc hw.2.1 (by omega)
    have hbody := emitted_of_stmtCode hsc hb hw.2.2 (by omega)
    exact htest.loop hbody (by omega)
  | .print h, hw, hn => by
    have he := emitted_of_exprCode hsc h hw.2 (by simp only [Stmt.weight] at hn; omega)
    exact he.append_plain (hsc.piece (plain_pieces _ (by simp)))
  | .assign (v := v) h hv, hw, hn => by
    have he := emitted_of_exprCode hsc h hw.2.2 (by simp only [Stmt.weight] at hn; omega)
    have hcheck : Plain known (if v.type.isReference then nullCheck a0 else []) := by
      split
      · exact hsc.piece (plain_pieces _ (by simp))
      · exact Plain.nil
    exact (he.append_plain hcheck).append_plain (hsc.plain_store hv)
  | .assignElem hv _ h h', hw, hn => by
    simp only [Stmt.weight] at hn
    have hle := (exprCode_size h).2.1
    have hi := emitted_of_exprCode hsc h hw.2.2.1 (by omega)
    have he := emitted_of_exprCode hsc h' hw.2.2.2 (by omega)
    have hpush := hsc.piece (plain_pieces (push a0) (by simp))
    have hvalue := ((hi.append_plain hpush).append he).append_plain hpush
    exact (hvalue.append_plain (hsc.plain_load hv)).append_plain
      (hsc.piece (plain_pieces writeElement (by simp)))

theorem emitted_of_stmtsCode {sc : Scope} {known : List Bytes} (hsc : sc.Fits known) {n n' : Nat}
    {ss : List Stmt} {code : Code} :
    StmtsCode sc n ss code n' → Stmt.AllWritten ss → n + Stmt.weights ss ≤ 0x4000000 →
      Emitted known n n' code
  | .nil, _, _ => .of_plain Plain.nil _
  | .cons h hs, hw, hn => by
    simp only [Stmt.weights] at hn
    have hle := (stmtCode_size h).2.1
    have hfirst := emitted_of_stmtCode hsc h hw.1 (by omega)
    have hrest := emitted_of_stmtsCode hsc hs hw.2 (by omega)
    exact hfirst.append hrest

end

end MiniJava
