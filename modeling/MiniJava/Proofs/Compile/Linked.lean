import MiniJava.Proofs.Compile.Assembles
import MiniJava.Proofs.Machine.View

/-!
# Where code lies

The code of a program in its image: which instruction has which number, and what the labels stand
for.

* **`LiesAt`** — code lies in an image from the given instruction on.
* **`liesAt_image`** — every part of the code of an image lies in it.
* **`Linked`** — all methods and routines of a program lie in an image.
* **`Compiled.linked`** — so it is with the image of a compiled program.
-/

namespace MiniJava

open Machine Code

/-! ### Code in an image -/

/-- The code lies in the image, and its first instruction has the number `k`. -/
def LiesAt (p : Image) : (k : Nat) → Code → Prop
  | _, [] => True
  | k, .instr i _ :: c => Fetches p k i ∧ LiesAt p (k + 1) c
  | k, .label l :: c => p.textLabels.lookup l = some (k : Int) ∧ LiesAt p k c
  | k, _ :: c => LiesAt p k c

/-- How many instructions there are. -/
def Code.size (c : Code) : Nat := (instrs c).length

@[simp] theorem Code.size_nil : size [] = 0 := rfl

@[simp] theorem Code.size_append (a b : Code) : size (a ++ b) = size a + size b := by
  simp [size]

@[simp] theorem Code.size_instr (i : Instr) (r : Bytes) (c : Code) :
    size (.instr i r :: c) = size c + 1 := rfl

@[simp] theorem Code.size_one (i : Instr) (c : Code) : size (one i :: c) = size c + 1 := rfl

@[simp] theorem Code.size_label (l : Bytes) (c : Code) : size (.label l :: c) = size c := rfl

@[simp] theorem Code.size_remark (n : Nat) (s : Bytes) (c : Code) :
    size (.remark n s :: c) = size c := rfl

@[simp] theorem Code.size_blank (c : Code) : size (.blank :: c) = size c := rfl

@[simp] theorem Code.size_push (r : Reg) : (push r).size = 2 := rfl

@[simp] theorem Code.size_pop (n : Nat) : (pop n).size = 1 := rfl

@[simp] theorem Code.size_nullCheck (r : Reg) : (nullCheck r).size = 1 := rfl

@[simp] theorem Code.size_readElement : Gen.readElement.size = 8 := rfl

@[simp] theorem Code.size_writeElement : Gen.writeElement.size = 9 := rfl

theorem liesAt_append {p : Image} {k : Nat} {a b : Code} :
    LiesAt p k (a ++ b) ↔ LiesAt p k a ∧ LiesAt p (k + a.size) b := by
  induction a generalizing k with
  | nil => simp [LiesAt]
  | cons line a ih =>
    cases line with
    | instr i r =>
      simp only [List.cons_append, LiesAt, size_instr, ih, and_assoc, Nat.add_assoc, Nat.add_comm 1]
    | label l => simp only [List.cons_append, LiesAt, size_label, ih, and_assoc]
    | _ => exact ih

/-- Every part of code lies in an image that holds its instructions and its labels. -/
theorem liesAt_of_holds {p : Image} {front c back : Code} (hholds : p.Holds 0 (front ++ c ++ back))
    (hlabels : p.textLabels = (Code.placed 0 (front ++ c ++ back)).reverse)
    (h : (labels (front ++ c ++ back)).Nodup) : LiesAt p front.size c := by
  induction c generalizing front with
  | nil => trivial
  | cons line c ih =>
    have hshift : front ++ line :: c ++ back = front ++ [line] ++ c ++ back := by
      simp only [List.append_assoc, List.cons_append, List.nil_append]
    have hrest := @ih (front ++ [line]) (hshift ▸ hholds) (hshift ▸ hlabels) (hshift ▸ h)
    rw [size_append] at hrest
    cases line with
    | instr i r =>
      obtain ⟨l, hl⟩ := hholds front.size i (by simp [size])
      exact ⟨⟨l, by simpa using hl⟩, hrest⟩
    | label l =>
      have hplace := lookup_placed (a := front) (b := c ++ back) (l := l)
        (by simpa only [List.append_assoc, List.cons_append] using h) 0
      rw [Nat.zero_add] at hplace
      refine ⟨?_, hrest⟩
      rw [hlabels, List.append_assoc]
      exact hplace
    | _ => exact hrest

/-- Every part of the code of an image lies in it. -/
theorem liesAt_image {front c back : Code} (h : (labels (front ++ c ++ back)).Nodup) :
    LiesAt (image (front ++ c ++ back)) front.size c := by
  apply liesAt_of_holds _ rfl h
  have hholds := holds_image [] (front ++ c ++ back) []
  simpa using hholds

/-! ### Linked programs -/

/-- The methods and routines of a program lie in an image. -/
structure Linked (p : Image) (t : ClassTable) (cs : List ClassDecl) : Prop where
  methods : ∀ c ∈ cs, ∀ d ∈ c.methods, ∃ k n n' code pc,
    MethodCode t (c.info cs k) n d code n' ∧ LiesAt p pc code
  routines : ∃ pc, LiesAt p pc Support.routines
  messages : p.dataLabels = Support.messageLabels
  small : p.text.size ≤ 0x20000000

/-- The code of a method is part of the code of its class. -/
theorem methodCode_of_mem {t : ClassTable} {cls : ClassInfo} {ds : List MethodDecl}
    {d : MethodDecl} (hd : d ∈ ds) {a b : Nat} {code : Code} (h : MethodsCode t cls a ds code b) :
    ∃ n n' front body back, MethodCode t cls n d body n' ∧ code = front ++ body ++ back := by
  induction h with
  | nil => cases hd
  | @cons _ _ _ d' _ first rest hfirst _ ih =>
    rcases List.mem_cons.mp hd with rfl | hd
    · exact ⟨_, _, [], first, rest, hfirst, rfl⟩
    · obtain ⟨n, n', front, body, back, hbody, rfl⟩ := ih hd
      exact ⟨n, n', first ++ front, body, back, hbody, by simp only [List.append_assoc]⟩

/-- The code of a method is part of the code of the classes. -/
theorem methodCode_of_classes {t : ClassTable} {cs : List ClassDecl} {c : ClassDecl} (hc : c ∈ cs)
    {d : MethodDecl} (hd : d ∈ c.methods) {a b : Nat} {code : Code}
    (h : ClassesCode t a cs code b) :
    ∃ cls n n' front body back, t.find? c.name.name = some cls ∧ MethodCode t cls n d body n' ∧
      code = front ++ body ++ back := by
  induction h with
  | nil => cases hc
  | @cons _ _ _ c' _ cls first rest hfind hfirst _ ih =>
    rcases List.mem_cons.mp hc with rfl | hc
    · obtain ⟨n, n', front, body, back, hbody, rfl⟩ := methodCode_of_mem hd hfirst
      exact ⟨cls, n, n', front, body, back ++ rest, hfind, hbody,
        by simp only [List.append_assoc]⟩
    · obtain ⟨cls', n, n', front, body, back, hfind', hbody, rfl⟩ := ih hc
      exact ⟨cls', n, n', first ++ front, body, back, hfind', hbody,
        by simp only [List.append_assoc]⟩

/-! ### Sizes -/

theorem Code.length_numbered (n : Nat) (c : Code) : (numbered n c).length = c.size := by
  induction c generalizing n with
  | nil => rfl
  | cons line c ih =>
    cases line with
    | instr i r => exact congrArg (· + 1) (ih (n + 1))
    | _ => exact ih (n + 1)

theorem methodsCode_size {t : ClassTable} {cls : ClassInfo} {a b : Nat} {ds : List MethodDecl}
    {code : Code} (h : MethodsCode t cls a ds code b) :
    code.size ≤ 8 * total MethodDecl.weight ds := by
  induction h with
  | nil => exact Nat.zero_le _
  | cons hd _ ih =>
    obtain ⟨-, hbody, hresult⟩ := hd
    have hbody := stmtsCode_size hbody
    have hresult := exprCode_size hresult
    simp only [size, Gen.prologue, Gen.epilogue, instrs_append, instrs_one, instrs_remark,
      instrs_label, instrs_blank, instrs_nil, List.length_append, List.length_cons,
      List.length_nil, total, MethodDecl.weight] at ih ⊢
    omega

theorem classesCode_size {t : ClassTable} {a b : Nat} {cs : List ClassDecl} {code : Code}
    (h : ClassesCode t a cs code b) : code.size ≤ 8 * total ClassDecl.weight cs := by
  induction h with
  | nil => exact Nat.zero_le _
  | cons _ hmethods _ ih =>
    have hmethods := methodsCode_size hmethods
    simp only [size_append, total, ClassDecl.weight]
    omega

theorem mainCode_size {t : ClassTable} {entry : ClassInfo} {n n' : Nat} {m : MainClass}
    {code : Code} (h : MainCode t entry n m code n') : code.size + 100 ≤ 8 * m.weight := by
  obtain ⟨-, hbody⟩ := h
  have hbody := stmtsCode_size hbody
  simp only [size, Support.exit, instrs_append, instrs_one, instrs_remark, instrs_label,
    instrs_blank, instrs_nil, List.length_append, List.length_cons, List.length_nil,
    MainClass.weight]
  omega

namespace Compiled

variable {p : Program} {m : MainClass} {start others : Code} {n n' : Nat}
  (h : Compiled p m start others n n') (hsmall : p.weight ≤ 0x4000000)

include h hsmall

theorem size_le : Code.size (start ++ others ++ Support.routines) ≤ 0x20000000 := by
  have hstart := mainCode_size h.start
  have hothers := classesCode_size h.others
  have hroutines : Support.routines.size ≤ 100 := by decide +kernel
  have hweight : p.weight = m.weight + total ClassDecl.weight p.classes := by
    rw [Program.weight, h.main]
    rfl
  rw [size_append, size_append]
  omega

/-- The methods and routines of a compiled program lie in its image. -/
theorem linked (hshort : p.NamesShort) :
    Linked (image (start ++ others ++ Support.routines)) (tableOf m p.classes) p.classes := by
  have hnodup := (h.assemblable hsmall hshort).nodup
  refine ⟨?_, ?_, rfl, ?_⟩
  · intro c hc d hd
    obtain ⟨k, -, -, hclass⟩ := h.class_spec hc
    obtain ⟨cls, a, b, front, body, back, hfind, hbody, hothers⟩ :=
      methodCode_of_classes hc hd h.others
    rw [hclass] at hfind
    obtain rfl := Option.some.inj hfind
    have hwhole : start ++ others ++ Support.routines =
        start ++ front ++ body ++ (back ++ Support.routines) := by
      rw [hothers]
      simp only [List.append_assoc]
    have hlies := liesAt_image (hwhole ▸ hnodup)
    rw [← hwhole] at hlies
    exact ⟨k, a, b, body, _, hbody, hlies⟩
  · have hlies := @liesAt_image (start ++ others) Support.routines []
      (by simpa only [List.append_nil] using hnodup)
    rw [List.append_nil] at hlies
    exact ⟨_, hlies⟩
  · have hsize : (image (start ++ others ++ Support.routines)).text.size =
        (start ++ others ++ Support.routines).size := by
      show (numbered _ _).toArray.size = _
      rw [List.size_toArray]
      exact length_numbered _ _
    rw [hsize]
    exact h.size_le hsmall

end Compiled

end MiniJava
