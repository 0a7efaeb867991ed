import MiniJava.Proofs.Compile.Program

/-!
# Compiled programs assemble

The text of a compiled program is read back by the assembler, whatever the program: its labels are
defined once, every method has its label at its first instruction, and all jumps go to labels in
the code.

* **`Declared`** — code fit to be assembled, with numbered labels and labels of its own.
* **`Compiled.assemblable`** — the code of a program.
* **`compile_assembles`** — what is compiled assembles.
-/

namespace MiniJava

open Instr Reg Code Gen

/-! ### Code of declarations -/

/-- Code fit to be assembled among code with the known labels; it defines the labels `own` and each
of the labels with numbers from `n` on and below `n'`. -/
structure Declared (known own : List Bytes) (n n' : Nat) (c : Code) : Prop where
  le : n ≤ n'
  labels : c.labels.Perm (own ++ labelsBetween n n')
  targets : ∀ i ∈ c.instrs, Aims known n n' i.label
  writable : ∀ l ∈ c, l.Writable

namespace Declared

variable {known own own' : List Bytes} {n n' n'' : Nat} {a b c : Code}

theorem nil (known : List Bytes) (n : Nat) : Declared known [] n n [] where
  le := Nat.le_refl n
  labels := by
    rw [labelsBetween, Nat.sub_self]
    exact List.Perm.refl _
  targets := by simp
  writable := by simp

theorem append (ha : Declared known own n n' a) (hb : Declared known own' n' n'' b) :
    Declared known (own ++ own') n n'' (a ++ b) where
  le := ha.le.trans hb.le
  labels := by
    rw [labels_append, ← labelsBetween_append ha.le hb.le]
    refine (ha.labels.append hb.labels).trans ?_
    rw [List.perm_iff_count]
    intro l
    simp only [List.count_append]
    omega
  targets := by
    rw [instrs_append, List.forall_mem_append]
    exact ⟨fun i hi => (ha.targets i hi).mono (Nat.le_refl _) hb.le,
      fun i hi => (hb.targets i hi).mono ha.le (Nat.le_refl _)⟩
  writable := by
    rw [List.forall_mem_append]
    exact ⟨ha.writable, hb.writable⟩

/-- A label in front of code. -/
theorem of_label {l : Bytes} (hl : isLabel l) (hshort : Short l) (hc : Emitted known n n' c) :
    Declared known [l] n n' (.label l :: c) where
  le := hc.le
  labels := hc.labels.cons l
  targets := hc.targets
  writable := List.forall_mem_cons.mpr ⟨Line.writable_label hl hshort, hc.writable⟩

/-- A remark in front of code. -/
theorem remark {k : Nat} {s : Bytes} (hs : (Line.remark k s).Writable)
    (hc : Declared known own n n' c) : Declared known own n n' (.remark k s :: c) where
  le := hc.le
  labels := hc.labels
  targets := hc.targets
  writable := List.forall_mem_cons.mpr ⟨hs, hc.writable⟩

end Declared

theorem plain_prologue {m : Method} (h : m.locals.length ≤ 0x4000000) :
    Plain Support.labels (prologue m) := by
  have hsave : Plain Support.labels [Code.one (move fp sp), Code.one (sw ra 0 sp)] :=
    plain_pieces _ (by simp)
  exact hsave.append (Plain.one (writable_addiu (by omega) (by omega) _ _) (.inl rfl))

theorem plain_epilogue {m : Method} (h : m.locals.length ≤ 0x4000000)
    (h' : m.params.length ≤ 0x4000000) : Plain Support.labels (epilogue m) := by
  refine ⟨rfl, ?_, ?_⟩
  · simp only [epilogue, instrs_one, instrs_blank, instrs_nil, List.forall_mem_cons]
    exact ⟨.inl rfl, .inl rfl, .inl rfl, .inl rfl, .inl rfl, .inl rfl, by simp⟩
  · simp only [epilogue, List.forall_mem_cons]
    exact ⟨writable_move _ _, writable_addiu (by omega) (by omega) _ _,
      writable_lw (by decide) (by decide) _ _, writable_addiu (by omega) (by omega) _ _,
      writable_lw (by decide) (by decide) _ _, writable_jr _, trivial, by simp⟩

/-- The support routines can be written.  Their instructions name fixed labels only, and only `la`
names one of a message. -/
theorem Support.routines_spec : (∀ l ∈ Support.routines, l.Writable) ∧
    ∀ i ∈ Code.instrs Support.routines, i.label = [] ∨
      i.label ∈ Support.labels ∨ (i.op = .la ∧ i.label ∈ Support.messageNames) := by
  decide +kernel

/-- The labels of the methods of classes. -/
def entriesOf (cs : List ClassDecl) : List Bytes :=
  cs.flatMap fun c => c.methods.map fun d => entryLabel c.name.name d.name.name

theorem entryLabels_eq (p : Program) : entryLabels p = entriesOf p.classes := by
  simp only [entryLabels, methodNames, entriesOf, List.map_flatMap, List.map_map]
  rfl

/-- The name of a method with that of its class can stand in a remark. -/
theorem writable_methodRemark {c m : Bytes} (hc : IsWord c) (hm : IsWord m)
    (hclen : c.length < 400000) (hmlen : m.length < 400000) :
    (Line.remark 0 (c ++ "." ++ m)).Writable := by
  have hbyte : ∀ {a : UInt8}, isWordPart a → isLineByte a := fun h =>
    (isBody_spec _ (isBody_of_isInner (isInner_of_isLabelByte (isLabelByte_of_isWordPart h)))).1
  constructor
  · simp only [List.forall_mem_append]
    exact ⟨⟨fun a ha => hbyte (hc.2 a ha), List.all_eq_true.mp (by decide)⟩,
      fun a ha => hbyte (hm.2 a ha)⟩
  · have hfixed : (utf8 ".").length = 1 ∧ (utf8 "# ").length = 2 := by decide
    simp only [Line.write, Bytes.replicate, List.length_append, List.length_replicate,
      Assembler.lineLimit]
    omega

/-! ### The code of a program -/

namespace Compiled

variable {p : Program} {m : MainClass} {start others : Code} {n n' : Nat}
  (h : Compiled p m start others n n') (hsmall : p.weight ≤ 0x4000000) (hshort : p.NamesShort)

include h hsmall hshort

theorem declared_method {c : ClassDecl} (hc : c ∈ p.classes) {d : MethodDecl} (hd : d ∈ c.methods)
    {k a b : Nat} {code : Code}
    (hcode : MethodCode (tableOf m p.classes) (c.info p.classes k) a d code b)
    (ha : a + d.weight ≤ 0x4000000) :
    Declared (knownLabels p) [entryLabel c.name.name d.name.name] a b code ∧ b ≤ a + d.weight := by
  obtain ⟨hinfo, hbody, hresult⟩ := hcode
  rw [h.method_spec hc hd k] at hinfo
  obtain rfl := Option.some.inj hinfo
  have hsc := h.fits hsmall hshort hc hd k
  have hwritten := (h.written.classes c hc).methods d hd
  have hclass := (h.written.classes c hc).name.name.1
  have hsize := stmtsCode_size hbody
  have hsize' := exprCode_size hresult
  unfold MethodDecl.weight at ha ⊢
  have hlocals : (d.info c.name.name).locals.length ≤ 0x4000000 := by
    show (slots .localVar 0 d.vars).length ≤ _
    rw [length_slots]
    omega
  have hparams : (d.info c.name.name).params.length ≤ 0x4000000 := hsc.params
  have hlabel := h.isLabel_of_known hshort (entryLabel c.name.name d.name.name)
    (List.mem_append_right _ (mem_entryLabels.mpr ⟨c, hc, d, hd, rfl⟩))
  have hfirst := emitted_of_stmtsCode hsc hbody hwritten.body (by omega)
  have hlast := emitted_of_exprCode hsc hresult hwritten.result (by omega)
  have hwhole := (((Emitted.of_plain (hsc.piece (plain_prologue hlocals)) a).append hfirst).append
    hlast).append_plain (hsc.piece (plain_epilogue hlocals hparams))
  refine ⟨Declared.remark ?_ (Declared.of_label hlabel.1 hlabel.2 hwhole), by omega⟩
  exact writable_methodRemark hclass hwritten.name.name.1 (hshort c hc).1 ((hshort c hc).2 d hd)

theorem declared_methods {c : ClassDecl} (hc : c ∈ p.classes) {ds : List MethodDecl}
    (hds : ∀ d ∈ ds, d ∈ c.methods) {k a b : Nat} {code : Code}
    (hcode : MethodsCode (tableOf m p.classes) (c.info p.classes k) a ds code b)
    (ha : a + total MethodDecl.weight ds ≤ 0x4000000) :
    Declared (knownLabels p) (ds.map fun d => entryLabel c.name.name d.name.name) a b code ∧
      b ≤ a + total MethodDecl.weight ds := by
  induction hcode with
  | nil => exact ⟨Declared.nil _ _, Nat.le_refl _⟩
  | cons hd hrest ih =>
    simp only [total] at ha
    simp only [total, List.map_cons]
    rw [List.forall_mem_cons] at hds
    obtain ⟨hfirst, hle⟩ := h.declared_method hsmall hshort hc hds.1 hd (by omega)
    obtain ⟨hothers, hle'⟩ := ih hds.2 (by omega)
    exact ⟨hfirst.append hothers, by omega⟩

theorem declared_classes {cs : List ClassDecl} (hcs : ∀ c ∈ cs, c ∈ p.classes) {a b : Nat}
    {code : Code} (hcode : ClassesCode (tableOf m p.classes) a cs code b)
    (ha : a + total ClassDecl.weight cs ≤ 0x4000000) :
    Declared (knownLabels p) (entriesOf cs) a b code ∧ b ≤ a + total ClassDecl.weight cs := by
  induction hcode with
  | nil => exact ⟨Declared.nil _ _, Nat.le_refl _⟩
  | cons hfind hmethods hrest ih =>
    simp only [total, ClassDecl.weight] at ha ⊢
    rw [List.forall_mem_cons] at hcs
    obtain ⟨k, -, -, hclass⟩ := h.class_spec hcs.1
    rw [hclass] at hfind
    obtain rfl := Option.some.inj hfind
    obtain ⟨hfirst, hle⟩ :=
      h.declared_methods hsmall hshort hcs.1 (fun d hd => hd) hmethods (by omega)
    obtain ⟨hothers, hle'⟩ := ih hcs.2 (by omega)
    exact ⟨hfirst.append hothers, by omega⟩

theorem declared_main :
    Declared (knownLabels p) [Assembler.entryName] 0 n start ∧ n ≤ m.weight := by
  have hweight := weight_main_le h.main
  obtain ⟨hinfo, hbody⟩ := h.start
  obtain ⟨m', hmain, hwritten⟩ := h.written.main
  rw [h.main] at hmain
  obtain rfl := Option.some.inj hmain
  have hsc := h.fits_main hsmall hshort hinfo
  have hsize := stmtsCode_size hbody
  obtain rfl := List.mem_singleton.mp (List.mem_of_find?_eq_some hinfo)
  unfold MainClass.weight at hweight ⊢
  have hframe : Plain (knownLabels p) [Code.one (move fp sp),
      Code.one (withImm .addiu sp sp (-4 * ((slots .localVar 0 m.vars).length + 1)))] := by
    have hmove : Plain Support.labels [Code.one (move fp sp)] :=
      Plain.one (writable_move _ _) (.inl rfl)
    rw [length_slots]
    exact (hsc.piece hmove).append (Plain.one (writable_addiu (by omega) (by omega) _ _) (.inl rfl))
  have hexit : Plain Support.labels ([.remark 4 "exit"] ++ Support.exit ++ [.blank]) := by
    decide +kernel
  have hrun := emitted_of_stmtsCode hsc hbody hwritten.body (by omega)
  have hwhole := ((Emitted.of_plain hframe 0).append hrun).append_plain (hsc.piece hexit)
  refine ⟨?_, by omega⟩
  have hlabel : isLabel Assembler.entryName := by decide
  have hfits : Short Assembler.entryName := by
    unfold Short
    decide
  have hdeclared := Declared.of_label hlabel hfits hwhole
  simp only [List.append_assoc, List.cons_append, List.nil_append] at hdeclared ⊢
  exact hdeclared

theorem declared_code :
    Declared (knownLabels p) (Assembler.entryName :: entryLabels p) 0 n' (start ++ others) := by
  obtain ⟨hstart, hle⟩ := h.declared_main hsmall hshort
  have hweight : m.weight + total ClassDecl.weight p.classes ≤ p.weight := by
    rw [Program.weight, h.main]
    exact Nat.le_refl _
  obtain ⟨hothers, -⟩ := h.declared_classes hsmall hshort (fun c hc => hc) h.others (by omega)
  rw [entryLabels_eq]
  exact hstart.append hothers

/-- The labels of a program are the fixed ones, those of methods and numbered ones. -/
theorem labels_perm :
    (Code.labels (start ++ others ++ Support.routines)).Perm
      (knownLabels p ++ labelsBetween 0 n') := by
  have hcode := (h.declared_code hsmall hshort).labels
  have hmain : utf8 "main" = Assembler.entryName := rfl
  rw [labels_append, knownLabels, Support.labels, hmain]
  refine (hcode.append_right _).trans ?_
  rw [List.perm_iff_count]
  intro l
  simp only [List.count_append, List.cons_append, List.count_cons]
  omega

omit hsmall hshort in
/-- No label of a program is defined twice, nor is it the label of a message. -/
theorem nodup_labels :
    (Support.messageNames ++ (knownLabels p ++ labelsBetween 0 n')).Nodup := by
  have hword : ∀ l ∈ entryLabels p, ∃ c m, IsWord c ∧ l = entryLabel c m := by
    intro l hl
    obtain ⟨c, hc, d, -, rfl⟩ := mem_entryLabels.mp hl
    exact ⟨_, _, (h.written.classes c hc).name.name.1, rfl⟩
  rw [knownLabels, List.append_assoc, ← List.append_assoc]
  refine List.Nodup.append fixed_spec.1 (List.Nodup.append h.entries (nodup_labelsBetween 0 n') ?_) ?_
  · intro l hl hl'
    obtain ⟨c, d, hc, rfl⟩ := hword l hl
    obtain ⟨k, -, -, heq⟩ := mem_labelsBetween.mp hl'
    exact labelText_ne_entryLabel hc d k heq.symm
  · intro l hl hl'
    rcases List.mem_append.mp hl' with hentry | hnumber
    · obtain ⟨c, d, -, rfl⟩ := hword l hentry
      obtain ⟨hlabels, hmessages⟩ := entryLabel_not_fixed c d
      exact (List.mem_append.mp hl).elim hmessages hlabels
    · obtain ⟨k, -, -, rfl⟩ := mem_labelsBetween.mp hnumber
      obtain ⟨hlabels, hmessages⟩ := labelText_not_fixed k
      exact (List.mem_append.mp hl).elim hmessages hlabels

/-- Instructions name no other labels than those of the code and of the messages, and only `la`
names one of the latter. -/
theorem targets_spec {i : Instr}
    (hi : i ∈ Code.instrs (start ++ others ++ Support.routines)) :
    i.label = [] ∨ i.label ∈ Code.labels (start ++ others ++ Support.routines) ∨
      (i.op = .la ∧ i.label ∈ Support.messageNames) := by
  have hmem {l : Bytes} (hl : l ∈ knownLabels p ++ labelsBetween 0 n') :=
    (h.labels_perm hsmall hshort).mem_iff.mpr hl
  rw [instrs_append] at hi
  rcases List.mem_append.mp hi with hi | hi
  · rcases (h.declared_code hsmall hshort).targets i hi with hnil | hknown | hnumber
    · exact .inl hnil
    · exact .inr (.inl (hmem (List.mem_append_left _ hknown)))
    · exact .inr (.inl (hmem (List.mem_append_right _ hnumber)))
  · refine (Support.routines_spec.2 i hi).imp id (Or.imp (fun hl => hmem ?_) id)
    exact List.mem_append_left _ (List.mem_append_left _ hl)

/-- The code of a program can be assembled. -/
theorem assemblable : Code.Assemblable (start ++ others ++ Support.routines) := by
  have hperm := h.labels_perm hsmall hshort
  have hnodup := List.nodup_append.mp h.nodup_labels
  refine ⟨?_, hperm.nodup_iff.mpr hnodup.2.1, ?_, ?_, ?_⟩
  · rw [List.forall_mem_append]
    exact ⟨(h.declared_code hsmall hshort).writable, Support.routines_spec.1⟩
  · intro l hl hmessage
    exact hnodup.2.2 l hmessage l (hperm.mem_iff.mp hl) rfl
  · intro i hi
    exact (h.targets_spec hsmall hshort hi).imp id (Or.imp id And.right)
  · refine hperm.mem_iff.mpr ?_
    exact List.mem_append_left _ (List.mem_append_left _ (List.mem_cons_self ..))

end Compiled

/-! ### Programs -/

/-- The label of a method stands for the first instruction of its code. -/
theorem Compiled.method_at {p : Program} {m : MainClass} {start others : Code} {g g' : Generator}
    (h : Compiled p m start others g.nextLabel g'.nextLabel)
    (hnodup : (Code.labels (start ++ others ++ Support.routines)).Nodup)
    (hrun : Gen.classes (tableOf m p.classes) p.classes g = (.ok others, g')) {c : ClassDecl}
    (hc : c ∈ p.classes) {d : MethodDecl} (hd : d ∈ c.methods) :
    ∃ cls g₁ g₂ front body back, (tableOf m p.classes).find? c.name.name = some cls ∧
      Gen.method (tableOf m p.classes) cls d g₁ = (.ok body, g₂) ∧
      start ++ others ++ Support.routines = front ++ body ++ back ∧
      (Code.placed 0 (front ++ body ++ back)).reverse.lookup
        (entryLabel c.name.name d.name.name) = some (front.instrs.length : Int) := by
  obtain ⟨cls, g₁, g₂, front, body, back, hcls, hbody, rfl⟩ := method_of_classes hc hd hrun
  obtain ⟨k, -, -, hclass⟩ := h.class_spec hc
  rw [hclass] at hcls
  obtain rfl := Option.some.inj hcls
  obtain ⟨info, remark, rest, hinfo, rfl⟩ := method_front hbody
  rw [h.method_spec hc hd k] at hinfo
  obtain rfl := Option.some.inj hinfo
  have hwhole : start ++ (front ++ .remark 0 remark ::
      .label (entryLabel c.name.name d.name.name) :: rest ++ back) ++ Support.routines =
      (start ++ front ++ [.remark 0 remark]) ++ .label (entryLabel c.name.name d.name.name) ::
        (rest ++ back ++ Support.routines) := by
    simp only [List.append_assoc, List.cons_append, List.nil_append]
  refine ⟨_, g₁, g₂, start ++ front, _, back ++ Support.routines, hclass, hbody,
    by simp only [List.append_assoc], ?_⟩
  have hplace := Code.lookup_placed (hwhole ▸ hnodup) 0
  have hcount : (Code.instrs (start ++ front ++ [.remark 0 remark])).length =
      (Code.instrs (start ++ front)).length := by
    rw [instrs_append, instrs_remark, instrs_nil, List.append_nil]
  rw [hcount, Nat.zero_add] at hplace
  rw [← hplace]
  simp only [List.append_assoc, List.cons_append, List.nil_append]
  rfl

/-- A jump goes to a label of the code. -/
theorem Compiled.jump_mem_labels {p : Program} {m : MainClass} {start others : Code} {n n' : Nat}
    (h : Compiled p m start others n n') (hsmall : p.weight ≤ 0x4000000) (hshort : p.NamesShort)
    {i : Instr} (hi : i ∈ Code.instrs (start ++ others ++ Support.routines))
    (hjump : i.op ∈ Opcode.jumps) :
    i.label ∈ Code.labels (start ++ others ++ Support.routines) := by
  obtain ⟨hoperand, hla⟩ := Opcode.label_mem_operands _ hjump
  obtain ⟨line, hline, hinstr⟩ := List.mem_filterMap.mp hi
  have hwritable := (h.assemblable hsmall hshort).writable line hline
  cases line with
  | instr j r =>
    obtain rfl := Option.some.inj hinstr
    rcases h.targets_spec hsmall hshort hi with hnil | hmem | ⟨hop, -⟩
    · exact absurd hnil (ne_nil_of_isLabel (hwritable.1.label hoperand))
    · exact hmem
    · exact absurd hop hla
  | _ => cases hinstr

/-- What is compiled assembles.  No label is defined twice; the label of a method stands for the
first instruction of its code; and all jumps go to labels in the code. -/
theorem compile_assembles (source text : Bytes) (hsmall : source.length < 0x4000000)
    (hshort : (Program.parse source).program.NamesShort) (h : compile source = .ok text) :
    ∃ p t image, analyze source = .ok (p, t) ∧ assemble text = .ok image ∧
      (image.dataLabels.map (·.1) ++ image.textLabels.map (·.1)).Nodup ∧
      (∀ c ∈ p.classes, ∀ d ∈ c.methods, ∃ cls g g' front body back,
        t.find? c.name.name = some cls ∧ Gen.method t cls d g = (.ok body, g') ∧
        text = Code.text (front ++ body ++ back) ∧ image.Holds front.instrs.length body ∧
        image.textLabels.lookup (entryLabel c.name.name d.name.name) =
          some (front.instrs.length : Int)) ∧
      ∀ i ∈ image.text, i.op ∈ Opcode.jumps → (image.textLabels.lookup i.label).isSome := by
  obtain ⟨p, m, start, others, g, g', hanalyze, rfl, hweight, hc, hrun, rfl⟩ := compile_spec h
  have hbound : (Program.parse source).program.weight ≤ 0x4000000 := by omega
  have hasm := hc.assemblable hbound hshort
  refine ⟨_, _, _, hanalyze, assemble_text hasm, ?_, ?_, ?_⟩
  · have hperm : ((Code.placed 0 (start ++ others ++ Support.routines)).reverse.map (·.1)).Perm
        (knownLabels (Program.parse source).program ++ labelsBetween 0 g'.nextLabel) := by
      rw [List.map_reverse, Code.map_fst_placed]
      exact (List.reverse_perm _).trans (hc.labels_perm hbound hshort)
    exact (hperm.append_left _).nodup_iff.mpr hc.nodup_labels
  · intro c hmem d hd
    obtain ⟨cls, g₁, g₂, front, body, back, hcls, hbody, hwhole, hplace⟩ :=
      hc.method_at hasm.nodup hrun hmem hd
    rw [hwhole]
    have hheader : (Code.instrs (Support.header ++ front)).length = (Code.instrs front).length := by
      rw [instrs_append]
      rfl
    refine ⟨cls, g₁, g₂, Support.header ++ front, body, back, hcls, hbody,
      by simp only [List.append_assoc], ?_, ?_⟩
    · rw [hheader]
      exact Code.holds_image front body back
    · rw [hheader]
      exact hplace
  · intro i hi hjump
    obtain ⟨j, hj, heq⟩ := Code.mem_numbered (Array.mem_toList_iff.mpr hi)
    rw [heq] at hjump ⊢
    exact Code.isSome_lookup_placed hasm.nodup (hc.jump_mem_labels hbound hshort hj hjump) 0

/-- A program in which a method is inherited. -/
def inheriting : Bytes :=
  "class A\x7bpublic static void main(String[] a)\x7bSystem.out.println(new C().m(1));\x7d\x7d" ++
    "class B\x7bpublic int m(int x)\x7bwhile(x<3)x=x+1;return x;\x7d\x7dclass C extends B\x7b\x7d"

theorem compile_assembles_inheriting :
    ∃ text image, compile inheriting = .ok text ∧ assemble text = .ok image ∧
      ∀ i ∈ image.text, i.op ∈ Opcode.jumps → (image.textLabels.lookup i.label).isSome := by
  have haccepted : (compile inheriting).toBool := by decide +kernel
  have hnames : (Program.parse inheriting).program.NamesShort := by decide +kernel
  cases hcompile : compile inheriting with
  | error e =>
    rw [hcompile] at haccepted
    cases haccepted
  | ok text =>
    obtain ⟨p, t, image, -, hassemble, -, -, hjumps⟩ :=
      compile_assembles inheriting text (by decide +kernel) hnames hcompile
    exact ⟨text, image, rfl, hassemble, hjumps⟩

end MiniJava
