import Mathlib.Data.List.TakeWhile
import MiniJava.Proofs.Assembly.Operand

/-!
# What lines of code do

The assembler reads a line of code as what was written.

* **`Line.Legible`**, **`Line.Writable`** — lines of code that can be read back, and those that are
  short enough besides: labels, instructions and remarks.
* **`Line.after`** — what such a line does to the image so far.
* **`step_write`** — reading the text of a line does just that.
-/

namespace MiniJava

/-! ### Bytes of lines -/

/-- Bytes that occur in an instruction: those of operands, blanks and commas. -/
def isBody (c : UInt8) : Bool := isInner c || c == ' ' || c == ','

/-- Bytes that occur in a line: blanks and what is visible. -/
def isLineByte (c : UInt8) : Bool := 32 ≤ c && c ≤ 126

/-- Bytes that neither start a remark nor open a string. -/
def isQuiet (c : UInt8) : Bool := c != '#' && c != '"'

theorem isBody_spec : ∀ c : UInt8, isBody c → isLineByte c ∧ c ≠ ':'.toUInt8 ∧ isQuiet c := by
  refine forall_byte ?_
  decide +kernel

theorem isLineByte_spec (c : UInt8) (h : isLineByte c) : c ≠ '\n'.toUInt8 ∧ c ≠ '\r'.toUInt8 := by
  constructor
  · rintro rfl
    exact absurd h (by decide)
  · rintro rfl
    exact absurd h (by decide)

theorem isBody_of_isInner {c : UInt8} (h : isInner c) : isBody c := by
  simp [isBody, h]

/-- Is the text nothing but blanks, or blanks and a remark? -/
def isRemark (r : Bytes) : Bool :=
  (r.dropWhile (· == ' '.toUInt8)).head?.all (· == '#'.toUInt8) && r.all isLineByte

/-! ### Remarks -/

theorem remarkStart_append {s : Bytes} (h : ∀ c ∈ s, isQuiet c) (n : Nat) (r : Bytes) :
    Assembler.remarkStart false n (s ++ r) = Assembler.remarkStart false (n + s.length) r := by
  induction s generalizing n with
  | nil => rfl
  | cons c s ih =>
    rw [List.forall_mem_cons] at h
    obtain ⟨hhash, hquote⟩ : c ≠ '#'.toUInt8 ∧ c ≠ '"'.toUInt8 := by simpa [isQuiet] using h.1
    have hstep : Assembler.remarkStart false n (c :: (s ++ r)) =
        Assembler.remarkStart false (n + 1) (s ++ r) := by
      rw [Assembler.remarkStart.eq_def]
      simp [hquote, hhash]
    rw [List.cons_append, hstep, ih h.2, List.length_cons]
    congr 1
    omega

/-- A remark goes, and the blanks in front of it stay. -/
theorem stripRemark_append {s r : Bytes} (hs : ∀ c ∈ s, isQuiet c) (hr : isRemark r) :
    ∃ k, Assembler.stripRemark (s ++ r) = s ++ List.replicate k ' '.toUInt8 := by
  simp only [isRemark, Bool.and_eq_true] at hr
  have hblanks : r.takeWhile (· == ' '.toUInt8) =
      List.replicate (r.takeWhile (· == ' '.toUInt8)).length ' '.toUInt8 := by
    refine List.eq_replicate_of_mem fun c hc => ?_
    simpa using List.mem_takeWhile_imp hc
  generalize (r.takeWhile (· == ' '.toUInt8)).length = k at hblanks
  have hsplit : s ++ r = (s ++ List.replicate k ' '.toUInt8) ++ r.dropWhile (· == ' '.toUInt8) := by
    rw [List.append_assoc, ← hblanks, List.takeWhile_append_dropWhile]
  have hquiet : ∀ c ∈ s ++ List.replicate k ' '.toUInt8, isQuiet c := by
    simp only [List.forall_mem_append]
    exact ⟨hs, fun c hc => by rw [List.eq_of_mem_replicate hc]; decide⟩
  refine ⟨k, ?_⟩
  rw [Assembler.stripRemark, hsplit, remarkStart_append hquiet, Nat.zero_add]
  rcases htail : r.dropWhile (· == ' '.toUInt8) with _ | ⟨c, tail⟩
  · rw [List.append_nil, Assembler.remarkStart.eq_def, List.take_length]
  · have hc : c = '#'.toUInt8 := by simpa [htail] using hr.1
    subst hc
    rw [show Assembler.remarkStart false (s ++ List.replicate k ' '.toUInt8).length
      ('#'.toUInt8 :: tail) = (s ++ List.replicate k ' '.toUInt8).length by
        rw [Assembler.remarkStart.eq_def]; rfl, List.take_left]

theorem dropReturn_eq_self {line : Bytes} (h : ∀ c ∈ line, isLineByte c) :
    Assembler.dropReturn line = line := by
  rw [Assembler.dropReturn, if_neg]
  intro hlast
  rw [beq_iff_eq] at hlast
  exact (isLineByte_spec _ (h _ (List.mem_of_getLast? hlast))).2 rfl

/-! ### Labels in front -/

theorem takeLabels_eq_nil {line : Bytes} (h : ':'.toUInt8 ∉ line) (n : Nat) :
    Assembler.takeLabels n line = ([], line) := by
  cases n with
  | zero => rfl
  | succ n =>
    have hcut : Bytes.cut ':' line = none := Bytes.cut_eq_none_iff.mpr h
    simp only [Assembler.takeLabels, Assembler.splitLabel?, hcut]

theorem colon_not_mem {s : Bytes} (h : ∀ c ∈ s, isBody c) : ':'.toUInt8 ∉ s :=
  fun hmem => (isBody_spec _ (h _ hmem)).2.1 rfl

theorem takeLabels_label {l : Bytes} (h : isLabel l) (n : Nat) :
    Assembler.takeLabels (n + 1) (l ++ ":") = ([l], []) := by
  have hcolon : ':'.toUInt8 ∉ l :=
    colon_not_mem fun c hc => isBody_of_isInner (isInner_of_isLabel h c hc)
  have hcut : Bytes.cut ':' (l ++ utf8 ":") = some (l, []) :=
    Bytes.cut_eq_some_iff.mpr ⟨rfl, hcolon⟩
  have hnone : Assembler.takeLabels n [] = ([], []) := takeLabels_eq_nil (by simp) n
  have htrim : Bytes.trim [] = [] := rfl
  simp only [Assembler.takeLabels, Assembler.splitLabel?, hcut, h, if_true, htrim, hnone]

/-! ### Instructions -/

theorem join_ne_nil (sep : Bytes) {s : Bytes} (ss : List Bytes) (h : s ≠ []) :
    Bytes.join sep (s :: ss) ≠ [] := by
  cases ss with
  | nil => exact h
  | cons s' ss => simp [Bytes.join, h]

/-- Operands with commas and blanks between them begin and end with bytes of operands. -/
theorem join_ends {ss : List Bytes} (h : ∀ s ∈ ss, s ≠ [] ∧ ∀ c ∈ s, isInner c) :
    (∀ c ∈ (Bytes.join ", " ss).head?, isInner c) ∧
      ∀ c ∈ (Bytes.join ", " ss).getLast?, isInner c := by
  induction ss with
  | nil => simp [Bytes.join]
  | cons s ss ih =>
    rw [List.forall_mem_cons] at h
    obtain ⟨⟨hne, hinner⟩, hrest⟩ := h
    cases ss with
    | nil =>
      exact ⟨fun c hc => hinner c (List.mem_of_mem_head? hc),
        fun c hc => hinner c (List.mem_of_getLast? hc)⟩
    | cons s' ss =>
      have hne' := join_ne_nil ", " ss (hrest s' (List.mem_cons_self ..)).1
      obtain ⟨a, s, rfl⟩ := List.exists_cons_of_ne_nil hne
      constructor
      · intro c hc
        exact hinner c (List.mem_of_mem_head? (l := a :: s) hc)
      · intro c hc
        rw [Bytes.join, List.getLast?_append, List.getLast?_eq_some_getLast hne'] at hc
        · refine (ih hrest).2 c ?_
          rw [List.getLast?_eq_some_getLast hne']
          exact hc
        · simp

theorem splitOn_join {s : Bytes} {ss : List Bytes} (h : ∀ t ∈ s :: ss, ∀ c ∈ t, isInner c) :
    (Bytes.join ", " (s :: ss)).splitOn ','.toUInt8 = s :: ss.map (' '.toUInt8 :: ·) := by
  induction ss generalizing s with
  | nil =>
    refine List.splitOn_eq_singleton fun hmem => ?_
    exact (isInner_spec _ (h s (List.mem_cons_self ..) _ hmem)).2.1 rfl
  | cons s' ss ih =>
    rw [List.forall_mem_cons] at h
    have hcomma : ','.toUInt8 ∉ s := fun hmem => (isInner_spec _ (h.1 _ hmem)).2.1 rfl
    have hblank : ∀ t : Bytes, ((' '.toUInt8 :: t).splitOn ','.toUInt8) =
        (t.splitOn ','.toUInt8).modifyHead (' '.toUInt8 :: ·) := by
      intro t
      rw [List.splitOn_cons_eq_if_modifyHead]
      rfl
    have hjoin : Bytes.join ", " (s :: s' :: ss) =
        s ++ ','.toUInt8 :: ' '.toUInt8 :: Bytes.join ", " (s' :: ss) := by
      rw [Bytes.join, List.append_assoc]
      · rfl
      · simp
    rw [hjoin, List.splitOn_append_cons_self_of_not_mem hcomma, hblank, ih h.2]
    rfl

/-- Operands are taken apart as they were put together. -/
theorem splitOperands_join {ss : List Bytes} (h : ∀ s ∈ ss, s ≠ [] ∧ ∀ c ∈ s, isInner c) :
    Assembler.splitOperands (Bytes.join ", " ss) = ss := by
  cases ss with
  | nil => rfl
  | cons s ss =>
    obtain ⟨hhead, hlast⟩ := join_ends h
    have htrim : (Bytes.join ", " (s :: ss)).trim = Bytes.join ", " (s :: ss) :=
      trim_eq_self (fun c hc => (isInner_spec c (hhead c hc)).1)
        (fun c hc => (isInner_spec c (hlast c hc)).1)
    have hne := join_ne_nil ", " ss (h s (List.mem_cons_self ..)).1
    simp only [Assembler.splitOperands, htrim, List.isEmpty_eq_false_iff.mpr hne,
      Bool.false_eq_true, if_false]
    rw [splitOn_join fun t ht => (h t ht).2]
    rw [List.forall_mem_cons] at h
    have hself : ∀ t, (∀ c ∈ t, isInner c) → ∀ k,
        Bytes.trim (List.replicate k ' '.toUInt8 ++ t) = t := by
      intro t ht k
      simpa using trim_replicate k 0 (s := t)
        (fun c hc => (isInner_spec c (ht c (List.mem_of_mem_head? hc))).1)
        (fun c hc => (isInner_spec c (ht c (List.mem_of_getLast? hc))).1)
    rw [List.map_cons, List.map_map, show s.trim = s from hself s h.1.2 0]
    have hrest : ss.map (Bytes.trim ∘ (' '.toUInt8 :: ·)) = ss.map id :=
      List.map_congr_left fun t ht => hself t (h.2 t ht).2 1
    rw [hrest, List.map_id]

theorem isInner_opcode {op : Opcode} (h : op ∈ Opcode.names.map (·.2)) :
    op.text ≠ [] ∧ (∀ c ∈ op.text, isInner c) ∧ op.text.head? ≠ some '.'.toUInt8 := by
  obtain ⟨hne, -, hinner, hfirst, -⟩ := Opcode.text_spec op h
  exact ⟨hne, List.all_eq_true.mp hinner, hfirst⟩

/-- The name of an instruction is its first word, and its operands are the rest. -/
theorem splitWord_text {i : Instr} (h : i.Legible) :
    Assembler.splitWord i.text = (i.op.text, Bytes.join ", " (i.operandTexts 0 i.op.operands)) := by
  have hops := Instr.operandTexts_spec (i := i) (n := 0) h.label
  obtain ⟨-, hinner, -⟩ := isInner_opcode h.known
  have hword : ∀ c ∈ i.op.text, (c != ' '.toUInt8 && c != '\t'.toUInt8) = true := by
    intro c hc
    have hfirm := (isInner_spec c (hinner c hc)).1
    simp only [Bool.and_eq_true, bne_iff_ne]
    constructor
    · rintro rfl
      exact absurd hfirm (by decide)
    · rintro rfl
      exact absurd hfirm (by decide)
  unfold Instr.text Assembler.splitWord
  rcases hargs : i.operandTexts 0 i.op.operands with _ | ⟨s, ss⟩
  · simp only [List.takeWhile_eq_self_iff.mpr hword, List.dropWhile_eq_nil_iff.mpr hword]
    rfl
  · rw [hargs] at hops
    obtain ⟨hhead, hlast⟩ := join_ends hops
    have htrim : (Bytes.join ", " (s :: ss)).trim = Bytes.join ", " (s :: ss) :=
      trim_eq_self (fun c hc => (isInner_spec c (hhead c hc)).1)
        (fun c hc => (isInner_spec c (hlast c hc)).1)
    have hblank : ∀ t : Bytes, utf8 " " ++ t = ' '.toUInt8 :: t := fun _ => rfl
    simp only [List.append_assoc, hblank]
    rw [List.takeWhile_append_of_pos hword, List.dropWhile_append_of_pos hword]
    simp [htrim]

theorem isBody_join {ss : List Bytes} (h : ∀ s ∈ ss, ∀ c ∈ s, isInner c) :
    ∀ c ∈ Bytes.join ", " ss, isBody c := by
  induction ss with
  | nil => simp [Bytes.join]
  | cons s ss ih =>
    rw [List.forall_mem_cons] at h
    cases ss with
    | nil => exact fun c hc => isBody_of_isInner (h.1 c hc)
    | cons s' ss =>
      rw [Bytes.join]
      · simp only [List.forall_mem_append]
        exact ⟨⟨fun c hc => isBody_of_isInner (h.1 c hc), List.all_eq_true.mp (by decide)⟩, ih h.2⟩
      · simp

/-- An instruction is written in bytes of instructions, and its ends are firm. -/
theorem text_spec {i : Instr} (h : i.Legible) :
    i.text ≠ [] ∧ (∀ c ∈ i.text, isBody c) ∧ (∀ c ∈ i.text.head?, isFirm c) ∧
      ∀ c ∈ i.text.getLast?, isFirm c := by
  have hops := Instr.operandTexts_spec (i := i) (n := 0) h.label
  obtain ⟨hne, hinner, -⟩ := isInner_opcode h.known
  have hfirm : ∀ c ∈ i.op.text, isFirm c := fun c hc => (isInner_spec c (hinner c hc)).1
  have hbody : ∀ c ∈ i.op.text, isBody c := fun c hc => isBody_of_isInner (hinner c hc)
  unfold Instr.text
  rcases hargs : i.operandTexts 0 i.op.operands with _ | ⟨s, ss⟩
  · exact ⟨hne, hbody, fun c hc => hfirm c (List.mem_of_mem_head? hc),
      fun c hc => hfirm c (List.mem_of_getLast? hc)⟩
  · rw [hargs] at hops
    have hlast := (join_ends hops).2
    have hne' := join_ne_nil ", " ss (hops s (List.mem_cons_self ..)).1
    refine ⟨by simp [hne], ?_, ?_, ?_⟩
    · simp only [List.forall_mem_append]
      exact ⟨⟨hbody, List.all_eq_true.mp (by decide)⟩, isBody_join fun t ht => (hops t ht).2⟩
    · obtain ⟨a, rest, hop⟩ := List.exists_cons_of_ne_nil hne
      rw [hop] at hfirm
      intro c hc
      rw [hop] at hc
      exact hfirm c (List.mem_of_mem_head? (l := a :: rest) hc)
    · intro c hc
      simp only [List.getLast?_append, List.getLast?_eq_some_getLast hne'] at hc
      refine (isInner_spec c (hlast c ?_)).1
      rw [List.getLast?_eq_some_getLast hne']
      exact hc

/-! ### Lines -/

/-- Lines of code that can be read back, if they are not too long. -/
def Line.Legible : Line → Prop
  | .label l => isLabel l
  | .instr i r => i.Legible ∧ isRemark r
  | .remark _ s => ∀ c ∈ s, isLineByte c
  | .blank => True
  | _ => False

/-- Lines of code that can be written. -/
def Line.Writable : Line → Prop
  | .label l => isLabel l ∧ (Line.label l).write.length < Assembler.lineLimit
  | .instr i r => i.Writable ∧ isRemark r ∧ (Line.instr i r).write.length < Assembler.lineLimit
  | .remark n s =>
      (∀ c ∈ s, isLineByte c) ∧ (Line.remark n s).write.length < Assembler.lineLimit
  | .blank => True
  | _ => False

theorem Line.Writable.length_lt {l : Line} (h : l.Writable) :
    l.write.length < Assembler.lineLimit := by
  cases l with
  | label l => exact h.2
  | instr i r => exact h.2.2
  | remark n s => exact h.2
  | blank => decide
  | _ => exact False.elim h

theorem Line.Writable.legible {l : Line} (h : l.Writable) : l.Legible := by
  cases l with
  | label l => exact h.1
  | instr i r => exact ⟨h.1.legible, h.2.1⟩
  | remark n s => exact h.1
  | blank => trivial
  | _ => exact False.elim h

/-- A line is written in bytes of lines. -/
theorem Line.Legible.isLineByte {l : Line} (h : l.Legible) : ∀ c ∈ l.write, isLineByte c := by
  cases l with
  | label l =>
    simp only [write, List.forall_mem_append]
    exact ⟨fun c hc => (isBody_spec c (isBody_of_isInner (isInner_of_isLabel h c hc))).1,
      List.all_eq_true.mp (by decide)⟩
  | instr i r =>
    simp only [write, List.forall_mem_append]
    obtain ⟨hi, hr⟩ := h
    simp only [isRemark, Bool.and_eq_true, List.all_eq_true] at hr
    exact ⟨⟨List.all_eq_true.mp (by decide),
      fun c hc => (isBody_spec c ((text_spec hi).2.1 c hc)).1⟩, hr.2⟩
  | remark n s =>
    simp only [write, List.forall_mem_append, Bytes.replicate]
    refine ⟨⟨fun c hc => ?_, List.all_eq_true.mp (by decide)⟩, h⟩
    rw [List.eq_of_mem_replicate hc]
    decide
  | blank => simp [write]
  | _ => exact False.elim h

/-- What a line of code does to the image so far. -/
def Line.after (s : Assembler.State) (number : Nat) : Line → Assembler.State
  | .label l => { s with textLabels := (l, s.code.size) :: s.textLabels }
  | .instr i _ =>
      { s with code := s.code.push ⟨i.op.text, i.operandTexts 0 i.op.operands, number⟩ }
  | _ => s

theorem content_nil (s : Assembler.State) (number : Nat) :
    Assembler.content s number [] = .ok s := rfl

theorem content_label {s : Assembler.State} {l : Bytes} (hlabel : isLabel l)
    (hdata : s.inData = false) (hnew : s.defines l = false) (number : Nat) :
    Assembler.content s number (l ++ ":") = .ok ((Line.label l).after s number) := by
  have hlength : (l ++ utf8 ":").length = l.length + 1 := by simp [utf8]; rfl
  simp [Assembler.content, hlength, takeLabels_label hlabel, Assembler.State.defineAll,
    Assembler.State.define, hnew, hdata, Line.after, bind, Except.bind, pure, Except.pure]

theorem content_instr {s : Assembler.State} {i : Instr} (h : i.Legible) (hdata : s.inData = false)
    (r : Bytes) (number : Nat) :
    Assembler.content s number i.text = .ok ((Line.instr i r).after s number) := by
  obtain ⟨hne, hbody, -, -⟩ := text_spec h
  obtain ⟨-, -, hdot⟩ := isInner_opcode h.known
  have hops := Instr.operandTexts_spec (i := i) (n := 0) h.label
  have hdot' : (i.op.text.head? == some '.'.toUInt8) = false := beq_eq_false_iff_ne.mpr hdot
  simp only [Assembler.content, takeLabels_eq_nil (colon_not_mem hbody), Assembler.State.defineAll,
    splitWord_text h, splitOperands_join hops, bind, Except.bind,
    List.isEmpty_eq_false_iff.mpr hne, Bool.false_eq_true, if_false]
  rw [if_neg (by exact Bool.eq_false_iff.mp hdot'), if_neg (by simp [hdata])]
  rfl

/-- The line of a label holds nothing but the label and its colon. -/
theorem trim_label {name : Bytes} (h : isLabel name) :
    (Assembler.stripRemark (Line.label name).write).trim = name ++ utf8 ":" := by
  have hinner := isInner_of_isLabel h
  have hquiet : ∀ c ∈ name ++ utf8 ":", isQuiet c := by
    simp only [List.forall_mem_append]
    exact ⟨fun c hc => (isBody_spec c (isBody_of_isInner (hinner c hc))).2.2,
      List.all_eq_true.mp (by decide)⟩
  obtain ⟨k, hstrip⟩ := stripRemark_append (r := []) hquiet (by decide)
  rw [List.append_nil] at hstrip
  have htrim := trim_replicate 0 k (s := name ++ utf8 ":")
    (by
      obtain ⟨c, rest, rfl⟩ := List.exists_cons_of_ne_nil (ne_nil_of_isLabel h)
      intro d hd
      exact (isInner_spec d (hinner d (List.mem_of_mem_head? (l := c :: rest) hd))).1)
    (by
      intro d hd
      rw [List.getLast?_append] at hd
      obtain rfl : ':'.toUInt8 = d := Option.some.inj hd
      decide)
  rw [Line.write, hstrip]
  simpa using htrim

/-- Reading the text of a line does what the line does. -/
theorem step_write {s : Assembler.State} {l : Line} (h : l.Legible) (hdata : s.inData = false)
    (hnew : ∀ name, l = .label name → s.defines name = false) (number : Nat) :
    Assembler.step s number l.write = .ok (l.after s number) := by
  rw [Assembler.step, dropReturn_eq_self h.isLineByte]
  cases l with
  | label name =>
    rw [trim_label h, content_label h hdata (hnew name rfl)]
  | instr i r =>
    obtain ⟨hi, hr⟩ := h
    obtain ⟨-, hbody, hhead, hlast⟩ := text_spec hi
    have hindent : ∀ c ∈ utf8 "    " ++ i.text, isQuiet c := by
      simp only [List.forall_mem_append]
      exact ⟨List.all_eq_true.mp (by decide), fun c hc => (isBody_spec c (hbody c hc)).2.2⟩
    obtain ⟨k, hstrip⟩ := stripRemark_append hindent hr
    have htrim := trim_replicate 4 k hhead hlast
    have hline : (Assembler.stripRemark (Line.instr i r).write).trim = i.text := by
      rw [Line.write, hstrip]
      exact htrim
    rw [hline, content_instr hi hdata r]
  | remark n content =>
    have hremark : isRemark (Line.remark n content).write := by
      have hbytes := h.isLineByte
      have hdrop : (Line.remark n content).write.dropWhile (· == ' '.toUInt8) =
          utf8 "# " ++ content := by
        rw [Line.write, Bytes.replicate, List.append_assoc, List.dropWhile_append_of_pos]
        · rfl
        · intro c hc
          rw [List.eq_of_mem_replicate hc]
          rfl
      simp only [isRemark, hdrop, Bool.and_eq_true, List.all_eq_true]
      exact ⟨rfl, hbytes⟩
    obtain ⟨k, hstrip⟩ := stripRemark_append (s := []) (by simp) hremark
    have htrim : Bytes.trim (List.replicate k ' '.toUInt8) = [] :=
      trim_replicate 0 k (s := []) (by simp) (by simp)
    rw [List.nil_append, List.nil_append] at hstrip
    rw [hstrip, htrim, content_nil]
    rfl
  | blank => rfl
  | _ => exact False.elim h

end MiniJava
