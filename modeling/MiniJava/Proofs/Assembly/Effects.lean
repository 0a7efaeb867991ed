import MiniJava.Proofs.Assembly.Reading

/-!
# What accepted lines do

A line that the assembler accepts defines the labels in front of it, which must be new, and then
does what its statement says.  All that a line can do is said once here, and what holds of whole
texts follows from it line by line.

* **`labelsOf`**, **`wordOf`**, **`argsOf`** — the parts of a line.
* **`State.labelled`** — the image so far with labels for what follows.
* **`Effect`** — what a statement does, with one case for each kind of statement.
* **`effect_of_step`** — a line that is accepted has such an effect.
* **`steps_preserve`** — what every line preserves, a text preserves.
-/

namespace MiniJava.Assembler

/-! ### The parts of a line -/

/-- The part of a line that is read. -/
def body (line : Bytes) : Bytes := (stripRemark (dropReturn line)).trim

/-- The labels in front of a line. -/
def labelsOf (line : Bytes) : List Bytes := (takeLabels (body line).length (body line)).1

/-- What stands behind the labels of a line. -/
def statementOf (line : Bytes) : Bytes := (takeLabels (body line).length (body line)).2

/-- The first word behind the labels of a line: a directive or an opcode. -/
def wordOf (line : Bytes) : Bytes := (splitWord (statementOf line)).1

/-- What stands behind that word. -/
def argsOf (line : Bytes) : Bytes := (splitWord (statementOf line)).2

/-! ### Labels -/

namespace State

/-- The labels that are defined. -/
def names (s : State) : List Bytes := s.dataLabels.map (·.1) ++ s.textLabels.map (·.1)

theorem defines_iff (s : State) (label : Bytes) : s.defines label = true ↔ label ∈ s.names := by
  rw [defines, Bool.or_eq_true, names, List.mem_append]
  constructor
  · intro h
    apply h.imp
    · intro hdata
      by_contra hnone
      rw [lookup_eq_none_of_not_mem hnone] at hdata
      cases hdata
    · intro htext
      by_contra hnone
      rw [lookup_eq_none_of_not_mem hnone] at htext
      cases htext
  · intro h
    exact h.imp isSome_lookup_of_mem isSome_lookup_of_mem

/-- The image so far with the given labels for what follows. -/
def labelled (s : State) (labels : List Bytes) : State :=
  if s.inData then { s with dataLabels := (labels.map (·, s.here)).reverse ++ s.dataLabels }
  else { s with textLabels := (labels.map (·, (s.code.size : Int))).reverse ++ s.textLabels }

@[simp] theorem labelled_nil (s : State) : s.labelled [] = s := by
  unfold labelled
  split <;> rfl

@[simp] theorem inData_labelled (s : State) (labels : List Bytes) :
    (s.labelled labels).inData = s.inData := by
  unfold labelled
  split <;> rfl

@[simp] theorem data_labelled (s : State) (labels : List Bytes) :
    (s.labelled labels).data = s.data := by
  unfold labelled
  split <;> rfl

@[simp] theorem code_labelled (s : State) (labels : List Bytes) :
    (s.labelled labels).code = s.code := by
  unfold labelled
  split <;> rfl

theorem labelled_cons (s : State) (l : Bytes) (ls : List Bytes) :
    s.labelled (l :: ls) = (s.labelled [l]).labelled ls := by
  obtain ⟨inData, data, dataLabels, textLabels, code⟩ := s
  cases inData with
  | true => simp [labelled, here]
  | false => simp [labelled]

/-- The labels that are defined afterwards. -/
theorem mem_names_labelled {s : State} {labels : List Bytes} {l : Bytes} :
    l ∈ (s.labelled labels).names ↔ l ∈ labels ∨ l ∈ s.names := by
  unfold labelled names
  split
  · simp
  · simp [or_left_comm]

theorem names_align (s : State) (labels : List Bytes) : (s.align labels).names = s.names := by
  unfold names align
  simp only [List.map_map]
  congr 2
  funext entry
  show (if labels.contains entry.1 then _ else _ : Bytes × UInt32).1 = entry.1
  split <;> rfl

/-- A label that can be defined is a new one. -/
theorem define_eq_ok {s s' : State} {l : Bytes} (h : s.define l = .ok s') :
    s.defines l = false ∧ s' = s.labelled [l] := by
  unfold define at h
  unfold labelled
  split at h
  · cases h
  · rename_i hnew
    split at h
    · rename_i hdata
      rw [if_pos hdata]
      exact ⟨eq_false_of_ne_true hnew, (Except.ok.inj h).symm⟩
    · rename_i hdata
      rw [if_neg hdata]
      exact ⟨eq_false_of_ne_true hnew, (Except.ok.inj h).symm⟩

/-- Labels that can be defined one after another are new and different. -/
theorem defineAll_eq_ok {s s' : State} {labels : List Bytes} (h : s.defineAll labels = .ok s') :
    labels.Nodup ∧ (∀ l ∈ labels, l ∉ s.names) ∧ s' = s.labelled labels := by
  induction labels generalizing s with
  | nil => exact ⟨List.nodup_nil, by simp, by simpa using (Except.ok.inj h).symm⟩
  | cons l ls ih =>
    rw [defineAll] at h
    cases hfirst : s.define l with
    | error f =>
      rw [hfirst] at h
      cases h
    | ok s₁ =>
      rw [hfirst] at h
      have hdefine := define_eq_ok hfirst
      have hrest := ih h
      rw [hdefine.2] at hrest
      have hnew : l ∉ s.names := by
        rw [← defines_iff, hdefine.1]
        exact Bool.false_ne_true
      have hothers : ∀ m ∈ ls, m ≠ l ∧ m ∉ s.names := by
        intro m hm
        have hfresh := hrest.2.1 m hm
        rw [mem_names_labelled, not_or] at hfresh
        exact ⟨by simpa using hfresh.1, hfresh.2⟩
      constructor
      · rw [List.nodup_cons]
        exact ⟨fun hmem => (hothers l hmem).1 rfl, hrest.1⟩
      constructor
      · rw [List.forall_mem_cons]
        exact ⟨hnew, fun m hm => (hothers m hm).2⟩
      · rw [labelled_cons]
        exact hrest.2.2

end State

/-! ### Statements -/

/-- What the statement of the line of the given number does to the image so far.  The given labels
stand in front of it and move along when data is aligned. -/
inductive Effect (s : State) (labels : List Bytes) (number : Nat) (line : Bytes) : State → Prop
  /-- There is no statement. -/
  | nothing : statementOf line = [] → Effect s labels number line s
  /-- What follows goes to the other segment, or to the same one. -/
  | segment {inData : Bool} : wordOf line = utf8 (if inData then ".data" else ".text") →
      Effect s labels number line { s with inData }
  | ignored : wordOf line = utf8 ".globl" ∨ wordOf line = utf8 ".align" →
      Effect s labels number line s
  /-- The bytes of a string and a zero byte. -/
  | string {bytes : Bytes} : wordOf line = utf8 ".asciiz" →
      Literal.read (argsOf line) = .ok bytes →
      Effect s labels number line { s with data := s.data ++ bytes ++ [0] }
  /-- Whole words, behind as many zero bytes as it takes. -/
  | words {bytes : Bytes} : wordOf line = utf8 ".word" →
      words (splitOperands (argsOf line)) = .ok bytes →
      Effect s labels number line
        { s.align labels with data := (s.align labels).data ++ bytes }
  | instruction : s.inData = false → (wordOf line).head? ≠ some '.'.toUInt8 →
      Effect s labels number line
        { s with code := s.code.push ⟨wordOf line, splitOperands (argsOf line), number⟩ }

/-- A directive that is accepted is one of those that there are. -/
theorem effect_of_directive {s s' : State} {labels : List Bytes} {number : Nat} {line : Bytes}
    (h : directive s labels (wordOf line) (argsOf line) = .ok s') :
    Effect s labels number line s' := by
  unfold directive at h
  split at h
  · rename_i hword
    obtain rfl := Except.ok.inj h
    exact .segment (by simpa using hword)
  split at h
  · rename_i hword
    obtain rfl := Except.ok.inj h
    exact .segment (by simpa using hword)
  split at h
  · rename_i hword
    obtain rfl := Except.ok.inj h
    exact .ignored (by simpa using hword)
  split at h
  · rename_i hword
    split at h
    · rename_i bytes hread
      obtain rfl := Except.ok.inj h
      exact .string (by simpa using hword) hread
    · cases h
  split at h
  · rename_i hword
    cases hwords : words (splitOperands (argsOf line)) with
    | error f =>
      rw [hwords] at h
      cases h
    | ok bytes =>
      rw [hwords] at h
      obtain rfl := Except.ok.inj h
      exact .words (by simpa using hword) hwords
  · cases h

/-- A line that is accepted defines new labels and does what its statement says. -/
theorem effect_of_step {s s' : State} {number : Nat} {line : Bytes}
    (h : step s number line = .ok s') :
    (labelsOf line).Nodup ∧ (∀ l ∈ labelsOf line, l ∉ s.names) ∧
      Effect (s.labelled (labelsOf line)) (if s.inData then labelsOf line else []) number line
        s' := by
  have hcontent : content s number (body line) = .ok s' := by
    unfold step at h
    show content s number (stripRemark (dropReturn line)).trim = .ok s'
    cases hcontent : content s number (stripRemark (dropReturn line)).trim with
    | error f =>
      rw [hcontent] at h
      cases h
    | ok s₁ =>
      rw [hcontent] at h
      exact congrArg Except.ok (Except.ok.inj h)
  unfold content at hcontent
  cases hdefine : s.defineAll (labelsOf line) with
  | error f =>
    simp only [labelsOf] at hdefine
    simp only [hdefine, bind, Except.bind] at hcontent
    cases hcontent
  | ok s₁ =>
    have hlabels := State.defineAll_eq_ok hdefine
    simp only [labelsOf] at hdefine
    simp only [hdefine, bind, Except.bind] at hcontent
    change (if (statementOf line).isEmpty then _ else
      if (wordOf line).head? == some '.'.toUInt8 then
        directive s₁ (if s₁.inData then labelsOf line else []) (wordOf line) (argsOf line)
      else if s₁.inData then _
      else Except.ok { s₁ with
        code := s₁.code.push ⟨wordOf line, splitOperands (argsOf line), number⟩ }) = _ at hcontent
    refine ⟨hlabels.1, hlabels.2.1, ?_⟩
    rw [← hlabels.2.2, show s.inData = s₁.inData by rw [hlabels.2.2, State.inData_labelled]]
    split at hcontent
    · rename_i hnone
      obtain rfl := Except.ok.inj hcontent
      exact .nothing (List.isEmpty_iff.mp hnone)
    split at hcontent
    · exact effect_of_directive hcontent
    · rename_i hdot
      split at hcontent
      · cases hcontent
      · rename_i hcode
        obtain rfl := Except.ok.inj hcontent
        exact .instruction (eq_false_of_ne_true hcode) (by simpa using hdot)

/-! ### Texts -/

theorem steps_cons_eq_ok {s s' : State} {number : Nat} {line : Bytes} {lines : List Bytes}
    (h : steps s number (line :: lines) = .ok s') :
    ∃ s₁, step s number line = .ok s₁ ∧ steps s₁ (number + 1) lines = .ok s' := by
  rw [steps] at h
  cases hfirst : step s number line with
  | error e =>
    rw [hfirst] at h
    cases h
  | ok s₁ =>
    rw [hfirst] at h
    exact ⟨s₁, rfl, h⟩

theorem steps_append_eq_ok {s s' : State} {number : Nat} {front back : List Bytes}
    (h : steps s number (front ++ back) = .ok s') :
    ∃ s₁, steps s number front = .ok s₁ ∧ steps s₁ (number + front.length) back = .ok s' := by
  rw [steps_append] at h
  cases hfront : steps s number front with
  | error e =>
    rw [hfront] at h
    cases h
  | ok s₁ =>
    rw [hfront] at h
    exact ⟨s₁, rfl, h⟩

/-- What every line preserves, lines in order preserve. -/
theorem steps_preserve {P : State → Prop}
    (hstep : ∀ s number line s', P s → step s number line = .ok s' → P s') {s s' : State}
    {number : Nat} {lines : List Bytes} (hs : P s) (h : steps s number lines = .ok s') : P s' := by
  induction lines generalizing s number with
  | nil =>
    rw [← Except.ok.inj h]
    exact hs
  | cons line lines ih =>
    obtain ⟨s₁, hfirst, hrest⟩ := steps_cons_eq_ok h
    exact ih (hstep s number line s₁ hs hfirst) hrest

end MiniJava.Assembler
