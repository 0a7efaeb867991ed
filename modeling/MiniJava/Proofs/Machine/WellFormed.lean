import MiniJava.Proofs.Assembly.Effects
import MiniJava.Proofs.Machine.Faults

/-!
# Assembled programs are well-formed

The assembler leaves nothing to chance for the machine: the opcodes of an image are known, its
registers exist, and every label that an instruction names is defined.  So the only instructions
that can fail for want of a label are jumps and branches, and only to labels of the data segment.

* **`Image.WellFormed`** — what holds of every assembled program.
* **`State.Sound`** — the invariant of the assembler; `sound_of_step` and `sound_of_steps`.
* **`of_decode`** — what a decoded instruction holds.
* **`Fault.Admissible`**, **`admissible_execute`** — the faults of the instructions of such programs.
* **`assembled_never_malformed`** — the whole statement.
-/

namespace MiniJava

/-- A program that the machine can make sense of. -/
structure Image.WellFormed (p : Image) : Prop where
  known : ∀ i ∈ p.text, i.op ∈ Opcode.names.map (·.2)
  registers : ∀ i ∈ p.text, ∀ n, (i.regAt n).val < 32
  defined : ∀ i ∈ p.text, i.label = [] ∨ (p.address? i.label).isSome
  /-- An instruction that takes a label has one. -/
  target : ∀ i ∈ p.text, .label ∈ i.op.operands → i.label ≠ []
  /-- No label is defined twice, be it in one segment or in both. -/
  nodup : (p.dataLabels.map (·.1) ++ p.textLabels.map (·.1)).Nodup
  inside : ∀ entry ∈ p.textLabels, 0 ≤ entry.2 ∧ entry.2 ≤ p.text.size

/-! ### The assembler's invariant -/

namespace Assembler

/-- The labels so far are different, and those in the code lie within it. -/
structure State.Sound (s : State) : Prop where
  nodup : s.names.Nodup
  inside : ∀ entry ∈ s.textLabels, 0 ≤ entry.2 ∧ entry.2 ≤ s.code.size

theorem State.Sound.labelled {s : State} (hs : s.Sound) {labels : List Bytes}
    (hnodup : labels.Nodup) (hnew : ∀ l ∈ labels, l ∉ s.names) : (s.labelled labels).Sound := by
  have hreverse : labels.reverse.Nodup := List.nodup_reverse.mpr hnodup
  have hall := hs.nodup
  have hdata : ∀ l ∈ labels, l ∉ s.dataLabels.map (·.1) :=
    fun l hl hmem => hnew l hl (List.mem_append_left _ hmem)
  have htext : ∀ l ∈ labels, l ∉ s.textLabels.map (·.1) :=
    fun l hl hmem => hnew l hl (List.mem_append_right _ hmem)
  unfold State.names at hall
  constructor
  · unfold State.names State.labelled
    split
    · simp only [List.map_append, List.map_reverse, List.map_map, Function.comp_def, List.map_id',
        List.append_assoc]
      rw [List.nodup_append']
      refine ⟨hreverse, hall, ?_⟩
      intro l hl hmem
      exact hnew l (List.mem_reverse.mp hl) hmem
    · simp only [List.map_append, List.map_reverse, List.map_map, Function.comp_def, List.map_id']
      rw [List.nodup_append'] at hall ⊢
      refine ⟨hall.1, List.nodup_append'.mpr ⟨hreverse, hall.2.1, ?_⟩, ?_⟩
      · intro l hl hmem
        exact htext l (List.mem_reverse.mp hl) hmem
      · intro l hl hmem
        rcases List.mem_append.mp hmem with hmem | hmem
        · exact hdata l (List.mem_reverse.mp hmem) hl
        · exact hall.2.2 hl hmem
  · intro entry hentry
    rw [State.code_labelled]
    unfold State.labelled at hentry
    split at hentry
    · exact hs.inside entry hentry
    · rcases List.mem_append.mp hentry with hmem | hmem
      · rw [List.mem_reverse, List.mem_map] at hmem
        obtain ⟨l, -, rfl⟩ := hmem
        exact ⟨Int.natCast_nonneg _, Int.le_refl _⟩
      · exact hs.inside entry hmem

theorem Effect.sound {s s' : State} {labels : List Bytes} {number : Nat} {line : Bytes}
    (h : Effect s labels number line s') (hs : s.Sound) : s'.Sound := by
  cases h with
  | nothing _ => exact hs
  | segment _ => exact ⟨hs.nodup, hs.inside⟩
  | ignored _ => exact hs
  | string _ _ => exact ⟨hs.nodup, hs.inside⟩
  | words _ _ =>
    constructor
    · show (s.align labels).names.Nodup
      rw [State.names_align]
      exact hs.nodup
    · exact hs.inside
  | instruction _ _ =>
    constructor
    · exact hs.nodup
    · intro entry hentry
      have hold := hs.inside entry hentry
      rw [Array.size_push]
      omega

theorem sound_of_step {s s' : State} {number : Nat} {line : Bytes} (hs : s.Sound)
    (h : step s number line = .ok s') : s'.Sound := by
  have heffect := effect_of_step h
  exact heffect.2.2.sound (hs.labelled heffect.1 heffect.2.1)

theorem sound_of_steps {s s' : State} {number : Nat} {lines : List Bytes} (hs : s.Sound)
    (h : steps s number lines = .ok s') : s'.Sound :=
  steps_preserve (fun _ _ _ _ hs h => sound_of_step hs h) hs h

theorem sound_empty : State.empty.Sound := ⟨List.nodup_nil, by simp [State.empty]⟩

/-! ### Decoded instructions -/

theorem setReg_op (i : Instr) (n : Nat) (r : Reg) : (setReg i n r).op = i.op := by
  match n with
  | 0 => rfl
  | 1 => rfl
  | n + 2 => rfl

theorem setReg_label (i : Instr) (n : Nat) (r : Reg) : (setReg i n r).label = i.label := by
  match n with
  | 0 => rfl
  | 1 => rfl
  | n + 2 => rfl

/-- An operand in memory is a base register and an offset, and nothing else. -/
theorem of_memory {i j : Instr} {s : Bytes} (h : memory i s = .ok j) :
    ∃ r n, j = { i with rs := r, imm := n } := by
  unfold memory at h
  split at h
  · cases h
  split at h
  · cases h
  rename_i offset base _ _
  simp only [bind, Except.bind, pure, Except.pure, throw, throwThe, MonadExceptOf.throw] at h
  split at h
  · split at h
    · rename_i r _
      exact ⟨r, i.imm, (Except.ok.inj h).symm⟩
    · cases h
  · split at h
    · split at h
      · rename_i n _ _ r _
        exact ⟨r, n, (Except.ok.inj h).symm⟩
      · cases h
    · cases h

/-- Operands change the opcode in nothing, and the label only where a label is an operand. -/
theorem of_operands {ks : List OperandKind} {ss : List Bytes} (hlength : ss.length = ks.length)
    {i j : Instr} {n : Nat} (h : operands i n ks ss = .ok j) :
    j.op = i.op ∧ (.label ∈ ks → isLabel j.label) ∧ (.label ∉ ks → j.label = i.label) := by
  induction ks generalizing i n ss with
  | nil =>
    obtain rfl := Except.ok.inj h
    exact ⟨rfl, nofun, fun _ => rfl⟩
  | cons k ks ih =>
    obtain ⟨s, ss, rfl⟩ := List.exists_cons_of_length_eq_add_one hlength
    have hshort : ss.length = ks.length := Nat.succ.inj hlength
    cases k with
    | reg =>
      rw [operands] at h
      split at h
      · have hrest := ih hshort h
        rw [setReg_op, setReg_label] at hrest
        simpa using hrest
      · cases h
    | regOrImm =>
      rw [operands] at h
      split at h
      · have hrest := ih hshort h
        rw [setReg_op, setReg_label] at hrest
        simpa using hrest
      · split at h
        · simpa using ih hshort h
        · cases h
    | imm =>
      rw [operands] at h
      split at h
      · simpa using ih hshort h
      · cases h
    | mem =>
      rw [operands] at h
      split at h
      · rename_i i' hmemory
        obtain ⟨r, n', rfl⟩ := of_memory hmemory
        simpa using ih hshort h
      · cases h
    | label =>
      rw [operands] at h
      split at h
      · rename_i hlabel
        have hrest := ih hshort h
        refine ⟨hrest.1, fun _ => ?_, fun hnot => absurd List.mem_cons_self hnot⟩
        by_cases hmore : OperandKind.label ∈ ks
        · exact hrest.2.1 hmore
        · rw [hrest.2.2 hmore]
          exact hlabel
      · cases h

/-- A decoded instruction has a known opcode, and a label if it takes one. -/
theorem of_decode {name : Bytes} {args : List Bytes} {i : Instr} (h : decode name args = .ok i) :
    i.op ∈ Opcode.names.map (·.2) ∧ (.label ∈ i.op.operands → isLabel i.label) := by
  unfold decode at h
  split at h
  · cases h
  rename_i op hop
  split at h
  · rename_i hcount
    have hrest := of_operands hcount h
    rw [hrest.1]
    constructor
    · unfold Opcode.named? at hop
      obtain ⟨entry, hentry, rfl⟩ := Option.map_eq_some_iff.mp hop
      exact List.mem_map_of_mem (List.mem_of_find?_eq_some hentry)
    · exact hrest.2.1
  · cases h

theorem of_finishInstr {s : State} {pending : Pending} {i : Instr}
    (h : finishInstr s pending = .ok i) :
    i.op ∈ Opcode.names.map (·.2) ∧ (.label ∈ i.op.operands → isLabel i.label) ∧
      (i.label = [] ∨ i.label ∈ s.names) := by
  unfold finishInstr at h
  split at h
  · cases h
  rename_i j hdecode
  split at h
  · rename_i hlabel
    obtain rfl := Except.ok.inj h
    have hdecoded := of_decode hdecode
    refine ⟨hdecoded.1, hdecoded.2, ?_⟩
    rw [Bool.or_eq_true, List.isEmpty_iff, State.defines_iff] at hlabel
    exact hlabel
  · cases h

/-- There are as many instructions as were kept to be decoded. -/
theorem of_finishCode {s : State} {ps : List Pending} {code : List Instr}
    (h : finishCode s ps = .ok code) :
    code.length = ps.length ∧ ∀ i ∈ code, ∃ pending, finishInstr s pending = .ok i := by
  induction ps generalizing code with
  | nil =>
    obtain rfl := Except.ok.inj h
    exact ⟨rfl, nofun⟩
  | cons pending ps ih =>
    rw [finishCode] at h
    cases hfirst : finishInstr s pending with
    | error e =>
      rw [hfirst] at h
      cases h
    | ok i =>
      cases hrest : finishCode s ps with
      | error e =>
        rw [hfirst, hrest] at h
        cases h
      | ok is =>
        rw [hfirst, hrest] at h
        obtain rfl : i :: is = code := Except.ok.inj h
        have hothers := ih hrest
        rw [List.length_cons, List.length_cons, hothers.1, List.forall_mem_cons]
        exact ⟨rfl, ⟨pending, hfirst⟩, hothers.2⟩

end Assembler

theorem isSome_address?_iff {p : Image} {label : Bytes} :
    (p.address? label).isSome ↔
      (p.dataLabels.lookup label).isSome ∨ (p.textLabels.lookup label).isSome := by
  unfold Image.address?
  cases p.dataLabels.lookup label <;> simp

/-- Whatever assembles is well-formed. -/
theorem wellFormed_of_assemble {source : Bytes} {p : Image} (h : assemble source = .ok p) :
    p.WellFormed := by
  obtain ⟨lines, s, -, hsteps, hfinish⟩ := assemble_eq_ok h
  have hsound := Assembler.sound_of_steps Assembler.sound_empty hsteps
  obtain ⟨code, hcode, rfl⟩ := Assembler.finish_eq_ok hfinish
  have hdecoded := Assembler.of_finishCode hcode
  have hinstr : ∀ i ∈ code.toArray, ∃ pending, Assembler.finishInstr s pending = .ok i :=
    fun i hi => hdecoded.2 i (List.mem_toArray.mp hi)
  constructor
  case known =>
    intro i hi
    obtain ⟨pending, hpending⟩ := hinstr i hi
    exact (Assembler.of_finishInstr hpending).1
  case registers => exact fun i _ n => (i.regAt n).isLt
  case defined =>
    intro i hi
    obtain ⟨pending, hpending⟩ := hinstr i hi
    apply (Assembler.of_finishInstr hpending).2.2.imp id
    intro hlabel
    rw [isSome_address?_iff]
    rw [← Assembler.State.defines_iff, Assembler.State.defines, Bool.or_eq_true] at hlabel
    exact hlabel
  case target =>
    intro i hi htakes
    obtain ⟨pending, hpending⟩ := hinstr i hi
    exact ne_nil_of_isLabel ((Assembler.of_finishInstr hpending).2.1 htakes)
  case nodup => exact hsound.nodup
  case inside =>
    intro entry hentry
    show 0 ≤ entry.2 ∧ entry.2 ≤ code.toArray.size
    rw [List.size_toArray, hdecoded.1, Array.length_toList]
    exact hsound.inside entry hentry

namespace Machine

variable {p : Image} {cfg : Config}

/-! ### Faults of instructions -/

/-- The fault of an instruction is none that a well-formed program rules out: it is not about the
instruction itself, and if it is about a label then the instruction jumps to data. -/
def Fault.Admissible (p : Image) (i : Instr) (f : Fault) : Prop :=
  f.kind ≠ .malformed ∧
    (f.kind = .unknownLabel → f = .unknownLabel i.op i.label ∧ i.op ∈ Opcode.jumps ∧
      (p.dataLabels.lookup i.label).isSome)

/-- If the outcome is a fault, then it is an admissible one. -/
def Outcome.Admissible (p : Image) (i : Instr) (o : Outcome) : Prop :=
  ∀ f s, o = .fault f s → f.Admissible p i

section Instructions

variable {i : Instr} (s : State)

theorem admissible_done (s' : State) : (Outcome.done s').Admissible p i := by
  intro f s'' h
  cases h

theorem admissible_fault (k : FaultKind) {f : Fault} (hf : f.kind = k)
    (hk : k ≠ .malformed ∧ k ≠ .unknownLabel) : (Outcome.fault f s).Admissible p i := by
  intro f' s' h
  obtain ⟨rfl, -⟩ := Outcome.fault.inj h
  rw [Fault.Admissible, hf]
  exact ⟨hk.1, fun h => absurd h hk.2⟩

theorem admissible_access (f : AccessFault) : (Outcome.fault (.access f) s).Admissible p i := by
  cases f with
  | badAddress a => exact admissible_fault s .badAddress rfl (by decide)
  | unaligned a => exact admissible_fault s .unaligned rfl (by decide)

theorem admissible_setChecked (n : Int) : (s.setChecked i n).Admissible p i := by
  unfold State.setChecked
  split
  · exact admissible_done _
  · exact admissible_fault s .overflow rfl (by decide)

/-- A jump whose label is defined fails only if the label is one of data. -/
theorem admissible_unknownLabel (hop : i.op ∈ Opcode.jumps) (hsome : (p.address? i.label).isSome)
    (hnone : p.textLabels.lookup i.label = none) :
    (Outcome.fault (.unknownLabel i.op i.label) s).Admissible p i := by
  intro f s' h
  obtain ⟨rfl, -⟩ := Outcome.fault.inj h
  have hkind : (Fault.unknownLabel i.op i.label).kind = .unknownLabel := rfl
  refine ⟨by rw [hkind]; decide, fun _ => ⟨rfl, hop, ?_⟩⟩
  rw [isSome_address?_iff, hnone] at hsome
  simpa using hsome

theorem admissible_jumpTo (hop : i.op ∈ Opcode.jumps) (hsome : (p.address? i.label).isSome) :
    (jumpTo p s i).Admissible p i := by
  unfold jumpTo
  split
  · exact admissible_done _
  · rename_i hnone
    exact admissible_unknownLabel s hop hsome hnone

theorem admissible_branchIf (hop : i.op ∈ Opcode.jumps) (hsome : (p.address? i.label).isSome)
    (taken : Bool) : (branchIf p s i taken).Admissible p i := by
  unfold branchIf
  split
  · exact admissible_jumpTo s hop hsome
  · exact admissible_done _

theorem admissible_print (text : Bytes) {refused : Fault} (hrefused : refused.kind = .outside) :
    (print s text refused).Admissible p i := by
  unfold print
  split
  · exact admissible_done _
  · exact admissible_fault s .outside hrefused (by decide)

theorem admissible_sbrk (n : Int) : (sbrk cfg s n).Admissible p i := by
  unfold sbrk
  split
  · exact admissible_fault s .heapExhausted rfl (by decide)
  · simp only
    split
    · exact admissible_fault s .heapExhausted rfl (by decide)
    · exact admissible_done _

theorem admissible_syscall : (syscall cfg s).Admissible p i := by
  unfold syscall
  simp only
  split
  · exact admissible_print s _ rfl
  split
  · split
    · exact admissible_print s _ rfl
    · exact admissible_access s _
  split
  · exact admissible_sbrk s _
  split
  · exact admissible_done _
  · exact admissible_fault s .badSyscall rfl (by decide)

/-- The instructions of a well-formed program have no faults but admissible ones. -/
theorem admissible_execute (hp : p.WellFormed) (hi : i ∈ p.text) :
    (execute p cfg i s).Admissible p i := by
  have hknown := hp.known i hi
  have hsome : .label ∈ i.op.operands → (p.address? i.label).isSome :=
    fun htakes => (hp.defined i hi).resolve_left (hp.target i hi htakes)
  obtain ⟨op, rd, rs, rt, imm, useImm, label, line⟩ := i
  cases op
  case li | move | addu | addiu | subu | and | or | nor | slt | sll | mult | mflo =>
    exact admissible_done _
  case add | addi | sub => exact admissible_setChecked s _
  case beq | bne | bgeu | bge | bgt | blt | bltz =>
    exact admissible_branchIf s (by simp [Opcode.jumps]) (hsome (by simp [Opcode.operands])) _
  case j => exact admissible_jumpTo s (by simp [Opcode.jumps]) (hsome (by simp [Opcode.operands]))
  case syscall => exact admissible_syscall s
  case other name =>
    -- such a word is never decoded
    exact absurd hknown (by simp [Opcode.names])
  case la =>
    simp only [execute]
    split
    · exact admissible_done _
    · rename_i hnone
      have hlabel := hsome (by simp [Opcode.operands])
      rw [hnone] at hlabel
      cases hlabel
  case lw | sw =>
    simp only [execute]
    split
    · exact admissible_done _
    · exact admissible_access s _
  case jal =>
    simp only [execute]
    split
    · exact admissible_done _
    · rename_i hnone
      have hlabel := hsome (by simp [Opcode.operands])
      exact admissible_unknownLabel s (by simp [Opcode.jumps]) hlabel hnone
  case jr =>
    simp only [execute]
    split
    · exact admissible_fault s .pcOutOfRange rfl (by decide)
    · exact admissible_done _

end Instructions

/-- The instruction that is fetched is one of the program. -/
theorem mem_text_of_fetch? {pc : Int} {i : Instr} (h : fetch? p pc = some i) : i ∈ p.text := by
  unfold fetch? at h
  split at h
  · cases h
  · exact Array.mem_of_getElem? h

/-- A program that was assembled is well-formed.  No run of it fails because of an instruction that
there is not, and one that fails for want of a label fails at a branch or a jump to a label of the
data segment. -/
theorem assembled_never_malformed {source : Bytes} {p : Image} (h : assemble source = .ok p) :
    p.WellFormed ∧
    ∀ cfg cancelled n s e s', runWithin p cfg cancelled n s = (.failed e, s') →
      e.kind ≠ .malformed ∧
      (e.kind = .unknownLabel → ∃ i ∈ p.text, fetch? p s'.pc = some i ∧ i.op ∈ Opcode.jumps ∧
        (p.dataLabels.lookup i.label).isSome ∧
        e = .atLine i.line i.op (.unknownLabel i.op i.label)) := by
  have hp := wellFormed_of_assemble h
  refine ⟨hp, ?_⟩
  intro cfg cancelled n s e s' hrun
  obtain ⟨_, s₁, _, _, hfailure⟩ := exists_failure hrun
  cases hfailure with
  | @instruction i f hfetch hstep =>
    have hi := mem_text_of_fetch? hfetch
    have hexecute : execute p cfg i { s₁ with steps := s₁.steps + 1 } =
        .fault f { s₁ with steps := s₁.steps + 1 } := by
      rw [← hstep, step, hfetch]
    have hadmissible := admissible_execute _ hp hi f _ hexecute
    refine ⟨hadmissible.1, ?_⟩
    intro hkind
    obtain ⟨rfl, hop, hdata⟩ := hadmissible.2 hkind
    exact ⟨i, hi, hfetch, hop, hdata, rfl⟩
  | @nowhere f hfetch hstep =>
    rw [step, hfetch] at hstep
    obtain ⟨rfl, -⟩ := Outcome.fault.inj hstep
    simp [RunError.kind, Fault.kind]
  | stepLimit _ _ => simp [RunError.kind]
  | cancelled => simp [RunError.kind]

theorem assembled_never_malformed_calling_data :
    ∃ p s', assemble callingData = .ok p ∧ p.WellFormed ∧
      runWithin p .tight false 4 (State.start p .tight none) =
        (.failed (.atLine 7 .jal (.unknownLabel .jal "x")), s') ∧
      ∃ i ∈ p.text, fetch? p s'.pc = some i ∧ i.op ∈ Opcode.jumps ∧
        (p.dataLabels.lookup i.label).isSome := by
  have hfails : (assemble callingData).toOption.any fun p =>
      (runWithin p .tight false 4 (State.start p .tight none)).1 =
        .failed (.atLine 7 .jal (.unknownLabel .jal "x")) := by
    decide +kernel
  cases hasm : assemble callingData with
  | error e =>
    rw [hasm] at hfails
    cases hfails
  | ok p =>
    rw [hasm] at hfails
    have hformed := assembled_never_malformed hasm
    rcases hrun : runWithin p .tight false 4 (State.start p .tight none) with ⟨status, s'⟩
    simp only [Except.toOption, Option.any_some, hrun, decide_eq_true_eq] at hfails
    subst hfails
    obtain ⟨i, hi, hfetch, hop, hdata, -⟩ := (hformed.2 _ _ _ _ _ _ hrun).2 rfl
    exact ⟨p, s', rfl, hformed.1, hrun, i, hi, hfetch, hop, hdata⟩

end Machine

end MiniJava
