import MiniJava.Proofs.Compile.Accepted
import MiniJava.Proofs.Machine.Allocation

/-!
# Making objects

The code of `new` allocates a block, writes the header of an object into it and fills the fields
with zeros, whatever fresh memory holds.

* **`Layout.header`** — the words in front of the fields.
* **`Filling`** — what holds at the top of the loop that fills the fields.
* **`Filling.round`**, **`Filling.run`** — one round of the loop, and all of them.
* **`new_object_initialises`** — the statement for whole objects.
-/

namespace MiniJava

open Machine Instr Reg Simulation

/-- The words in front of the fields of an object: its tag, its size and a zero. -/
def Layout.header (l : Layout) : List UInt32 := [UInt32.ofNat l.tag, UInt32.ofNat l.bytes, 0]

/-- At the top of the loop: the fields below `i` of the object after the memory `m₀` are zero.  The
code that makes the object starts with instruction `k`, and `s₀` is where it was begun. -/
structure Filling (s₀ : State) (l : Layout) (k i : Nat) (s : State) : Prop where
  next : s.pc = (k + 12 : Nat)
  running : s.exited = false
  zero : s.reg Reg.zero = 0
  object : s.reg a0 = s₀.memory.heapEnd
  cursor : s.reg t1 = s₀.memory.blockAddress (3 + i)
  count : s.reg t0 = UInt32.ofInt i
  bound : s.reg t2 = UInt32.ofInt l.fields
  block : s₀.memory.Extends (3 + l.fields) (l.header ++ List.replicate i 0) s.memory
  stack : s.reg sp = s₀.reg sp
  frame : s.reg fp = s₀.reg fp

section Loop

variable {p : Image} (cfg : Config) {k : Nat} {l : Layout} {top done : Bytes} {s₀ s : State}
  (hlaid : Laid p k (Gen.makeObject l top done))

include hlaid

/-- The object is allocated. -/
theorem object_allocated (hpc : s₀.pc = k) (hrunning : s₀.exited = false)
    (hsmall : s₀.memory.heap.size + l.bytes ≤ 0x6fff0000)
    (hroom : (s₀.memory.heap.size + l.bytes : Int) ≤ cfg.heapBytes) :
    ∃ s, Steps p cfg 4 s₀ s ∧ s.pc = (k + 4 : Nat) ∧ s.exited = false ∧
      s.reg a0 = s₀.memory.heapEnd ∧ s₀.memory.Extends (3 + l.fields) [] s.memory ∧
      ∀ r, r ≠ a0 → r ≠ v0 → s.reg r = s₀.reg r := by
  obtain ⟨h₀, h₁, h₂, h₃, -⟩ := hlaid
  have hbytes : l.bytes = 4 * (3 + l.fields) := rfl
  rw [hbytes] at hsmall hroom
  let asked := (s₀.put a0 (UInt32.ofInt l.bytes)).put v0 (UInt32.ofInt 9)
  have hcall : asked.reg v0 = 9 := State.reg_put_self _ _ _ (by decide)
  have hargument : signed (asked.reg a0) = 4 * (3 + l.fields : Nat) := by
    simp (disch := decide) only [asked, State.reg_put_ne, State.reg_put_self]
    rw [signed_ofInt (by omega) (by omega), hbytes]
    rfl
  have hmemory : asked.memory = s₀.memory := by simp only [asked, State.memory_put]
  have hnext : asked.pc = (k + 1 + 1 : Nat) := by
    simp only [asked, State.pc_put, hpc]
    rfl
  have hgrow : step p cfg asked = _ := step_grow h₂ hnext hcall hargument (by rw [hmemory]; omega)
  refine ⟨(asked.grown cfg (4 * (3 + l.fields))).put a0 asked.memory.heapEnd,
    ?_, ?_, ?_, ?_, ?_, ?_⟩
  · refine .head hrunning (step_li h₀ hpc) (.head (by simpa) (step_li h₁ ?_) ?_)
    · simp only [State.pc_put, hpc]
      rfl
    refine .head (by simpa [asked]) hgrow (.head (by simpa [asked]) ?_ (.refl _))
    rw [step_move h₃ (by simp only [State.pc_grown, hnext]; rfl), State.reg_grown_v0]
  · simp only [State.pc_put, State.pc_grown, hnext]
    rfl
  · simpa [asked] using hrunning
  · rw [State.reg_put_self _ _ _ (by decide), hmemory]
  · rw [State.memory_put, State.memory_grown, hmemory]
    exact Memory.extends_grow _ _ _
  · intro r ha hv
    rw [State.reg_put_ne _ _ _ _ ha, State.reg_grown_ne _ hv, State.reg_put_ne _ _ _ _ hv,
      State.reg_put_ne _ _ _ _ ha]

/-- The header of the object is written. -/
theorem header_written (hpc : s.pc = (k + 4 : Nat)) (hrunning : s.exited = false)
    (hzero : s.reg Reg.zero = 0) (hobject : s.reg a0 = s₀.memory.heapEnd)
    (hblock : s₀.memory.Extends (3 + l.fields) [] s.memory)
    (hwhole : s₀.memory.heap.size % 4 = 0)
    (hsmall : s₀.memory.heap.size + 4 * (3 + l.fields) ≤ 0x6fff0000)
    (hsp : s.reg sp = s₀.reg sp) (hfp : s.reg fp = s₀.reg fp) :
    ∃ s', Steps p cfg 8 s s' ∧ Filling s₀ l k 0 s' := by
  obtain ⟨-, -, -, -, h₄, h₅, h₆, h₇, h₈, h₉, h₁₀, h₁₁, -⟩ := hlaid
  have hbase : s.reg a0 = s₀.memory.blockAddress 0 := by
    rw [hobject, Memory.blockAddress_zero]
  have hword (j : Nat) : s.reg a0 + UInt32.ofInt (4 * j : Nat) = s₀.memory.blockAddress j := by
    rw [hbase]
    exact Memory.blockAddress_add _ (by omega)
  have hroom (j : Nat) (hj : j < 3) : j < 3 + l.fields := Nat.lt_add_right _ hj
  -- the tag
  let s₁ := s.put t1 (UInt32.ofInt l.tag)
  have hpc₁ : s₁.pc = (k + 5 : Nat) := by
    simp only [s₁, State.pc_put, hpc]
    rfl
  obtain ⟨m₂, e₂, hblock₂⟩ := step_push cfg (s := s₁)
    (by simpa [s₁] using hblock) hwhole hsmall (by exact hroom 0 (by decide)) h₅ hpc₁
    (by simpa (disch := decide) [s₁, State.reg_put_ne] using hword 0)
  -- the size
  let s₃ := (s₁.write m₂).put t1 (UInt32.ofInt l.bytes)
  have hpc₃ : s₃.pc = (k + 7 : Nat) := by
    simp only [s₃, State.pc_put, State.pc_write, hpc₁]
    rfl
  obtain ⟨m₄, e₄, hblock₄⟩ := step_push cfg (s := s₃)
    (by simpa [s₃] using hblock₂) hwhole hsmall (by exact hroom 1 (by decide)) h₇ hpc₃
    (by simpa (disch := decide) [s₃, s₁, State.reg_put_ne] using hword 1)
  -- the zero
  have hpc₄ : (s₃.write m₄).pc = (k + 8 : Nat) := by
    simp only [State.pc_write, hpc₃]
    rfl
  obtain ⟨m₅, e₅, hblock₅⟩ := step_push cfg (s := s₃.write m₄)
    (by simpa using hblock₄) hwhole hsmall (by exact hroom 2 (by decide)) h₈ hpc₄
    (by simpa (disch := decide) [s₃, s₁, State.reg_put_ne] using hword 2)
  let s₅ := (s₃.write m₄).write m₅
  have hpc₅ : s₅.pc = (k + 9 : Nat) := by
    simp only [s₅, State.pc_write, hpc₃]
    rfl
  have hsame : s₅.reg a0 = s.reg a0 := by
    simp (disch := decide) only [s₅, s₃, s₁, State.reg_write, State.reg_put_ne]
  refine ⟨((s₅.put t1 (s₅.reg a0 + UInt32.ofInt (4 * headerWords))).put t0 (UInt32.ofInt 0)).put t2
    (UInt32.ofInt l.fields), ?_, ?_⟩
  · refine .head hrunning (step_li h₄ hpc) (.head (by simpa [s₁]) e₂ ?_)
    refine .head (by simpa [s₁]) (step_li h₆ (by simp only [State.pc_write, hpc₁]; rfl)) ?_
    refine .head (by simpa [s₁]) e₄ (.head (by simpa [s₃, s₁]) e₅ ?_)
    refine .head (by simpa [s₃, s₁]) (step_addiu h₉ hpc₅) ?_
    refine .head (by simpa [s₅, s₃, s₁]) (step_li h₁₀ (congrArg (· + 1) hpc₅)) ?_
    refine .head (by simpa [s₅, s₃, s₁]) (step_li h₁₁ (congrArg (· + 1 + 1) hpc₅)) ?_
    exact .refl _
  · refine ⟨?_, ?_, ?_, ?_, ?_, ?_, ?_, ?_, ?_, ?_⟩
    · simp only [State.pc_put, hpc₅]
      rfl
    · simpa [s₅, s₃, s₁] using hrunning
    · simpa (disch := decide) only [s₅, s₃, s₁, State.reg_write, State.reg_put_ne] using hzero
    · simpa (disch := decide) only [s₅, s₃, s₁, State.reg_write, State.reg_put_ne] using hobject
    · simp (disch := decide) only [State.reg_put_ne, State.reg_put_self, hsame]
      exact hword 3
    · simp (disch := decide) only [State.reg_put_ne, State.reg_put_self]
      rfl
    · simp (disch := decide) only [State.reg_put_self]
    · have hheader : [s₁.reg t1, s₃.reg t1] ++ [(s₃.write m₄).reg Reg.zero] =
          l.header ++ List.replicate 0 0 := by
        simp (disch := decide) only [s₃, s₁, State.reg_write, State.reg_put_ne,
          State.reg_put_self, hzero]
        simp [Layout.header, ofNat_eq_ofInt]
      rw [hheader] at hblock₅
      simpa [s₅] using hblock₅
    · simpa (disch := decide) only [s₅, s₃, s₁, State.reg_write, State.reg_put_ne] using hsp
    · simpa (disch := decide) only [s₅, s₃, s₁, State.reg_write, State.reg_put_ne] using hfp

/-- One round of the loop fills one field. -/
theorem Filling.round {i : Nat} (h : Filling s₀ l k i s) (hi : i < l.fields)
    (hwhole : s₀.memory.heap.size % 4 = 0)
    (hsmall : s₀.memory.heap.size + 4 * (3 + l.fields) ≤ 0x6fff0000) :
    ∃ s', Steps p cfg 5 s s' ∧ Filling s₀ l k (i + 1) s' := by
  obtain ⟨-, -, -, -, -, -, -, -, -, -, -, -, htop, h₁₂, h₁₃, h₁₄, h₁₅, h₁₆, -⟩ := hlaid
  have hwithin : s.taken (branch .bge t0 t2 done) = some false := by
    show some (decide (signed (s.reg t2) ≤ signed (s.reg t0))) = _
    rw [h.count, h.bound, signed_ofInt (by omega) (by omega), signed_ofInt (by omega) (by omega)]
    simp only [Option.some.injEq, decide_eq_false_iff_not]
    omega
  let s₁ := s.jumped (s.pc + 1)
  have hpc₁ : s₁.pc = (k + 13 : Nat) := by
    simp only [s₁, State.pc_jumped, h.next]
    rfl
  have hwords : (l.header ++ List.replicate i 0).length = 3 + i := by
    simp only [Layout.header, List.length_append, List.length_replicate, List.length_cons,
      List.length_nil]
  obtain ⟨m, e₂, hblock⟩ := step_push cfg (s := s₁) h.block hwhole hsmall (by omega) h₁₃
    hpc₁ (by rw [hwords]; exact (UInt32.add_zero _).trans h.cursor)
  let s₂ := s₁.write m
  have hpc₂ : s₂.pc = (k + 14 : Nat) := congrArg (· + 1) hpc₁
  have hsame : ∀ r, s₂.reg r = s.reg r := fun _ => rfl
  refine ⟨((s₂.put t1 (s₂.reg t1 + UInt32.ofInt 4)).put t0 (s.reg t0 + UInt32.ofInt 1)).jumped
    (k + 12 : Nat), ?_, ?_⟩
  · refine .head h.running (step_onward h₁₂ h.next hwithin) (.head h.running e₂ ?_)
    refine .head h.running (step_addiu h₁₄ hpc₂) ?_
    have e₄ : step p cfg (s₂.put t1 (s₂.reg t1 + UInt32.ofInt 4)) = _ :=
      step_addiu h₁₅ (congrArg (· + 1) hpc₂)
    rw [State.reg_put_ne _ _ _ _ (by decide)] at e₄
    refine .head (by simpa [s₂, s₁] using h.running) e₄ ?_
    refine .head (by simpa [s₂, s₁] using h.running) ?_ (.refl _)
    exact step_taken h₁₆ (congrArg (· + 1 + 1) hpc₂) rfl htop
  · refine ⟨rfl, by simpa [s₂, s₁] using h.running, ?_, ?_, ?_, ?_, ?_, ?_, ?_, ?_⟩
    · simpa (disch := decide) only [State.reg_jumped, State.reg_put_ne, hsame] using h.zero
    · simpa (disch := decide) only [State.reg_jumped, State.reg_put_ne, hsame] using h.object
    · simp (disch := decide) only [State.reg_jumped, State.reg_put_ne, State.reg_put_self, hsame]
      rw [h.cursor]
      exact Memory.blockAddress_add _ (by omega)
    · simp (disch := decide) only [State.reg_jumped, State.reg_put_self]
      rw [h.count, ← UInt32.ofInt_add]
      rfl
    · simpa (disch := decide) only [State.reg_jumped, State.reg_put_ne, hsame] using h.bound
    · have hzero : s₁.reg Reg.zero = 0 := h.zero
      rw [hzero, List.append_assoc, ← List.replicate_succ'] at hblock
      simpa [s₂] using hblock
    · simpa (disch := decide) only [State.reg_jumped, State.reg_put_ne, hsame] using h.stack
    · simpa (disch := decide) only [State.reg_jumped, State.reg_put_ne, hsame] using h.frame

/-- The loop fills the fields that are left. -/
theorem Filling.run {d i : Nat} (h : Filling s₀ l k i s) (hd : i + d = l.fields)
    (hwhole : s₀.memory.heap.size % 4 = 0)
    (hsmall : s₀.memory.heap.size + 4 * (3 + l.fields) ≤ 0x6fff0000) :
    ∃ n s', Steps p cfg n s s' ∧ Filling s₀ l k l.fields s' := by
  induction d generalizing i s with
  | zero =>
    obtain rfl : i = l.fields := hd
    exact ⟨0, s, .refl s, h⟩
  | succ d ih =>
    obtain ⟨s₁, hround, h₁⟩ := h.round cfg hlaid (by omega) hwhole hsmall
    obtain ⟨n, s₂, hrest, h₂⟩ := ih h₁ (by omega)
    exact ⟨n + 5, s₂, hround.trans hrest, h₂⟩

/-- The loop ends when no field is left. -/
theorem Filling.leave (h : Filling s₀ l k l.fields s) :
    Steps p cfg 1 s (s.jumped (k + 17 : Nat)) := by
  obtain ⟨-, -, -, -, -, -, -, -, -, -, -, -, -, h₁₂, -, -, -, -, hdone, -⟩ := hlaid
  have hbeyond : s.taken (branch .bge t0 t2 done) = some true := by
    show some (decide (signed (s.reg t2) ≤ signed (s.reg t0))) = _
    rw [h.count, h.bound]
    simp
  exact .head h.running (step_taken h₁₂ h.next hbeyond hdone) (.refl _)

end Loop

/-- Making an object, from the first instruction of its code to the end of it. -/
theorem object_made {p : Image} (cfg : Config) {k : Nat} {l : Layout} {top done : Bytes} {s : State}
    (hlaid : Laid p k (Gen.makeObject l top done)) (hkept : Kept p cfg s) (hpc : s.pc = k)
    (hrunning : s.exited = false) (hsmall : s.memory.heap.size + l.bytes ≤ 0x6fff0000)
    (hroom : (s.memory.heap.size + l.bytes : Int) ≤ cfg.heapBytes) :
    ∃ n s', Steps p cfg n s s' ∧ s'.pc = (k + 17 : Nat) ∧ s'.exited = false ∧
      s'.reg a0 = s.memory.heapEnd ∧
      s.memory.Extends (3 + l.fields) (l.header ++ List.replicate l.fields 0) s'.memory ∧
      s'.reg sp = s.reg sp ∧ s'.reg fp = s.reg fp := by
  obtain ⟨s₁, hsteps₁, hpc₁, hrunning₁, hobject, hblock, hregs⟩ :=
    object_allocated cfg hlaid hpc hrunning hsmall hroom
  have hzero : s₁.reg Reg.zero = 0 := (hregs _ (by decide) (by decide)).trans hkept.zero
  obtain ⟨s₂, hsteps₂, hfilling⟩ := header_written cfg hlaid hpc₁ hrunning₁ hzero hobject
    hblock hkept.heapWhole hsmall (hregs _ (by decide) (by decide))
    (hregs _ (by decide) (by decide))
  obtain ⟨n, s₃, hsteps₃, hfilled⟩ :=
    hfilling.run cfg hlaid (Nat.zero_add _) hkept.heapWhole hsmall
  have hleave := hfilled.leave cfg hlaid
  exact ⟨_, _, (hsteps₁.trans hsteps₂).trans (hsteps₃.trans hleave), rfl, hfilled.running,
    hfilled.object, hfilled.block, hfilled.stack, hfilled.frame⟩

/-- Code of `new` is code that makes an object with the layout of its class. -/
theorem makeObject_of_expression {sc : Scope} {tok : Token} {c : Ident} {g g' : Generator}
    {type : Ty} {code : Code}
    (hcode : Gen.expression sc (.newObject tok c) g = (.ok (type, code), g')) {cls : ClassInfo}
    (hcls : sc.table.find? c.name = some cls) :
    ∃ top done, code = Gen.makeObject (sc.table.layout cls) top done := by
  have hexpr := Gen.exprCode_of_expression _ hcode
  generalize g.nextLabel = n, g'.nextLabel = n' at hexpr
  cases hexpr with
  | newObject hfind _ =>
    rw [hcls] at hfind
    obtain rfl := Option.some.inj hfind
    exact ⟨_, _, rfl⟩

/-- In every state that a program reaches and in which the code of `new` is next and the heap has
room for the object, that code makes the object: it leaves its address, the old end of the heap, in
`$a0`; the heap has grown by just the object, which is its header and zeros; and all else that could
be read, the stack pointer and the frame pointer are as they were. -/
theorem new_object_initialises {source : Bytes} {p : Program} {t : ClassTable} {whole : Code}
    {image : Image} (h : Accepted source p t whole image) {sc : Scope} (hsc : sc.table = t)
    {tok : Token} {c : Ident} {g g' : Generator} {type : Ty} {code front back : Code}
    (hcode : Gen.expression sc (.newObject tok c) g = (.ok (type, code), g'))
    (hwhole : whole = front ++ code ++ back) {cls : ClassInfo} (hcls : t.find? c.name = some cls)
    {cfg : Config} (hmemory : (cfg.stackBytes + cfg.heapBytes : Int) ≤ 0x6fff0000)
    {limit : Option Nat} {k : Nat} {s : State}
    (hreached : Steps image cfg k (State.start image cfg limit) s) (hrunning : s.exited = false)
    (hpc : s.pc = (front.size : Nat))
    (hroom : (s.memory.heap.size + 4 * (3 + t.fieldCount cls) : Int) ≤ cfg.heapBytes) :
    ∃ n s', Steps image cfg n s s' ∧ s'.exited = false ∧
      s'.pc = (front.size + code.size : Nat) ∧ s'.reg a0 = s.memory.heapEnd ∧
      s'.memory.heap.size = s.memory.heap.size + 4 * (3 + t.fieldCount cls) ∧
      (∀ j w, ([UInt32.ofNat cls.tag, UInt32.ofNat (4 * (3 + t.fieldCount cls)), 0] ++
          List.replicate (t.fieldCount cls) 0)[j]? = some w →
        s'.memory.word (s.memory.heapEnd + 4 * UInt32.ofNat j) = .ok w) ∧
      (∀ a w, s.memory.word a = .ok w → s'.memory.word a = .ok w) ∧
      s'.reg sp = s.reg sp ∧ s'.reg fp = s.reg fp := by
  subst hsc
  obtain ⟨top, done, rfl⟩ := makeObject_of_expression hcode hcls
  have hkept := hreached.kept (kept_start limit)
  have hstack := hkept.stackSize
  have hwholeWords := hkept.heapWhole
  have hbytes : (sc.table.layout cls).bytes = 4 * (3 + sc.table.fieldCount cls) := rfl
  obtain ⟨n, s', hsteps, hpc', hrunning', hobject, hblock, hsp, hfp⟩ :=
    object_made cfg (h.laid hwhole) hkept hpc hrunning (by omega) (by omega)
  have hbase : dataBase.toNat = 0x10010000 := rfl
  have hend : stackEnd = 0x80000000 := rfl
  refine ⟨n, s', hsteps, hrunning', hpc', hobject, hblock.size, ?_, ?_, hsp, hfp⟩
  · intro j w hw
    have hj : j < 3 + sc.table.fieldCount cls := by
      have hbound := (List.getElem?_eq_some_iff.mp hw).1
      simp only [List.length_append, List.length_replicate, List.length_cons,
        List.length_nil] at hbound
      omega
    rw [Memory.heapEnd_add]
    exact hblock.word_new hwholeWords (by show _ + 4 * (3 + sc.table.fieldCount cls) ≤ _; omega)
      hj hw
  · intro a w hw
    refine hblock.word_old ?_ hw
    show _ + (_ + 4 * (3 + sc.table.fieldCount cls)) + _ ≤ _
    omega

/-- A program that makes an object with inherited fields. -/
def constructing : Bytes :=
  "class A\x7bpublic static void main(String[] a)\x7bSystem.out.println(new C().m());\x7d\x7d" ++
    "class B\x7bint x;int[] y;\x7dclass C extends B\x7bB x;public int m()\x7breturn 1;\x7d\x7d"

/-- Poisoned memory with room for one object of that program. -/
def Machine.Config.snug : Config := ⟨0, 64, 80, true⟩

theorem new_object_initialises_inheriting :
    ∃ p t whole image s n s', Accepted constructing p t whole image ∧
      Steps image .snug 2 (.start image .snug none) s ∧ Steps image .snug n s s' ∧
      s'.reg a0 = s.memory.heapEnd ∧ s'.memory.heap.size = 80 ∧
      s'.memory.word (s.memory.heapEnd + 4) = .ok 24 ∧
      s'.memory.word (s.memory.heapEnd + 20) = .ok 0 := by
  let made : Expr := .newObject ⟨.newWord, "new", 1, 65⟩ ⟨⟨.ident, "C", 1, 69⟩, "C"⟩
  have hcheck : ∃ r ∈ accept? constructing, ∃ entry ∈ r.2.1.entry,
      ∃ info ∈ entry.ownMethod? ClassTable.mainName, ∃ cls ∈ r.2.1.find? "C",
      ∃ c ∈ (Gen.expression ⟨r.2.1, entry, info, true⟩ made Generator.fresh.reset).1.toOption,
      ∃ s ∈ after r.2.2.2 .snug 2 (.start r.2.2.2 .snug none),
      r.2.2.1 = r.2.2.1.take 10 ++ c.2 ++ r.2.2.1.drop 29 ∧
      s.pc = Code.size (r.2.2.1.take 10) ∧ s.exited = false ∧ s.memory.heap.size = 56 ∧
      r.2.1.fieldCount cls = 3 := by
    decide +kernel
  obtain ⟨⟨p, t, whole, image⟩, haccept, entry, -, info, -, cls, hcls, ⟨type, code⟩, hcode, s, hs,
    hwhole, hpc, hrunning, hheap, hcount⟩ := hcheck
  have haccepted := accepted_of_accept? haccept
  have hsteps := steps_of_after hs
  obtain ⟨n, s', hrun, -, -, hobject, hsize, hwords, -⟩ :=
    new_object_initialises haccepted rfl (Gen.eq_ok_of_mem hcode) hwhole hcls (by decide) hsteps
      hrunning hpc (by rw [hheap, hcount]; decide)
  rw [hheap, hcount] at hsize
  rw [hcount] at hwords
  exact ⟨p, t, whole, image, s, n, s', haccepted, hsteps, hrun, hobject, hsize,
    hwords 1 24 rfl, hwords 5 0 rfl⟩

end MiniJava
