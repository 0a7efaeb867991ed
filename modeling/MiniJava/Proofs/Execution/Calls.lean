import MiniJava.Proofs.Compile.Accepted
import MiniJava.Proofs.Simulation.Values

/-!
# Calls

The caller puts its frame pointer, the receiver and the arguments on the stack; the method finds
them at fixed offsets from its own frame pointer, and takes them off the stack when it returns.

* **`Neutral`**, **`Passed`** — arguments are evaluated and put on the stack one after the other.
* **`Building`**, **`Building.push`**, **`Passed.building`** — what is on the stack meanwhile.
* **`Framed`** — the frame of the method that was called.
* **`calling_convention`** — the caller and the method agree on the frame.
-/

namespace MiniJava

open Machine Instr Reg Code Simulation

/-! ### Words on the stack -/

theorem ofNat_add_ofInt {a b : Nat} {o : Int} (h : a + o = b) :
    UInt32.ofNat a + UInt32.ofInt o = UInt32.ofNat b := by
  rw [ofNat_eq_ofInt, ← UInt32.ofInt_add, h, ← ofNat_eq_ofInt]

theorem toNat_ofNat_of_lt {a : Nat} (h : a < 0x100000000) : (UInt32.ofNat a).toNat = a :=
  UInt32.toNat_ofNat_of_lt' h

namespace Memory

variable {m : Memory} {a b w : UInt32} {place : Place} {low top : Nat} {ws : List UInt32}

/-- Store a word, if there is memory for it. -/
def store (m : Memory) (a w : UInt32) : Memory :=
  match m.wordPlace a with
  | .ok place => m.setWord place w
  | .error _ => m

theorem store_of_place (h : m.wordPlace a = .ok place) (w : UInt32) :
    m.store a w = m.setWord place w := by
  rw [store, h]

theorem size_stack_store (m : Memory) (a w : UInt32) :
    (m.store a w).stack.size = m.stack.size := by
  unfold store
  split
  · exact size_stack_setWord _ _
  · rfl

theorem wordPlace_store (m : Memory) (a w b : UInt32) :
    (m.store a w).wordPlace b = m.wordPlace b := by
  unfold store
  split
  · exact wordPlace_congr (size_heap_setWord _ _) (size_stack_setWord _ _)
  · rfl

theorem word_store_self (h : m.wordPlace a = .ok place) (w : UInt32) :
    (m.store a w).word a = .ok w := by
  rw [word, wordPlace_store, h, store_of_place h]
  exact congrArg Except.ok (wordAt_setWord_self h w)

/-- A store leaves the words at all other addresses alone. -/
theorem word_store_ne (hne : a ≠ b) (w : UInt32) : (m.store a w).word b = m.word b := by
  rw [word, wordPlace_store, word]
  cases hplace' : m.wordPlace b with
  | error f => rfl
  | ok place' =>
    unfold store
    cases hplace : m.wordPlace a with
    | error f => rfl
    | ok place => exact congrArg Except.ok (wordAt_setWord_ne hplace hplace' hne w)

/-- The words from `low` up to `top` are on the stack. -/
structure HasRoom (m : Memory) (low top : Nat) : Prop where
  usable : m.stack.size ≤ stackEnd
  low : stackEnd ≤ low + m.stack.size
  top : top + 4 ≤ stackEnd

theorem HasRoom.congr {m' : Memory} (h : m.HasRoom low top)
    (hsize : m'.stack.size = m.stack.size) : m'.HasRoom low top :=
  ⟨hsize ▸ h.usable, hsize ▸ h.low, h.top⟩

theorem HasRoom.wordPlace {a : Nat} (h : m.HasRoom low top) (ha : a % 4 = 0) (hlow : low ≤ a)
    (htop : a ≤ top) : ∃ place, m.wordPlace (UInt32.ofNat a) = .ok place := by
  have husable := h.usable
  have hbase := h.low
  have hend := h.top
  have hlimit : stackEnd = 0x80000000 := rfl
  have hnat : (UInt32.ofNat a).toNat = a := toNat_ofNat_of_lt (by omega)
  have hplace : ∃ place, m.place? (UInt32.ofNat a) 4 = some place := by
    rw [place?]
    simp only [hnat]
    split
    · exact ⟨_, rfl⟩
    · rw [if_pos (by omega)]
      exact ⟨_, rfl⟩
  obtain ⟨place, hplace⟩ := hplace
  exact ⟨place, wordPlace_of_place? (by rw [hnat]; exact ha) hplace⟩

/-- The words `ws` lie on the stack one below the other, the first of them at `top`. -/
def Stacked (m : Memory) (top : Nat) (ws : List UInt32) : Prop :=
  ∀ i w, ws[i]? = some w → m.word (UInt32.ofNat (top - 4 * i)) = .ok w

theorem Stacked.push (h : m.Stacked top ws) (hroom : m.HasRoom low top) (htop : top % 4 = 0)
    (hlow : low + 4 * ws.length ≤ top) (w : UInt32) :
    (m.store (UInt32.ofNat (top - 4 * ws.length)) w).Stacked top (ws ++ [w]) := by
  have hend := hroom.top
  have hlimit : stackEnd = 0x80000000 := rfl
  intro i u hu
  by_cases hi : i = ws.length
  · subst hi
    obtain ⟨place, hplace⟩ := hroom.wordPlace (a := top - 4 * ws.length) (by omega) (by omega)
      (by omega)
    rw [word_store_self hplace]
    simpa using hu
  · have hlt : i < ws.length := by
      have hbound := (List.getElem?_eq_some_iff.mp hu).1
      rw [List.length_append, List.length_singleton] at hbound
      omega
    rw [List.getElem?_append_left hlt] at hu
    have hne : UInt32.ofNat (top - 4 * ws.length) ≠ UInt32.ofNat (top - 4 * i) := by
      intro heq
      have hnat := congrArg UInt32.toNat heq
      rw [toNat_ofNat_of_lt (by omega), toNat_ofNat_of_lt (by omega)] at hnat
      omega
    rw [word_store_ne hne]
    exact h i u hu

end Memory

/-! ### What the caller does -/

/-- The state after a register was put on the stack. -/
def Machine.State.pushed (s : State) (r : Reg) : State :=
  (s.write (s.memory.store (s.reg sp) (s.reg r))).put sp (s.reg sp + UInt32.ofInt (-4))

/-- The evaluation of an argument by `size` instructions went well: it leaves the stack pointer, the
frame pointer, and the words up to `top` that are on the stack as they were. -/
structure Neutral (size top : Nat) (s s' : State) : Prop where
  next : s'.pc = s.pc + size
  running : s'.exited = false
  stack : s'.reg sp = s.reg sp
  frame : s'.reg fp = s.reg fp
  words : ∀ a : UInt32, (s.reg sp).toNat < a.toNat → a.toNat ≤ top →
    s'.memory.word a = s.memory.word a

/-- The code of the arguments `es` leads from one state to another: each of them is evaluated, the
last one first, and its value is put on the stack. -/
inductive Passed (p : Image) (cfg : Config) (sc : Scope) (top : Nat) :
    List Expr → Code → State → List UInt32 → State → Prop
  | nil (s : State) : Passed p cfg sc top [] [] s [] s
  | cons {e : Expr} {es : List Expr} {g g' : Generator} {type : Ty} {others code : Code}
      {s s₁ s₂ : State} {vs : List UInt32} {n : Nat} : Passed p cfg sc top es others s vs s₁ →
      Gen.expression sc e g = (.ok (type, code), g') → Steps p cfg n s₁ s₂ →
      Neutral code.size top s₁ s₂ →
      Passed p cfg sc top (e :: es) (others ++ code ++ push a0) s (s₂.reg a0 :: vs) (s₂.pushed a0)

/-- A call in the making: since the state `s₀` the words `ws` were put on the stack for it, and
instruction `k` is next. -/
structure Building (s₀ : State) (top k : Nat) (ws : List UInt32) (s : State) : Prop where
  next : s.pc = k
  running : s.exited = false
  stack : s.reg sp = UInt32.ofNat (top - 4 * ws.length)
  frame : s.reg fp = s₀.reg fp
  size : s.memory.stack.size = s₀.memory.stack.size
  words : s.memory.Stacked top ws

section Caller

variable {p : Image} {cfg : Config} {sc : Scope} {s₀ s s' : State} {low top k : Nat}
  {ws : List UInt32}

/-- One word more is put on the stack. -/
theorem Building.push {r : Reg} (h : Building s₀ top k ws s) (hlaid : Laid p k (Code.push r))
    (hroom : s₀.memory.HasRoom low top) (htop : top % 4 = 0)
    (hlow : low + 4 * (ws.length + 1) ≤ top) :
    Steps p cfg 2 s (s.pushed r) ∧
      Building s₀ top (k + 2) (ws ++ [s.reg r]) (s.pushed r) := by
  obtain ⟨hstore, hmove, -⟩ := hlaid
  have hroom' := hroom.congr h.size
  obtain ⟨place, hplace⟩ := hroom'.wordPlace (a := top - 4 * ws.length) (by omega) (by omega)
    (by omega)
  rw [← h.stack] at hplace
  have hstep : step p cfg s = .done (s.write (s.memory.store (s.reg sp) (s.reg r))) := by
    rw [Memory.store_of_place hplace]
    exact step_sw hstore h.next ((congrArg _ (UInt32.add_zero _)).trans hplace)
  refine ⟨.head h.running hstep (.head h.running ?_ (.refl _)), ?_, ?_, ?_, ?_, ?_, ?_⟩
  · exact step_addiu hmove (congrArg (· + 1) h.next)
  · exact congrArg (· + 1 + 1) h.next
  · exact (State.exited_put _ _ _).trans h.running
  · rw [State.pushed, State.reg_put_self _ _ _ (by decide), h.stack, List.length_append,
      List.length_singleton]
    exact ofNat_add_ofInt (by omega)
  · exact (State.reg_put_ne _ _ _ _ (by decide)).trans h.frame
  · rw [State.pushed, State.memory_put, State.memory_write, Memory.size_stack_store, h.size]
  · rw [State.pushed, State.memory_put, State.memory_write, h.stack]
    exact h.words.push hroom' htop (by omega) _

/-- A neutral evaluation keeps what is on the stack. -/
theorem Building.neutral {n size : Nat} (h : Building s₀ top k ws s) (hsteps : Steps p cfg n s s')
    (hneutral : Neutral size top s s') (htop : top < 0x80000000) (hlow : 4 * ws.length ≤ top) :
    Building s₀ top (k + size) ws s' := by
  refine ⟨?_, hneutral.running, hneutral.stack.trans h.stack, hneutral.frame.trans h.frame,
    hsteps.size_stack.trans h.size, ?_⟩
  · rw [hneutral.next, h.next]
    rfl
  · intro i w hw
    have hi : i < ws.length := (List.getElem?_eq_some_iff.mp hw).1
    rw [hneutral.words _ ?_ ?_]
    · exact h.words i w hw
    · rw [h.stack, toNat_ofNat_of_lt (by omega), toNat_ofNat_of_lt (by omega)]
      omega
    · rw [toNat_ofNat_of_lt (by omega)]
      omega

/-- The arguments are put on the stack, the last one first. -/
theorem Passed.building {es : List Expr} {code : Code} {vs : List UInt32}
    (hpassed : Passed p cfg sc top es code s vs s') (h : Building s₀ top k ws s)
    (hlaid : Laid p k code) (hroom : s₀.memory.HasRoom low top) (htop : top % 4 = 0)
    (hlow : low + 4 * (ws.length + es.length) ≤ top) :
    vs.length = es.length ∧ ∃ n, Steps p cfg n s s' ∧
      Building s₀ top (k + code.size) (ws ++ vs.reverse) s' := by
  have hend := hroom.top
  have hlimit : stackEnd = 0x80000000 := rfl
  induction hpassed with
  | nil s => exact ⟨rfl, 0, .refl s, by simpa using h⟩
  | @cons e es g g' type others code s s₁ s₂ vs n _ _ hsteps hneutral ih =>
    rw [laid_append, laid_append] at hlaid
    obtain ⟨⟨hothers, -⟩, hpush⟩ := hlaid
    rw [List.length_cons] at hlow
    obtain ⟨hlength, n₁, hsteps₁, h₁⟩ := ih h hothers (by omega)
    have hcount : (ws ++ vs.reverse).length = ws.length + es.length := by
      rw [List.length_append, List.length_reverse, hlength]
    have h₂ := h₁.neutral hsteps hneutral (by omega) (by omega)
    rw [size_append, ← Nat.add_assoc] at hpush
    obtain ⟨hsteps₃, h₃⟩ := h₂.push hpush hroom htop (by omega)
    refine ⟨congrArg (· + 1) hlength, _, (hsteps₁.trans hsteps).trans hsteps₃, ?_⟩
    rw [List.append_assoc, ← List.reverse_cons] at h₃
    simpa only [size_append, size_push, Nat.add_assoc] using h₃

end Caller

/-! ### What the method does -/

/-- The offsets from the frame pointer of what a method keeps in its frame: its parameters, the
receiver, the return address, the caller's frame pointer, and its locals. -/
def Method.frameOffsets (m : Method) : List Int :=
  (List.range m.params.length).map (fun i : Nat => paramOffset i) ++
    [thisOffset m.params.length, 0, 4 * (m.params.length + 2)] ++
    (List.range m.locals.length).map (fun j : Nat => localOffset j)

theorem Method.frameOffsets_bounds (m : Method) : ∀ o ∈ m.frameOffsets,
    -4 * (m.locals.length : Int) ≤ o ∧ o ≤ 4 * (m.params.length + 2) := by
  intro o ho
  simp only [frameOffsets, List.mem_append, List.mem_map, List.mem_range, List.mem_cons,
    List.not_mem_nil, or_false, paramOffset, thisOffset, localOffset] at ho
  rcases ho with (⟨i, hi, rfl⟩ | rfl | rfl | rfl) | ⟨j, hj, rfl⟩
  all_goals omega

theorem Method.frameOffsets_apart (m : Method) :
    m.frameOffsets.Pairwise fun o o' => o + 4 ≤ o' ∨ o' + 4 ≤ o := by
  simp only [frameOffsets, List.pairwise_append, List.pairwise_map, List.pairwise_cons,
    List.mem_append, List.mem_map, List.mem_range, List.mem_cons, List.not_mem_nil, or_false]
  refine ⟨⟨?_, ?_, ?_⟩, ?_, ?_⟩
  · refine List.pairwise_lt_range.imp ?_
    intro i j hij
    simp only [paramOffset]
    omega
  · simp only [thisOffset, forall_eq_or_imp, forall_eq, false_imp_iff, implies_true,
      List.Pairwise.nil, and_true]
    omega
  · rintro _ ⟨i, hi, rfl⟩ o' (rfl | rfl | rfl)
    all_goals
      simp only [paramOffset, thisOffset]
      omega
  · refine List.pairwise_lt_range.imp ?_
    intro i j hij
    simp only [localOffset]
    omega
  · rintro o ho _ ⟨j, hj, rfl⟩
    rcases ho with ⟨i, hi, rfl⟩ | rfl | rfl | rfl
    all_goals
      simp only [paramOffset, thisOffset, localOffset]
      omega

/-- The state may be the start of a call of the method: the stack pointer is at `top`, a multiple of
four, and the stack has room for all words of the frame and for the word that is free below it. -/
structure CallReady (m : Method) (top : Nat) (s : State) : Prop where
  running : s.exited = false
  stack : s.reg sp = UInt32.ofNat top
  aligned : top % 4 = 0
  room : ∃ low, s.memory.HasRoom low top ∧ low + 4 * (m.params.length + m.locals.length + 4) = top

/-- The frame of the method after its first instructions.  It was called in the state `s₀` with the
stack pointer at `top`, with the arguments `vs`, and returns to instruction `back`. -/
structure Framed (m : Method) (s₀ : State) (top : Nat) (vs : List UInt32) (back : Nat)
    (s : State) : Prop where
  running : s.exited = false
  /-- Where the frame is. -/
  frame : (s.reg fp).toNat + 4 * (m.params.length + 2) = top
  stack : (s.reg sp).toNat + 4 * (m.locals.length + 2) = (s.reg fp).toNat
  /-- What is in it. -/
  params : ∀ (i : Nat) (v : UInt32), vs[i]? = some v →
    s.memory.word (s.reg fp + UInt32.ofInt (paramOffset i)) = .ok v
  receiver : s.memory.word (s.reg fp + UInt32.ofInt (thisOffset m.params.length)) =
    .ok (s₀.reg a0)
  returnAddress : s.memory.word (s.reg fp) = .ok (Image.codeAddress back)
  callerFrame : s.memory.word (s.reg fp + UInt32.ofInt (4 * (m.params.length + 2))) =
    .ok (s₀.reg fp)
  /-- The words of the frame are apart from each other, from the free word and from all below it. -/
  apart : (m.frameOffsets.map fun o => (s.reg fp + UInt32.ofInt o).toNat).Pairwise
    fun a b => a + 4 ≤ b ∨ b + 4 ≤ a
  free : ∀ o ∈ m.frameOffsets, (s.reg sp).toNat + 4 ≤ (s.reg fp + UInt32.ofInt o).toNat

section Method

variable {p : Image} {cfg : Config} {m : Method} {s₀ s : State} {top k entry : Nat}
  {vs : List UInt32}

/-- The words of a frame are apart. -/
theorem frame_apart {f : Nat} (hfp : s.reg fp = UInt32.ofNat f)
    (hsp : s.reg sp = UInt32.ofNat (f - 4 * (m.locals.length + 2)))
    (hlow : 4 * (m.locals.length + 2) ≤ f) (hhigh : f + 4 * (m.params.length + 2) < 0x80000000) :
    (m.frameOffsets.map fun o => (s.reg fp + UInt32.ofInt o).toNat).Pairwise
        (fun a b => a + 4 ≤ b ∨ b + 4 ≤ a) ∧
      ∀ o ∈ m.frameOffsets, (s.reg sp).toNat + 4 ≤ (s.reg fp + UInt32.ofInt o).toNat := by
  have haddress : ∀ o ∈ m.frameOffsets, ((s.reg fp + UInt32.ofInt o).toNat : Int) = f + o := by
    intro o ho
    have hbounds := m.frameOffsets_bounds o ho
    obtain ⟨a, ha⟩ := Int.eq_ofNat_of_zero_le (a := f + o) (by omega)
    rw [hfp, ofNat_add_ofInt ha, toNat_ofNat_of_lt (by omega), ha]
  constructor
  · rw [List.pairwise_map]
    refine m.frameOffsets_apart.imp_of_mem ?_
    intro o o' ho ho' hapart
    have h := haddress o ho
    have h' := haddress o' ho'
    omega
  · intro o ho
    have h := haddress o ho
    have hbounds := m.frameOffsets_bounds o ho
    rw [hsp, toNat_ofNat_of_lt (by omega)]
    omega

/-- What is on the stack when the stack pointer has gone past the locals is the frame. -/
theorem framed_of_stacked {f back : Nat} (hrunning : s.exited = false)
    (hvs : vs.length = m.params.length) (hf : f + 4 * (m.params.length + 2) = top)
    (hlow : 4 * (m.locals.length + 2) ≤ f) (hhigh : top < 0x80000000)
    (hfp : s.reg fp = UInt32.ofNat f)
    (hsp : s.reg sp = UInt32.ofNat (f - 4 * (m.locals.length + 2)))
    (hwords : s.memory.Stacked top
      (s₀.reg fp :: s₀.reg a0 :: vs.reverse ++ [Image.codeAddress back])) :
    Framed m s₀ top vs back s := by
  have hcount : (s₀.reg fp :: s₀.reg a0 :: vs.reverse).length = m.params.length + 2 := by
    rw [List.length_cons, List.length_cons, List.length_reverse, hvs]
  -- the word with number `i` from the top is at the offset `o`
  have hread {i : Nat} {o : Int} {w : UInt32} (ho : o = 4 * (m.params.length + 2) - 4 * (i : Int))
      (hi : i ≤ m.params.length + 2)
      (hw : (s₀.reg fp :: s₀.reg a0 :: vs.reverse ++ [Image.codeAddress back])[i]? = some w) :
      s.memory.word (s.reg fp + UInt32.ofInt o) = .ok w := by
    rw [hfp, ofNat_add_ofInt (b := top - 4 * i) (by omega)]
    exact hwords i w hw
  obtain ⟨hapart, hfree⟩ := frame_apart hfp hsp hlow (by omega)
  refine ⟨hrunning, ?_, ?_, ?_, ?_, ?_, ?_, hapart, hfree⟩
  · rw [hfp, toNat_ofNat_of_lt (by omega), hf]
  · rw [hfp, hsp, toNat_ofNat_of_lt (by omega), toNat_ofNat_of_lt (by omega)]
    omega
  · intro i v hv
    have hi : i < m.params.length := by
      rw [← hvs]
      exact (List.getElem?_eq_some_iff.mp hv).1
    refine hread (i := m.params.length + 1 - i) ?_ (by omega) ?_
    · simp only [paramOffset]
      omega
    · rw [show m.params.length + 1 - i = m.params.length - 1 - i + 1 + 1 by omega]
      rw [List.cons_append, List.cons_append, List.getElem?_cons_succ, List.getElem?_cons_succ,
        List.getElem?_append_left (by rw [List.length_reverse]; omega),
        List.getElem?_reverse (by omega), ← hv]
      congr 1
      omega
  · refine hread (i := 1) ?_ (by omega) rfl
    simp only [thisOffset]
    omega
  · have hback := hread (i := m.params.length + 2) (o := 0) (by omega) (by omega)
      (w := Image.codeAddress back) (by
      rw [List.getElem?_append_right (by omega), hcount, Nat.sub_self]
      rfl)
    rw [← hback]
    exact congrArg _ (UInt32.add_zero _).symm
  · exact hread (i := 0) (by omega) (by omega) rfl

/-- The call is made, and the method makes its frame. -/
theorem Building.enter (h : Building s₀ top k (s₀.reg fp :: s₀.reg a0 :: vs.reverse) s)
    (hready : CallReady m top s₀) (hvs : vs.length = m.params.length) {l : Bytes}
    (hcall : Performs p k (jump .jal l)) (hlabel : p.textLabels.lookup l = some (entry : Int))
    (hlaid : Laid p entry (Gen.prologue m)) :
    ∃ s', Steps p cfg 4 s s' ∧ s'.pc = (entry + 3 : Nat) ∧ Framed m s₀ top vs (k + 1) s' := by
  obtain ⟨hframe, hsave, hmove, -⟩ := hlaid
  obtain ⟨low, hroom, hlow⟩ := hready.room
  have hend := hroom.top
  have hlimit : stackEnd = 0x80000000 := rfl
  have htop := hready.aligned
  have hcount : (s₀.reg fp :: s₀.reg a0 :: vs.reverse).length = m.params.length + 2 := by
    rw [List.length_cons, List.length_cons, List.length_reverse, hvs]
  obtain ⟨f, hf⟩ : ∃ f, f + 4 * (m.params.length + 2) = top := ⟨low + 4 * (m.locals.length + 2),
    by omega⟩
  have hsp : s.reg sp = UInt32.ofNat f := by
    rw [h.stack, hcount]
    congr 1
    omega
  -- the call, and the new frame pointer
  let s₂ := (s.called entry (Image.codeAddress (k + 1 : Nat))).put fp (s.reg sp)
  have hpc₂ : s₂.pc = (entry + 1 : Nat) := rfl
  have hsp₂ : s₂.reg sp = UInt32.ofNat f := by
    rw [State.reg_put_ne _ _ _ _ (by decide), State.reg_called_ne _ _ _ _ (by decide), hsp]
  have hra₂ : s₂.reg ra = Image.codeAddress (k + 1 : Nat) := by
    rw [State.reg_put_ne _ _ _ _ (by decide), State.reg_called_ra]
  have hmemory₂ : s₂.memory = s.memory := by rw [State.memory_put, State.memory_called]
  -- the return address
  have hwords₂ : s₂.memory.Stacked top (s₀.reg fp :: s₀.reg a0 :: vs.reverse) := by
    rw [hmemory₂]
    exact h.words
  have hroom₂ : s₂.memory.HasRoom low top := hroom.congr (by rw [hmemory₂, h.size])
  obtain ⟨place, hplace⟩ := hroom₂.wordPlace (a := f) (by omega) (by omega) (by omega)
  have e₃ : step p cfg s₂ = .done (s₂.write (s₂.memory.setWord place (s₂.reg ra))) := by
    refine step_sw hsave hpc₂ ?_
    rw [hsp₂, ← hplace]
    exact congrArg _ (UInt32.add_zero _)
  rw [← Memory.store_of_place hplace] at e₃
  have hwords₃ := hwords₂.push hroom₂ htop (by omega) (s₂.reg ra)
  rw [hcount, show top - 4 * (m.params.length + 2) = f by omega, hra₂] at hwords₃
  -- the room for the locals
  let s₃ := s₂.write (s₂.memory.store (UInt32.ofNat f) (s₂.reg ra))
  let s₄ := s₃.put sp (s₃.reg sp + UInt32.ofInt (-4 * (m.locals.length + 2)))
  have hrunning₂ : s₂.exited = false := by
    rw [State.exited_put, State.exited_called]
    exact h.running
  have hfp₄ : s₄.reg fp = UInt32.ofNat f := by
    rw [State.reg_put_ne _ _ _ _ (by decide), State.reg_write, State.reg_put_self _ _ _ (by decide),
      hsp]
  have hsp₄ : s₄.reg sp = UInt32.ofNat (f - 4 * (m.locals.length + 2)) := by
    rw [State.reg_put_self _ _ _ (by decide), State.reg_write, hsp₂]
    exact ofNat_add_ofInt (by omega)
  have hmemory₄ : s₄.memory.Stacked top
      (s₀.reg fp :: s₀.reg a0 :: vs.reverse ++ [Image.codeAddress (k + 1 : Nat)]) := by
    rw [State.memory_put, State.memory_write, hra₂]
    exact hwords₃
  refine ⟨s₄, ?_, rfl, framed_of_stacked hrunning₂ hvs hf (by omega) (by omega) hfp₄ hsp₄ hmemory₄⟩
  refine .head h.running (step_jal hcall h.next hlabel) (.head ?_ ?_ (.head hrunning₂ e₃ ?_))
  · rw [State.exited_called]
    exact h.running
  · rw [step_move hframe rfl, State.reg_called_ne _ _ _ _ (by decide)]
  · exact .head hrunning₂ (step_addiu hmove rfl) (.refl _)

/-- The method takes down its frame and returns. -/
theorem Framed.leave {back : Nat} (h : Framed m s₀ top vs back s) (hready : CallReady m top s₀)
    (hlaid : Laid p k (Gen.epilogue m)) (hback : back < 0x3ff00000) {s' : State}
    (hpc : s'.pc = k) (hrunning : s'.exited = false) (hsp : s'.reg sp = s.reg sp)
    (hra : s'.memory.word (s.reg fp) = s.memory.word (s.reg fp))
    (hframe : s'.memory.word (s.reg fp + UInt32.ofInt (4 * (m.params.length + 2))) =
      s.memory.word (s.reg fp + UInt32.ofInt (4 * (m.params.length + 2)))) :
    ∃ s₁, Steps p cfg 6 s' s₁ ∧ s₁.exited = false ∧ s₁.pc = back ∧ s₁.reg sp = s₀.reg sp ∧
      s₁.reg fp = s₀.reg fp ∧ s₁.reg v0 = s'.reg a0 := by
  obtain ⟨hvalue, hlocals, hreturn, hparams, hrestore, hjump, -⟩ := hlaid
  obtain ⟨low, hroom, hlow⟩ := hready.room
  have hplace := h.frame
  have hdepth := h.stack
  have hsp₀ : s'.reg sp = UInt32.ofNat ((s.reg fp).toNat - 4 * (m.locals.length + 2)) := by
    rw [hsp, ← hdepth, Nat.add_sub_cancel, UInt32.ofNat_toNat]
  have hfp₀ : s.reg fp = UInt32.ofNat (s.reg fp).toNat := UInt32.ofNat_toNat.symm
  generalize (s.reg fp).toNat = f at hplace hdepth hsp₀ hfp₀
  -- the locals are taken off the stack, and the return address is read
  let s₁ := s'.put v0 (s'.reg a0)
  let s₂ := s₁.put sp (s₁.reg sp + UInt32.ofInt (4 * (m.locals.length + 1)))
  have hsp₂ : s₂.reg sp + UInt32.ofInt 4 = s.reg fp := by
    rw [State.reg_put_self _ _ _ (by decide), State.reg_put_ne _ _ _ _ (by decide), hsp₀,
      ofNat_add_ofInt (b := f - 4) (by omega), ofNat_add_ofInt (b := f) (by omega), hfp₀]
  have hword₂ : s₂.memory.word (s₂.reg sp + UInt32.ofInt 4) = .ok (Image.codeAddress back) := by
    rw [hsp₂, State.memory_put, State.memory_put, hra, h.returnAddress]
  let s₃ := s₂.put ra (Image.codeAddress back)
  -- so are the arguments, the receiver and the caller's frame pointer
  let s₄ := s₃.put sp (s₃.reg sp + UInt32.ofInt (4 * m.params.length + 12))
  have hsp₄ : s₄.reg sp = s.reg fp + UInt32.ofInt (4 * (m.params.length + 2)) := by
    rw [State.reg_put_self _ _ _ (by decide), State.reg_put_ne _ _ _ _ (by decide),
      State.reg_put_self _ _ _ (by decide), State.reg_put_ne _ _ _ _ (by decide), hsp₀,
      ofNat_add_ofInt (b := f - 4) (by omega), ofNat_add_ofInt (b := top) (by omega), hfp₀,
      ofNat_add_ofInt (b := top) (by omega)]
  have hword₄ : s₄.memory.word (s₄.reg sp + UInt32.ofInt 0) = .ok (s₀.reg fp) := by
    have hmemory : s₄.memory = s'.memory := by
      simp only [s₄, s₃, s₂, s₁, State.memory_put]
    rw [hsp₄, hmemory, ← h.callerFrame, ← hframe]
    exact congrArg _ (UInt32.add_zero _)
  let s₅ := s₄.put fp (s₀.reg fp)
  have hra₅ : s₅.reg ra = Image.codeAddress back := by
    simp (disch := decide) only [s₅, s₄, s₃, State.reg_put_ne, State.reg_put_self]
  have hrunning₅ : s₅.exited = false := by
    simpa only [s₅, s₄, s₃, s₂, s₁, State.exited_put] using hrunning
  have hpc₁ : s₁.pc = (k + 1 : Nat) := congrArg (· + 1) hpc
  have e₆ : step p cfg s₅ = _ := step_jr hjump (congrArg (· + 1 + 1 + 1 + 1) hpc₁)
    (hra₅ ▸ validReturn_codeAddress hback)
  rw [hra₅, instrAt_codeAddress hback] at e₆
  refine ⟨s₅.jumped back, ?_, hrunning₅, rfl, ?_, ?_, ?_⟩
  · refine .head hrunning (step_move hvalue hpc) (.head ?_ (step_addiu hlocals hpc₁) ?_)
    · simpa only [State.exited_put] using hrunning
    refine .head ?_ (step_lw hreturn (congrArg (· + 1) hpc₁) hword₂) ?_
    · simpa only [s₂, s₁, State.exited_put] using hrunning
    refine .head ?_ (step_addiu hparams (congrArg (· + 1 + 1) hpc₁)) ?_
    · simpa only [s₂, s₁, State.exited_put] using hrunning
    refine .head ?_ (step_lw hrestore (congrArg (· + 1 + 1 + 1) hpc₁) hword₄) ?_
    · simpa only [s₃, s₂, s₁, State.exited_put] using hrunning
    exact .head hrunning₅ e₆ (.refl _)
  · rw [State.reg_jumped, State.reg_put_ne _ _ _ _ (by decide), hsp₄, hfp₀,
      ofNat_add_ofInt (b := top) (by omega), hready.stack]
  · rw [State.reg_jumped, State.reg_put_self _ _ _ (by decide)]
  · simp (disch := decide) only [State.reg_jumped, s₅, s₄, s₃, s₂, s₁, State.reg_put_ne,
      State.reg_put_self]

end Method

/-- The code of a call from where the caller saves its frame pointer on. -/
def callCode (target : Method) (arguments : Code) : Code :=
  push fp ++ push a0 ++ arguments ++
    [one (jump .jal (entryLabel target.owner target.name)), one (move a0 v0)]

/-- The code of a call evaluates the receiver, checks it and makes the call. -/
theorem callCode_of_expression {sc : Scope} {tok : Token} {recv : Expr} {name : Ident}
    {args : List Expr} {g g' : Generator} {type : Ty} {code : Code}
    (h : Gen.expression sc (.call tok recv name args) g = (.ok (type, code), g')) :
    ∃ recvType receiver target arguments g₁ g₂,
      code = receiver ++ nullCheck a0 ++ callCode target arguments ∧
      Gen.expression sc recv g = (.ok (recvType, receiver), g₁) ∧
      Gen.callee sc (.call tok recv name args) recvType name args.length g₁ = (.ok target, g₂) ∧
      Gen.pushArguments sc args g₂ = (.ok arguments, g') := by
  rw [Gen.expression] at h
  obtain ⟨⟨recvType, receiver⟩, g₁, hrecv, h⟩ := Gen.bind_eq_ok h
  obtain ⟨target, g₂, hcallee, h⟩ := Gen.bind_eq_ok h
  obtain ⟨arguments, g₃, hargs, h⟩ := Gen.bind_eq_ok h
  obtain ⟨-, rfl, rfl⟩ := Gen.pair_eq_ok h
  refine ⟨recvType, receiver, target, arguments, g₁, g₂, ?_, hrecv, hcallee, hargs⟩
  simp only [callCode, List.append_assoc]

/-- The caller and the method agree on the frame, wherever a program calls a method.  Let the call
be made in any state, with any arguments that are evaluated as they should be.  Then the machine
gets past the first instructions of the method, and the frame of the method is as the method
expects it.  And if the method gets to its last instructions, with the stack pointer as it was and
the saved words intact, then the machine goes on after the call with the stack pointer and the
frame pointer of the caller, and with the result in `$v0`.

The image has at most `0x3ff00000` instructions: the address of a later one would not fit into 32
bits, and a return to it would go elsewhere. -/
theorem calling_convention {source : Bytes} {p : Program} {t : ClassTable} {whole : Code}
    {image : Image} (h : Accepted source p t whole image)
    (haddresses : image.text.size ≤ 0x3ff00000) {sc : Scope} (hsc : sc.table = t) {tok : Token}
    {recv : Expr} {name : Ident} {args : List Expr} (hname : IsName name.name) {g g' : Generator}
    {type : Ty} {code front back : Code}
    (hcode : Gen.expression sc (.call tok recv name args) g = (.ok (type, code), g'))
    (hwhole : whole = front ++ code ++ back) :
    ∃ recvType receiver target arguments g₁ g₂, ∃ entry : Nat, ∃ body,
      code = receiver ++ nullCheck a0 ++ callCode target arguments ∧
      Gen.expression sc recv g = (.ok (recvType, receiver), g₁) ∧
      Gen.callee sc (.call tok recv name args) recvType name args.length g₁ = (.ok target, g₂) ∧
      Gen.pushArguments sc args g₂ = (.ok arguments, g') ∧
      image.textLabels.lookup (entryLabel target.owner target.name) = some (entry : Int) ∧
      Laid image entry (Gen.prologue target ++ body ++ Gen.epilogue target) ∧
      ∀ (cfg : Config) (s : State) (top : Nat) (vs : List UInt32) (s₁ : State),
        s.pc = (Code.size (front ++ receiver ++ nullCheck a0) : Nat) → CallReady target top s →
        Passed image cfg sc top args arguments ((s.pushed fp).pushed a0) vs s₁ →
        ∃ n s₂, Steps image cfg n s s₂ ∧ s₂.pc = (entry + 3 : Nat) ∧
          vs.length = target.params.length ∧
          Framed target s top vs (front.size + code.size - 1) s₂ ∧
          ∀ s₃ : State, s₃.pc = (entry + 3 + body.size : Nat) → s₃.exited = false →
            s₃.reg fp = s₂.reg fp → s₃.reg sp = s₂.reg sp →
            s₃.memory.word (s₂.reg fp) = s₂.memory.word (s₂.reg fp) →
            s₃.memory.word (s₂.reg fp + UInt32.ofInt (4 * (target.params.length + 2))) =
              s₂.memory.word (s₂.reg fp + UInt32.ofInt (4 * (target.params.length + 2))) →
            ∃ s₄, Steps image cfg 6 s₃ s₄ ∧ s₄.exited = false ∧
              s₄.pc = (front.size + code.size - 1 : Nat) ∧ s₄.reg sp = s.reg sp ∧
              s₄.reg fp = s.reg fp ∧ s₄.reg v0 = s₃.reg a0 := by
  subst hsc
  obtain ⟨recvType, receiver, target, arguments, g₁, g₂, rfl, hrecv, hcallee, hargs⟩ :=
    callCode_of_expression hcode
  obtain ⟨c, cls, -, hfind, hmethod, hcount, -⟩ := Gen.callee_eq_ok hcallee
  obtain ⟨c, -, d, -, k, n, n₁, n₂, type, stmts, result, front', back', -, -, -, hsplit⟩ :=
    h.callee hname hfind hmethod
  obtain ⟨hlabel, hlaid⟩ := laid_label.mp (h.laid hsplit)
  have hcall : whole = front ++ receiver ++ nullCheck a0 ++ callCode target arguments ++ back := by
    rw [hwhole]
    simp only [List.append_assoc]
  have hback : front.size + Code.size (receiver ++ nullCheck a0 ++ callCode target arguments) - 1 =
      Code.size (front ++ receiver ++ nullCheck a0) + 4 + arguments.size + 1 := by
    simp only [callCode, size_append, size_push, size_nullCheck, size_one, size_nil]
    omega
  have hcaller := h.laid hcall
  rw [callCode, laid_append, laid_append, laid_append, size_append (push fp ++ push a0),
    ← Nat.add_assoc] at hcaller
  obtain ⟨⟨⟨hpushFrame, hpushReceiver⟩, harguments⟩, hjump, hresult, -⟩ := hcaller
  have hlast := Performs.lt_size hresult
  have hmethodCode := hlaid
  rw [laid_append, laid_append] at hmethodCode
  obtain ⟨⟨hprologue, -⟩, hepilogue⟩ := hmethodCode
  rw [size_append (Gen.prologue target), ← Nat.add_assoc] at hepilogue
  rw [hback]
  refine ⟨recvType, receiver, target, arguments, g₁, g₂, _, stmts ++ result, rfl, hrecv, hcallee,
    hargs, hlabel, hlaid, ?_⟩
  intro cfg s top vs s₁ hpc hready hpassed
  obtain ⟨low, hroom, hlow⟩ := hready.room
  have hstart : Building s top (Code.size (front ++ receiver ++ nullCheck a0)) [] s :=
    ⟨hpc, hready.running, hready.stack, rfl, rfl, fun i w hw => by cases hw⟩
  obtain ⟨hsteps₁, h₁⟩ : Steps image cfg 2 s _ ∧ _ :=
    hstart.push hpushFrame hroom hready.aligned (by simp only [List.length_nil]; omega)
  obtain ⟨hsteps₂, h₂⟩ : Steps image cfg 2 (s.pushed fp) _ ∧ _ :=
    h₁.push hpushReceiver hroom hready.aligned (by
      simp only [List.nil_append, List.length_singleton]
      omega)
  have hreceiver : (s.pushed fp).reg a0 = s.reg a0 := State.reg_put_ne _ _ _ _ (by decide)
  rw [hreceiver] at h₂
  obtain ⟨hlength, n₃, hsteps₃, h₃⟩ := hpassed.building h₂ harguments hroom hready.aligned (by
    simp only [List.nil_append, List.length_append, List.length_singleton]
    omega)
  obtain ⟨s₂, hsteps₄, hpc₂, hframed⟩ : ∃ s₂, Steps image cfg 4 s₁ s₂ ∧ _ :=
    h₃.enter hready (hlength.trans hcount) hjump hlabel hprologue
  refine ⟨_, s₂, ((hsteps₁.trans hsteps₂).trans hsteps₃).trans hsteps₄, hpc₂,
    hlength.trans hcount, hframed, ?_⟩
  intro s₃ hpc₃ hrunning₃ _ hsp₃ hra₃ hfp₃
  refine hframed.leave hready hepilogue ?_ hpc₃ hrunning₃ hsp₃ hra₃ hfp₃
  exact Nat.lt_of_lt_of_le hlast haddresses

/-- A program that calls a method with a parameter and a local. -/
def calling : Bytes :=
  "class A\x7bpublic static void main(String[] a)\x7bSystem.out.println(new C().m(7));\x7d\x7d" ++
    "class C\x7bpublic int m(int x)\x7bint y;y=x;return y;\x7d\x7d"

/-- Poisoned memory with a stack of sixteen words. -/
def Machine.Config.shallow : Config := ⟨0, 64, 100, true⟩

set_option synthInstance.maxSize 1000 in
theorem calling_convention_calling :
    ∃ p t whole image s n s₂, Accepted calling p t whole image ∧
      Steps image .shallow 16 (.start image .shallow none) s ∧ Steps image .shallow n s s₂ ∧
      s₂.memory.word (s₂.reg fp + 4) = .ok 7 ∧
      s₂.memory.word (s₂.reg fp + 8) = .ok (s.reg a0) ∧
      s₂.memory.word (s₂.reg fp + 12) = .ok (s.reg fp) := by
  let made : Expr := .newObject ⟨.newWord, "new", 1, 65⟩ ⟨⟨.ident, "C", 1, 69⟩, "C"⟩
  let name : Ident := ⟨⟨.ident, "m", 1, 73⟩, "m"⟩
  let call : Expr := .call ⟨.dot, ".", 1, 72⟩ made name [.int ⟨.int, "7", 1, 75⟩ 7]
  have hcheck : ∃ r ∈ accept? calling, ∃ cls ∈ r.2.1.entry,
      ∃ info ∈ cls.ownMethod? ClassTable.mainName,
      ∃ c ∈ (Gen.expression ⟨r.2.1, cls, info, true⟩ call Generator.fresh.reset).1.toOption,
      ∃ receiver ∈ (Gen.expression ⟨r.2.1, cls, info, true⟩ made Generator.fresh.reset).1.toOption,
      ∃ target ∈ (Gen.callee ⟨r.2.1, cls, info, true⟩ call receiver.1 name 1
        (Gen.expression ⟨r.2.1, cls, info, true⟩ made Generator.fresh.reset).2).1.toOption,
      ∃ s ∈ after r.2.2.2 .shallow 16 (.start r.2.2.2 .shallow none),
      r.2.2.1 = r.2.2.1.take 10 ++ c.2 ++ r.2.2.1.drop 39 ∧ r.2.2.2.text.size = 75 ∧
      target.params.length = 1 ∧ target.locals.length = 1 ∧
      s.pc = Code.size (r.2.2.1.take 10 ++ receiver.2 ++ nullCheck a0) ∧ s.exited = false ∧
      s.reg sp = UInt32.ofNat 0x7ffffff8 ∧ s.memory.stack.size = 64 := by
    decide +kernel
  obtain ⟨⟨p, t, whole, image⟩, haccept, cls, -, info, -, ⟨type, code⟩, hcode,
    ⟨recvType', receiver'⟩, hreceiver, target', htarget, s, hs, hwhole, hsize, hparams, hlocals,
    hpc, hrunning, hsp, hstack⟩ := hcheck
  have haccepted := accepted_of_accept? haccept
  have hsteps := steps_of_after hs
  obtain ⟨recvType, receiver, target, arguments, g₁, g₂, entry, body, hsplit, hrecv, hcallee,
    hargs, -, -, hcall⟩ := calling_convention haccepted (by rw [hsize]; decide) rfl
      (by unfold IsName IsWord; decide +kernel) (Gen.eq_ok_of_mem hcode) hwhole
  -- the parts of the call are the ones that were computed
  rw [hrecv] at hreceiver htarget
  obtain ⟨rfl, rfl⟩ := Prod.mk.inj (Option.some.inj hreceiver)
  have hcallee : Gen.callee _ call _ name 1 g₁ = _ := hcallee
  rw [hcallee] at htarget
  obtain rfl := Option.some.inj htarget
  obtain rfl := Except.ok.inj (Prod.mk.inj hargs).1
  -- the state in which the argument is evaluated
  let u := (s.pushed fp).pushed a0
  have hpcu : u.pc = (Code.size (whole.take 10 ++ receiver ++ nullCheck a0) + 4 : Nat) :=
    congrArg (· + 1 + 1 + 1 + 1) hpc
  have hrunningu : u.exited = false := by
    simpa only [u, State.pushed, State.exited_put, State.exited_write] using hrunning
  have hargument : whole = whole.take 10 ++ receiver ++ nullCheck a0 ++ (push fp ++ push a0) ++
      [one (li a0 7)] ++ (push a0 ++ [one (jump .jal (entryLabel target.owner target.name)),
        one (move a0 v0)] ++ whole.drop 39) := by
    refine hwhole.trans ?_
    rw [hsplit]
    simp only [callCode, List.append_assoc, List.nil_append]
  have hlaid := haccepted.laid hargument
  rw [size_append _ (push fp ++ push a0)] at hlaid
  have hstep : step image .shallow u = .done (u.put a0 7) := step_li hlaid.1 hpcu
  have hpassed : Passed image .shallow ⟨t, cls, info, true⟩ 0x7ffffff8
      [.int ⟨.int, "7", 1, 75⟩ 7] ([] ++ [one (li a0 7)] ++ push a0) u [(u.put a0 7).reg a0]
      ((u.put a0 7).pushed a0) := by
    refine .cons (.nil u) (g := Generator.fresh) rfl (.head hrunningu hstep (.refl _)) ?_
    refine ⟨rfl, (State.exited_put _ _ _).trans hrunningu, State.reg_put_ne _ _ _ _ (by decide),
      State.reg_put_ne _ _ _ _ (by decide), ?_⟩
    intro a _ _
    rw [State.memory_put]
  have hready : CallReady target 0x7ffffff8 s := by
    refine ⟨hrunning, hsp, by decide, 0x7fffffe0, ⟨?_, ?_, ?_⟩, ?_⟩
    · rw [hstack]
      decide
    · rw [hstack]
      decide
    · decide
    · rw [hparams, hlocals]
  obtain ⟨n, s₂, hrun, -, -, hframed, -⟩ := hcall .shallow s _ _ _ hpc hready hpassed
  have hreceiver := hframed.receiver
  have hframe := hframed.callerFrame
  rw [hparams] at hreceiver hframe
  have hvalue := hframed.params 0 _ rfl
  rw [State.reg_put_self _ _ _ (by decide)] at hvalue
  exact ⟨p, t, whole, image, s, n, s₂, haccepted, hsteps, hrun, hvalue, hreceiver, hframe⟩

end MiniJava
