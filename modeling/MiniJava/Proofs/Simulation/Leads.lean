import MiniJava.Proofs.Machine.Moves
import MiniJava.Proofs.Semantics

/-!
# Runs that follow an interpretation

What the machine has to do when the interpreter has yielded a result or has halted, and how such
runs are put together.

* **`Ends`** — what the machine does when the interpreter halts.
* **`Follows`**, **`Leads`** — the machine follows an interpretation.
* **`Leads.bind`**, **`Leads.seq`**, **`Leads.step`**, **`Leads.tick`** — one after another.
-/

namespace MiniJava.Simulation

open Machine Semantics

/-! ### Halting -/

section Ends

variable (p : Image) (cfg : Config)

/-- The program ends itself, and has then printed `out`. -/
def Exits (s : State) (out : Bytes) : Prop :=
  ∃ n s', Steps p cfg n s s' ∧ s'.exited = true ∧ s'.console.output = out

/-- A load from the null pointer fails, and the program has then printed `out`. -/
def Crashes (s : State) (out : Bytes) : Prop :=
  ∃ n s₁ s₂ i, Steps p cfg n s s₁ ∧ s₁.exited = false ∧
    step p cfg s₁ = .fault (.access (.badAddress 0)) s₂ ∧ fetch? p s₂.pc = some i ∧ i.op = .lw ∧
    s₂.console.output = out

/-- The machine goes on for `k` steps or more, and the program has then printed `out`. -/
def GoesOn (k : Nat) (s : State) (out : Bytes) : Prop :=
  ∃ n s', k ≤ n ∧ Steps p cfg n s s' ∧ s'.exited = false ∧ s'.console.output = out

/-- What the machine does when the interpreter halts.  Nothing is said when it is stuck or its
budget is used up; when it is out of fuel the machine goes on for `k` steps. -/
def Ends (h : Halt) (k : Nat) (s : State) : Prop :=
  match h.cause with
  | .nullPointer => Exits p cfg s (h.output ++ "Null pointer exception\n")
  | .outOfBounds => Exits p cfg s (h.output ++ "Index out of bound exception\n")
  | .nullLength => Crashes p cfg s h.output
  | .timeout => GoesOn p cfg k s h.output
  | .stuck => True
  | .exhausted => True

/-- The machine follows an interpretation: it gets to the instruction `pc'` and to what the result
says, or does what the halt says. -/
def Follows {α : Type} (k : Nat) (s : State) (x : Except Halt α) (pc' : Nat)
    (post : α → View → Prop) : Prop :=
  match x with
  | .ok a => ∃ n s' V', Steps p cfg n s s' ∧ At cfg s' pc' V' ∧ post a V'
  | .error h => Ends p cfg h k s

/-- The machine follows an interpretation from the instruction `pc` and what is seen as `V`. -/
def Leads {α : Type} (k pc : Nat) (V : View) (x : Except Halt α) (pc' : Nat)
    (post : α → View → Prop) : Prop :=
  ∀ s, At cfg s pc V → Follows p cfg k s x pc' post

end Ends

variable {p : Image} {cfg : Config}

theorem Exits.of_steps {n : Nat} {s s' : State} {out : Bytes} (hs : Steps p cfg n s s')
    (h : Exits p cfg s' out) : Exits p cfg s out := by
  obtain ⟨m, t, ht, hexited, hout⟩ := h
  exact ⟨m + n, t, hs.trans ht, hexited, hout⟩

/-- What the machine does after some steps it does before them, and it makes more steps. -/
theorem Ends.of_steps {n : Nat} {s s' : State} {h : Halt} {k : Nat} (hs : Steps p cfg n s s')
    (hends : Ends p cfg h k s') : Ends p cfg h (k + n) s := by
  obtain ⟨cause, out⟩ := h
  cases cause with
  | nullPointer => exact Exits.of_steps hs hends
  | outOfBounds => exact Exits.of_steps hs hends
  | nullLength =>
    obtain ⟨m, t, u, i, ht, hrest⟩ := hends
    exact ⟨m + n, t, u, i, hs.trans ht, hrest⟩
  | timeout =>
    obtain ⟨m, t, hm, ht, hrest⟩ := hends
    exact ⟨m + n, t, Nat.add_le_add_right hm n, hs.trans ht, hrest⟩
  | stuck => trivial
  | exhausted => trivial

theorem Ends.mono {s : State} {h : Halt} {k k' : Nat} (hk : k ≤ k') (hends : Ends p cfg h k' s) :
    Ends p cfg h k s := by
  obtain ⟨cause, out⟩ := h
  cases cause with
  | timeout =>
    obtain ⟨m, t, hm, hrest⟩ := hends
    exact ⟨m, t, hk.trans hm, hrest⟩
  | _ => exact hends

namespace Follows

variable {α : Type} {k pc' : Nat} {s : State} {x : Except Halt α} {post : α → View → Prop}

theorem of_steps {n : Nat} {s' : State} (hs : Steps p cfg n s s')
    (h : Follows p cfg k s' x pc' post) : Follows p cfg (k + n) s x pc' post := by
  cases x with
  | error halt => exact Ends.of_steps hs h
  | ok a =>
    obtain ⟨m, t, V, ht, hat, hpost⟩ := h
    exact ⟨m + n, t, V, hs.trans ht, hat, hpost⟩

theorem mono {k' : Nat} (hk : k ≤ k') (h : Follows p cfg k' s x pc' post) :
    Follows p cfg k s x pc' post := by
  cases x with
  | error halt => exact Ends.mono hk h
  | ok a => exact h

end Follows

/-! ### Rules -/

namespace Leads

variable {α β : Type} {k pc pc₁ pc' : Nat} {V V₁ : View} {x : Except Halt α}
  {post : α → View → Prop}

/-- Nothing is left to be done. -/
theorem done {a : α} (hpc : pc = pc') (hpost : post a V) :
    Leads p cfg k pc V (.ok a) pc' post := by
  intro s hs
  subst hpc
  exact ⟨0, s, V, .refl s, hs, hpost⟩

/-- One interpretation after another. -/
theorem bind {f : α → Except Halt β} {mid : α → View → Prop} {post : β → View → Prop}
    (hx : Leads p cfg k pc V x pc₁ mid)
    (hf : ∀ a V₁, mid a V₁ → Leads p cfg k pc₁ V₁ (f a) pc' post) :
    Leads p cfg k pc V (x >>= f) pc' post := by
  intro s hs
  cases x with
  | error h => exact hx s hs
  | ok a =>
    obtain ⟨n, s₁, V₁, hsteps, hs₁, hmid⟩ := hx s hs
    exact ((hf a V₁ hmid s₁ hs₁).of_steps hsteps).mono (Nat.le_add_right k n)

/-- The machine goes on where the interpreter is done. -/
theorem seq {mid : α → View → Prop} (hx : Leads p cfg k pc V x pc₁ mid)
    (h : ∀ a V₁, mid a V₁ → Leads p cfg k pc₁ V₁ (.ok a) pc' post) :
    Leads p cfg k pc V x pc' post := by
  have hbind := hx.bind h
  rwa [show x >>= Except.ok = x from bind_pure x] at hbind

/-- Less is said of what the machine got to. -/
theorem imp {mid : α → View → Prop} (hx : Leads p cfg k pc V x pc₁ mid) (hpc : pc₁ = pc')
    (h : ∀ a V₁, mid a V₁ → post a V₁) : Leads p cfg k pc V x pc' post :=
  hx.seq fun a V₁ hmid => done hpc (h a V₁ hmid)

theorem mono {k' : Nat} (hk : k ≤ k') (h : Leads p cfg k' pc V x pc' post) :
    Leads p cfg k pc V x pc' post :=
  fun s hs => (h s hs).mono hk

/-- A step of the machine that is counted. -/
theorem tick (hm : Moves p cfg pc V pc₁ V₁) (h : Leads p cfg k pc₁ V₁ x pc' post) :
    Leads p cfg (k + 1) pc V x pc' post := by
  intro s hs
  obtain ⟨s₁, hstep, hs₁⟩ := hm s hs
  exact (h s₁ hs₁).of_steps (.head hs.running hstep (.refl s₁))

/-- A step of the machine. -/
theorem step (hm : Moves p cfg pc V pc₁ V₁) (h : Leads p cfg k pc₁ V₁ x pc' post) :
    Leads p cfg k pc V x pc' post :=
  (h.tick hm).mono (Nat.le_add_right k 1)

/-- What the heap cannot be too large for may be used. -/
theorem of_heap_le (h : 56 + 4 * V.heap.length + cfg.stackBytes ≤ 0x6fff0000 →
    Leads p cfg k pc V x pc' post) : Leads p cfg k pc V x pc' post :=
  fun s hs => h hs.heap_le s hs

/-- Register 0 may be known to be zero. -/
theorem of_zero (h : V.reg Reg.zero = 0 → Leads p cfg k pc V x pc' post) :
    Leads p cfg k pc V x pc' post :=
  fun s hs => h hs.zero s hs

/-- The heap grows. -/
theorem sbrk {n : Nat} (hi : Fetches p pc .syscall) (hv : V.reg Reg.v0 = 9)
    (ha : signed (V.reg Reg.a0) = 4 * n)
    (hheap : (56 + 4 * (V.heap.length + n) : Int) ≤ cfg.heapBytes)
    (hapart : 56 + 4 * (V.heap.length + n) + cfg.stackBytes ≤ 0x6fff0000)
    (h : ∀ fresh : List UInt32, fresh.length = n → Leads p cfg k (pc + 1)
      (View.set { V with heap := V.heap ++ fresh } Reg.v0 (heapAddress V.heap.length)) x pc' post) :
    Leads p cfg k pc V x pc' post := by
  intro s hs
  obtain ⟨fresh, s₁, hlength, hstep, hs₁⟩ := at_sbrk hs hi hv ha hheap hapart
  have hrest := h fresh hlength s₁ hs₁
  exact (hrest.of_steps (.head hs.running hstep (.refl s₁))).mono (Nat.le_add_right k 1)

/-! ### Halts -/

theorem stuck (w : World) : Leads p cfg k pc V (w.halt .stuck : Except Halt α) pc' post :=
  fun _ _ => trivial

/-- The budget allows for a word of the stack, or nothing is said. -/
theorem reserve {w : World} {b : Budget} {n : Nat} {f : Unit → Except Halt α}
    (h : n < b.stack → Leads p cfg k pc V (f ()) pc' post) :
    Leads p cfg k pc V (w.reserve b n >>= f) pc' post := by
  unfold World.reserve
  by_cases hn : n < b.stack
  · rw [if_pos hn]
    exact h hn
  · rw [if_neg hn]
    exact fun _ _ => trivial

/-- The fuel is used up. -/
theorem timeout {w : World} (hout : V.out = w.output) :
    Leads p cfg 0 pc V (w.halt .timeout : Except Halt α) pc' post :=
  fun s hs => ⟨0, s, Nat.le_refl 0, .refl s, hs.running, hs.printed.trans hout⟩

end Leads

end MiniJava.Simulation
