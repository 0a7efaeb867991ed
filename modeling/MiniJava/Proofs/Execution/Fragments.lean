import MiniJava.Proofs.Compile.Accepted
import MiniJava.Proofs.Machine.Until

/-!
# Pieces of code and the stack

What the pieces that generated code is made of do to the stack, while the run is watched for the
moment when it is at a given instruction with a given frame pointer.

* **`Memory.Spares`** — words of the stack that are as they were.
* **`Method.Owns`**, **`FrameAt`** — the frame of a method.
* **`Watch`**, **`Watch.Settled`** — what is watched for.
* **`Watch.Runs`** — a run from one point to another changes the depth of the stack and spares the
  words above; `Runs.seq`, `Runs.branch`: one run after another.
* **`Watch.Shifts`** — code does so wherever it lies; `Shifts.append`: one piece after another.
* **`shifts_tame`**, **`shifts_push`**, **`shifts_pop`**, **`shifts_own`**, **`shifts_printInt`**,
  **`shifts_allocArray`** — the pieces.
-/

namespace MiniJava

open Machine Instr Reg Code

theorem toNat_add_ofInt (w : UInt32) (o : Int) :
    ((w + UInt32.ofInt o).toNat : Int) = (w.toNat + o) % 0x100000000 := by
  have hadd : (w + UInt32.ofInt o).toNat = (w.toNat + (UInt32.ofInt o).toNat) % 0x100000000 :=
    UInt32.toNat_add _ _
  have hoffset : (UInt32.ofInt o).toNat = (o % 0x100000000).toNat % 0x100000000 := rfl
  omega

/-! ### Words that are spared -/

namespace Memory

/-- The stack is as large as it was, and its words above `top` are as they were, but for those that
`own` allows to change. -/
structure Spares (own : Int → Prop) (top : Int) (m m' : Memory) : Prop where
  size : m'.stack.size = m.stack.size
  words : ∀ a : Int, a % 4 = 0 → top < a → a < stackEnd → ¬ own a → m'.stackWord a = m.stackWord a

namespace Spares

variable {own own' : Int → Prop} {top top' : Int} {m m₁ m₂ : Memory}

theorem of_stack (h : m₁.stack = m.stack) : Spares own top m m₁ where
  size := by rw [h]
  words a _ _ _ _ := by rw [stackWord, h, stackWord]

theorem trans (h : Spares own top m m₁) (h' : Spares own top m₁ m₂) : Spares own top m m₂ where
  size := h'.size.trans h.size
  words a ha htop hend hown := (h'.words a ha htop hend hown).trans (h.words a ha htop hend hown)

theorem mono (h : Spares own top m m₁) (htop : top ≤ top') (hown : ∀ a, top' < a → own a → own' a) :
    Spares own' top' m m₁ where
  size := h.size
  words a ha hlow hend hnot :=
    h.words a ha (Int.lt_of_le_of_lt htop hlow) hend fun hmine => hnot (hown a hlow hmine)

/-- A store to a word that may change. -/
theorem setWord {a : UInt32} {place : Place} (h : m.wordPlace a = .ok place) (hapart : m.Apart)
    (ha : m.OnStack a) (htop : stackEnd ≤ top + m.stack.size)
    (hmay : (a.toNat : Int) ≤ top ∨ own a.toNat) (w : UInt32) :
    Spares own top m (m.setWord place w) where
  size := size_stack_setWord _ _
  words b hb hlow _ hnot := by
    refine stackWord_setWord_ne h hapart ha w hb (by omega) ?_
    rintro rfl
    rcases hmay with hbelow | hmine
    · omega
    · exact hnot hmine

/-- A word that is spared reads as before. -/
theorem word_eq (h : Spares own top m m₁) (hapart : m.Apart) (hapart₁ : m₁.Apart) {a : UInt32}
    (ha : m.OnStack a) (haligned : a.toNat % 4 = 0) (htop : top < a.toNat)
    (hown : ¬ own a.toNat) : m₁.word a = m.word a := by
  have ha₁ : m₁.OnStack a := by
    unfold OnStack
    rw [h.size]
    exact ha
  have hend : (a.toNat : Int) < stackEnd := Int.ofNat_lt.mpr ha.2
  rw [word_eq_stackWord hapart ha haligned, word_eq_stackWord hapart₁ ha₁ haligned]
  exact congrArg _ (h.words _ (by omega) htop hend hown)

end Spares

end Memory

/-- The address is that of a parameter or of a local of the method, if its frame pointer is `f`. -/
def Method.Owns (m : Method) (f a : Int) : Prop :=
  (∃ i < m.params.length, a = f + paramOffset i) ∨ ∃ j < m.locals.length, a = f + localOffset j

theorem Method.Owns.bounds {m : Method} {f a : Int} (h : m.Owns f a) :
    f - 4 * m.locals.length ≤ a ∧ a ≤ f + 4 * m.params.length ∧ a ≠ f := by
  rcases h with ⟨i, hi, rfl⟩ | ⟨j, hj, rfl⟩
  · rw [paramOffset]
    omega
  · rw [localOffset]
    omega

/-- The words that the method owns are found from the frame pointer. -/
theorem Method.Owns.slot {m : Method} {f a : UInt32} (h : m.Owns f.toNat a.toNat) :
    (∃ i < m.params.length, a = f + UInt32.ofInt (paramOffset i)) ∨
      ∃ j < m.locals.length, a = f + UInt32.ofInt (localOffset j) := by
  have hlt : a.toNat < 0x100000000 := a.toNat_lt
  rcases h with ⟨i, hi, ha⟩ | ⟨j, hj, ha⟩
  · refine .inl ⟨i, hi, UInt32.toNat.inj ?_⟩
    have hsum := toNat_add_ofInt f (paramOffset i)
    omega
  · refine .inr ⟨j, hj, UInt32.toNat.inj ?_⟩
    have hsum := toNat_add_ofInt f (localOffset j)
    omega

/-- The frame of the method is on the stack: its locals lie above the depth `d`, its parameters
below the end of the stack. -/
structure FrameAt (m : Method) (f d : Int) : Prop where
  locals : d + 4 * (m.locals.length + 1) ≤ f
  params : f + 4 * (m.params.length + 1) ≤ stackEnd

theorem FrameAt.mono {m : Method} {f d d' : Int} (h : FrameAt m f d) (hd : d' ≤ d) :
    FrameAt m f d' :=
  ⟨Int.le_trans (Int.add_le_add_right hd _) h.locals, h.params⟩

/-! ### Watching a run -/

/-- A run that is watched for the moment when it is at instruction `pc` with the frame pointer
`frame`. -/
structure Watch where
  image : Image
  cfg : Config
  pc : Nat
  frame : Int

/-- The machine runs, instruction `k` is next, the frame pointer is `f` and the stack pointer is
`d`. -/
structure Poised (k : Nat) (f d : Int) (s : State) : Prop where
  next : s.pc = k
  running : s.exited = false
  frame : ((s.reg fp).toNat : Int) = f
  depth : ((s.reg sp).toNat : Int) = d

theorem Poised.bounds {k : Nat} {f d : Int} {s : State} (h : Poised k f d s) (hs : Inside s) :
    0x10010000 ≤ d ∧ stackEnd ≤ d + s.memory.stack.size ∧ d < stackEnd := by
  obtain ⟨hapart, hstack⟩ := hs
  have hbase : dataBase.toNat = 0x10010000 := rfl
  have hend : stackEnd = 0x80000000 := rfl
  have hdepth := h.depth
  unfold Memory.Apart at hapart
  unfold Memory.OnStack at hstack
  omega

/-- What is read relative to the stack pointer. -/
theorem Poised.stackWord {k : Nat} {f d o : Int} {s : State} {u : UInt32} (h : Poised k f d s)
    (hs : Inside s) (hu : s.memory.word (s.reg sp + UInt32.ofInt o) = .ok u) (hlow : 0 ≤ o)
    (hhigh : d + o < stackEnd) : u = s.memory.stackWord (d + o) := by
  obtain ⟨-, hbottom, -⟩ := h.bounds hs
  have hend : stackEnd = 0x80000000 := rfl
  have hdepth := h.depth
  have haddress : ((s.reg sp + UInt32.ofInt o).toNat : Int) = d + o := by
    have hsum := toNat_add_ofInt (s.reg sp) o
    omega
  rw [← haddress]
  refine Memory.eq_stackWord hu hs.apart ?_
  unfold Memory.OnStack
  omega

theorem Poised.of_quiet {k k' : Nat} {f d : Int} {s s' : State} (h : Poised k f d s)
    (hquiet : Quiet s s') (hpc : s'.pc = k') (hrunning : s'.exited = false) : Poised k' f d s' :=
  ⟨hpc, hrunning, by rw [hquiet.regs fp (by decide), h.frame],
    by rw [hquiet.regs sp (by decide), h.depth]⟩

section Poised

variable {k : Nat} {f d : Int} {s : State} (h : Poised k f d s)

include h

theorem Poised.write (m : Memory) : Poised (k + 1) f d (s.write m) :=
  ⟨congrArg (· + 1) h.next, h.running, h.frame, h.depth⟩

/-- Another register is computed. -/
theorem Poised.put {r : Reg} (hfp : fp ≠ r) (hsp : sp ≠ r) (u : UInt32) :
    Poised (k + 1) f d (s.put r u) :=
  ⟨congrArg (· + 1) h.next, (State.exited_put _ _ _).trans h.running,
    by rw [State.reg_put_ne _ _ _ _ hfp, h.frame], by rw [State.reg_put_ne _ _ _ _ hsp, h.depth]⟩

/-- The stack pointer is moved. -/
theorem Poised.move {o : Int} (hlow : 0 ≤ d + o) (hhigh : d + o < 0x100000000) :
    Poised (k + 1) f (d + o) (s.put sp (s.reg sp + UInt32.ofInt o)) := by
  have hmoved := toNat_add_ofInt (s.reg sp) o
  have hdepth := h.depth
  refine ⟨congrArg (· + 1) h.next, (State.exited_put _ _ _).trans h.running, ?_, ?_⟩
  · rw [State.reg_put_ne _ _ _ _ (by decide), h.frame]
  · rw [State.reg_put_self _ _ _ (by decide)]
    omega

theorem Poised.called (entry : Nat) (back : UInt32) : Poised entry f d (s.called entry back) :=
  ⟨rfl, (State.exited_called _ _ _).trans h.running,
    by rw [State.reg_called_ne _ _ _ _ (by decide), h.frame],
    by rw [State.reg_called_ne _ _ _ _ (by decide), h.depth]⟩

end Poised

namespace Watch

/-- It is not that moment. -/
def Away (w : Watch) (s : State) : Prop := ¬ (s.pc = w.pc ∧ ((s.reg fp).toNat : Int) = w.frame)

/-- It cannot be that moment at an instruction before `last` with the frame pointer `f`. -/
def Clear (w : Watch) (f : Int) (last : Nat) : Prop := f < w.frame ∨ f = w.frame ∧ last ≤ w.pc

/-- In the next `n` steps it is not that moment before `Q` holds. -/
abbrev Follows (w : Watch) (Q : State → Prop) (n : Nat) (s : State) : Prop :=
  Until w.image w.cfg w.Away Q n s

/-- From there on it will never be that moment, and no other point is reached. -/
def Doomed (w : Watch) (k : Nat) : Prop :=
  ∀ (Q : State → Prop) (n : Nat) (s : State), s.pc = k → s.exited = false → w.Follows Q n s

/-- The instruction that is watched for is one of a body: no method starts or returns there, and it
stands before the routines, of which the first is at `base`.  After every call there is an address
to return to. -/
structure Settled (w : Watch) (base : Nat) : Prop where
  noEntry : ¬ Performs w.image w.pc (move fp sp)
  noReturn : ¬ Performs w.image w.pc (onReg .jr ra)
  before : w.pc < base
  routines : Laid w.image base Support.routines
  returns : ∀ (k : Nat) (l : Bytes), Performs w.image k (jump .jal l) → k + 1 < 0x3ff00000

/-- Within `n` steps, the code at `k` leads to `k'` and changes the depth of the stack from `d` to
`d'`, if it leads anywhere.  It spares all words above `top` that the frame of `m` does not own. -/
def Runs (w : Watch) (n : Nat) (m : Method) (f top : Int) (k : Nat) (d : Int) (k' : Nat)
    (d' : Int) : Prop :=
  ∀ i ≤ n, ∀ s, Poised k f d s →
    w.Follows (fun s' => Poised k' f d' s' ∧ s.memory.Spares (m.Owns f) top s'.memory) i s

/-- Within `n` steps, the code changes the depth of the stack from `d` to `d'`, wherever it lies in
a place that is clear. -/
def Shifts (w : Watch) (n : Nat) (m : Method) (f top : Int) (c : Code) (d d' : Int) : Prop :=
  ∀ k, Laid w.image k c → w.Clear f (k + c.size) → w.Runs n m f top k d (k + c.size) d'

variable {w : Watch} {base n : Nat} {m : Method} {f top d d₁ d₂ : Int} {k k₁ k₂ last : Nat}
  {s : State}

theorem Clear.mono (h : w.Clear f last) (hk : k ≤ last) : w.Clear f k :=
  h.imp_right fun ⟨hframe, hlast⟩ => ⟨hframe, hk.trans hlast⟩

theorem Clear.away (h : w.Clear f last) (hpc : s.pc = k) (hk : k < last)
    (hframe : ((s.reg fp).toNat : Int) = f) : w.Away s := by
  rintro ⟨hpc', hframe'⟩
  rcases h with hlow | ⟨-, hlast⟩
  · omega
  · omega

theorem Settled.away (hw : w.Settled base) (hpc : s.pc = k) (hk : base ≤ k) : w.Away s := by
  have hbefore := hw.before
  rintro ⟨hpc', -⟩
  omega

/-! ### Putting code together -/

theorem Runs.mono (h : w.Runs n m f top k d k₁ d₁) {n' : Nat} (hn : n' ≤ n) :
    w.Runs n' m f top k d k₁ d₁ := fun i hi => h i (hi.trans hn)

theorem Runs.nil : w.Runs n m f top k d k d :=
  fun _ _ _ hs => .now ⟨hs, .of_stack rfl⟩

theorem Runs.seq (h : w.Runs n m f top k d k₁ d₁) (h' : w.Runs n m f top k₁ d₁ k₂ d₂) :
    w.Runs n m f top k d k₂ d₂ := by
  intro i hi s hs
  refine (h i hi s hs).bind ?_
  rintro j hj s₁ ⟨hs₁, hspares⟩
  refine (h' j (hj.trans hi) s₁ hs₁).imp ?_
  rintro s₂ ⟨hs₂, hspares'⟩
  exact ⟨hs₂, hspares.trans hspares'⟩

theorem Shifts.append {a b : Code} (ha : w.Shifts n m f top a d d₁)
    (hb : w.Shifts n m f top b d₁ d₂) : w.Shifts n m f top (a ++ b) d d₂ := by
  intro k hlaid hclear
  obtain ⟨hlaid₁, hlaid₂⟩ := laid_append.mp hlaid
  rw [size_append, ← Nat.add_assoc] at hclear ⊢
  exact (ha k hlaid₁ (hclear.mono (Nat.le_add_right _ _))).seq (hb _ hlaid₂ hclear)

theorem Shifts.nil : w.Shifts n m f top [] d d := fun _ _ _ => .nil

/-- A branch goes one of two ways. -/
theorem Runs.branch {i : Instr} {target : Nat} (hi : Performs w.image k i) (hbranch : i.Branches)
    (hlabel : w.image.textLabels.lookup i.label = some (target : Int)) (hclear : w.Clear f (k + 1))
    (honward : i.op ≠ .j → w.Runs n m f top (k + 1) d k₁ d₁)
    (htaken : ∀ n' < n, w.Runs n' m f top target d k₁ d₁) : w.Runs n m f top k d k₁ d₁ := by
  intro j hj s hs
  refine .step (hclear.away hs.next (Nat.lt_succ_self k) hs.frame) ?_
  intro j' hj' _ _ _ s' hstep
  obtain ⟨hquiet, hrunning, hpc⟩ := quiet_of_branches hi hs.next hbranch hlabel hstep
  have hgo : ∀ {k' : Nat}, s'.pc = k' → w.Runs j' m f top k' d k₁ d₁ →
      w.Follows (fun u => Poised k₁ f d₁ u ∧ s.memory.Spares (m.Owns f) top u.memory) j' s' := by
    intro k' hpc' hruns
    have hs' := hs.of_quiet hquiet hpc' (hrunning.trans hs.running)
    refine (hruns j' (Nat.le_refl j') s' hs').imp ?_
    rintro u ⟨hu, hspares⟩
    exact ⟨hu, (Memory.Spares.of_stack hquiet.words).trans hspares⟩
  rcases hpc with ⟨hpc, hop⟩ | hpc
  · exact hgo hpc ((honward hop).mono (by omega))
  · exact hgo hpc (htaken j' (by omega))

/-! ### Tame code -/

/-- The instructions from `lo` up to `hi` are tame, but for branches among them and branches to
where the program ends. -/
def Tamed (w : Watch) (lo hi : Nat) : Prop :=
  ∀ k, lo ≤ k → k < hi → ∃ i, Performs w.image k i ∧
    (i.Tame ∨ i.Branches ∧ ∃ target : Nat,
      w.image.textLabels.lookup i.label = some (target : Int) ∧
        (lo ≤ target ∧ target ≤ hi ∨ w.Doomed target))

/-- Tame instructions are left at the end only, and what the frame depends on is as it was. -/
theorem Tamed.follows {lo hi : Nat} (h : w.Tamed lo hi) {s₀ : State}
    (haway : ∀ (u : State) (j : Nat), lo ≤ j → j < hi → u.pc = j → u.reg fp = s₀.reg fp → w.Away u)
    (hlo : lo ≤ k) (hhi : k ≤ hi) (hpc : s.pc = k) (hrunning : s.exited = false)
    (hquiet : Quiet s₀ s) :
    w.Follows (fun s' => s'.pc = hi ∧ s'.exited = false ∧ Quiet s₀ s') n s := by
  induction n using Nat.strong_induction_on generalizing k s with
  | _ n ih =>
    rcases hhi.eq_or_lt with rfl | hlt
    · exact .now ⟨hpc, hrunning, hquiet⟩
    obtain ⟨i, hi, hkind⟩ := h k hlo hlt
    refine .step (haway s k hlo hlt hpc (hquiet.regs fp (by decide))) ?_
    intro j hj _ hstores _ s' hstep
    rcases hkind with htame | ⟨hbranch, target, hlabel, hgoes⟩
    · obtain ⟨hquiet', ⟨hpc', hrunning'⟩ | ⟨hpc', hended⟩⟩ :=
        quiet_of_tame hi hpc htame hstores hstep
      · exact ih j hj (by omega) hlt hpc' (hrunning'.trans hrunning) (hquiet.trans hquiet')
      · exact .ended (haway s' k hlo hlt hpc' ((hquiet.trans hquiet').regs fp (by decide))) hended
    · obtain ⟨hquiet', hrunning', hpc'⟩ := quiet_of_branches hi hpc hbranch hlabel hstep
      have hrunning' := hrunning'.trans hrunning
      rcases hpc' with ⟨hpc', -⟩ | hpc'
      · exact ih j hj (by omega) hlt hpc' hrunning' (hquiet.trans hquiet')
      rcases hgoes with ⟨hlow, hhigh⟩ | hdoomed
      · exact ih j hj hlow hhigh hpc' hrunning' (hquiet.trans hquiet')
      · exact hdoomed _ _ _ hpc' hrunning'

end Watch

/-- All instructions of the code are tame, but for branches to its own labels and to where the
program ends. -/
def Code.Tame (c : Code) : Bool :=
  c.instrs.all fun i => i.Tame || i.Branches &&
    (c.labels.contains i.label || i.label == Support.nullPointer || i.label == Support.outOfBounds)

theorem Laid.performs {p : Image} {k j : Nat} {c : Code} (h : Laid p k c) (hj : j < c.size) :
    ∃ i ∈ c.instrs, Performs p (k + j) i := by
  induction c generalizing k j with
  | nil => exact absurd hj (Nat.not_lt_zero j)
  | cons line c ih =>
    cases line with
    | instr i r =>
      obtain ⟨hi, hrest⟩ := laid_instr.mp h
      cases j with
      | zero => exact ⟨i, List.mem_cons_self, hi⟩
      | succ j =>
        obtain ⟨i', hmem, hi'⟩ := ih hrest (Nat.lt_of_succ_lt_succ hj)
        refine ⟨i', List.mem_cons_of_mem _ hmem, ?_⟩
        rw [Nat.add_right_comm] at hi'
        exact hi'
    | label l => exact ih (laid_label.mp h).2 hj
    | _ => exact ih h hj

theorem Laid.first {p : Image} {k : Nat} {c : Code} {i : Instr} {rest : List Instr}
    (h : Laid p k c) (hi : c.instrs = i :: rest) : Performs p k i := by
  induction c with
  | nil => cases hi
  | cons line c ih =>
    cases line with
    | instr i' r =>
      obtain ⟨rfl, -⟩ := List.cons.inj hi
      exact (laid_instr.mp h).1
    | label l => exact ih (laid_label.mp h).2 hi
    | _ => exact ih h hi

theorem Laid.target {p : Image} {k : Nat} {c : Code} {l : Bytes} (h : Laid p k c)
    (hl : l ∈ c.labels) : ∃ target : Nat, p.textLabels.lookup l = some (target : Int) ∧
      k ≤ target ∧ target ≤ k + c.size := by
  induction c generalizing k with
  | nil => cases hl
  | cons line c ih =>
    cases line with
    | instr i r =>
      obtain ⟨target, hlabel, hlow, hhigh⟩ := ih (laid_instr.mp h).2 hl
      rw [size_instr]
      exact ⟨target, hlabel, by omega, by omega⟩
    | label l' =>
      obtain ⟨hlabel, hrest⟩ := laid_label.mp h
      rcases List.mem_cons.mp hl with rfl | hl
      · exact ⟨k, hlabel, Nat.le_refl k, Nat.le_add_right _ _⟩
      · exact ih hrest hl
    | _ => exact ih h hl

namespace Watch

variable {w : Watch} {base n : Nat} {m : Method} {f top d : Int} {k : Nat} {s : State} {c : Code}

/-- Tame code, once it is known what becomes of faults. -/
theorem tamed_of_laid (hlaid : Laid w.image k c) (htame : c.Tame)
    (hfaults : ∀ l, l = Support.nullPointer ∨ l = Support.outOfBounds →
      ∃ target : Nat, w.image.textLabels.lookup l = some (target : Int) ∧ w.Doomed target) :
    w.Tamed k (k + c.size) := by
  intro j hlow hhigh
  obtain ⟨i, hmem, hi⟩ := hlaid.performs (j := j - k) (by omega)
  rw [Nat.add_sub_cancel' hlow] at hi
  refine ⟨i, hi, ?_⟩
  have hkind := List.all_eq_true.mp htame i hmem
  simp only [Bool.or_eq_true, Bool.and_eq_true, beq_iff_eq, List.contains_iff_mem, or_assoc]
    at hkind
  rcases hkind with hkind | ⟨hbranch, hlabel | hlabel⟩
  · exact .inl hkind
  · obtain ⟨target, hlookup, hbounds⟩ := hlaid.target hlabel
    exact .inr ⟨hbranch, target, hlookup, .inl hbounds⟩
  · obtain ⟨target, hlookup, hdoomed⟩ := hfaults _ hlabel
    exact .inr ⟨hbranch, target, hlookup, .inr hdoomed⟩

/-- A fault is reported and the program ends. -/
theorem Settled.doomed_of_laid (hw : w.Settled base) {label message : Bytes} (hk : base ≤ k)
    (hlaid : Laid w.image k (Support.faultRoutine label message)) : w.Doomed k := by
  obtain ⟨-, hla, hli, hprint, hcode, hexit, -⟩ := hlaid
  have htamed : w.Tamed k (k + 3) := by
    intro j hlow hhigh
    have hj : j = k ∨ j = k + 1 ∨ j = k + 2 := by omega
    rcases hj with rfl | rfl | rfl
    · exact ⟨_, hla, .inl rfl⟩
    · exact ⟨_, hli, .inl rfl⟩
    · exact ⟨_, hprint, .inl rfl⟩
  intro Q n s hpc hrunning
  have haway : ∀ {u : State} {j : Nat}, k ≤ j → u.pc = j → w.Away u :=
    fun hj hpc => hw.away hpc (hk.trans hj)
  refine (htamed.follows (fun u j hlow _ hpc _ => haway hlow hpc) (Nat.le_refl k)
    (Nat.le_add_right k 3) hpc hrunning (.refl s)).bind ?_
  rintro i - s₁ ⟨hpc₁, -, -⟩
  refine .next (haway (by omega) hpc₁) (step_li hcode hpc₁) ?_
  intro i' _
  have hpc₂ : (s₁.put v0 (UInt32.ofInt 10)).pc = (k + 4 : Nat) := congrArg (· + 1) hpc₁
  refine .step (haway (by omega) hpc₂) ?_
  intro i'' _ _ _ _ s₃ hstep
  rw [step_exit_of hexit hpc₂ (State.reg_put_self _ _ _ (by decide))] at hstep
  obtain rfl := Outcome.done.inj hstep
  exact .ended (haway (j := k + 4) (by omega) hpc₂) rfl

/-- The routines, one by one. -/
theorem Settled.parts (hw : w.Settled base) :
    Laid w.image base Support.printIntRoutine ∧
      Laid w.image (base + 6) (Support.faultRoutine Support.nullPointer Support.nullPointerText) ∧
      Laid w.image (base + 11) (Support.faultRoutine Support.outOfBounds Support.outOfBoundsText) ∧
      Laid w.image (base + 16) Support.allocArrayRoutine := by
  have hlaid := hw.routines
  rw [Support.routines, laid_append, laid_append, laid_append] at hlaid
  exact ⟨hlaid.1.1.1, hlaid.1.1.2, hlaid.1.2, hlaid.2⟩

theorem Settled.faults (hw : w.Settled base) {l : Bytes}
    (hl : l = Support.nullPointer ∨ l = Support.outOfBounds) :
    ∃ target : Nat, w.image.textLabels.lookup l = some (target : Int) ∧ w.Doomed target := by
  obtain ⟨-, hnull, hbounds, -⟩ := hw.parts
  rcases hl with rfl | rfl
  · exact ⟨_, (laid_label.mp hnull).1, hw.doomed_of_laid (Nat.le_add_right _ _) hnull⟩
  · exact ⟨_, (laid_label.mp hbounds).1, hw.doomed_of_laid (Nat.le_add_right _ _) hbounds⟩

/-- Tame code does nothing to the stack. -/
theorem shifts_tame (hw : w.Settled base) (htame : c.Tame) : w.Shifts n m f top c d d := by
  intro k hlaid hclear
  have htamed := tamed_of_laid hlaid htame fun _ => hw.faults
  intro i _ s hs
  refine (htamed.follows ?_ (Nat.le_refl k) (Nat.le_add_right _ _) hs.next hs.running
    (.refl s)).imp ?_
  · intro u j _ hj hpc hframe
    refine hclear.away hpc hj ?_
    rw [hframe, hs.frame]
  · rintro s' ⟨hpc, hrunning, hquiet⟩
    exact ⟨hs.of_quiet hquiet hpc hrunning, .of_stack hquiet.words⟩

/-! ### Calls of routines -/

/-- A call of a routine that is tame but for its return does nothing to the stack. -/
theorem shifts_routine (hw : w.Settled base) {l : Bytes} {entry : Nat} (body : Code) {back : Code}
    (hentry : base ≤ entry)
    (hlaid : Laid w.image entry (.label l :: body ++ (one (onReg .jr ra) :: back)))
    (htame : body.Tame) : w.Shifts n m f top [one (jump .jal l)] d d := by
  obtain ⟨⟨hlabel, hbody⟩, hreturn, -⟩ := laid_append.mp hlaid
  have htamed := tamed_of_laid hbody htame fun _ => hw.faults
  have haway : ∀ {u : State} {j : Nat}, entry ≤ j → u.pc = j → w.Away u :=
    fun hj hpc => hw.away hpc (hentry.trans hj)
  rintro k ⟨hcall, -⟩ hclear i - s hs
  have hk := hw.returns k l hcall
  refine .next (hclear.away hs.next (Nat.lt_succ_self k) hs.frame)
    (step_jal hcall hs.next hlabel) ?_
  intro i₁ _
  have hs₁ := hs.called entry (Image.codeAddress (k + 1 : Nat))
  refine (htamed.follows (fun u j hlow _ hpc _ => haway hlow hpc) (Nat.le_refl entry)
    (Nat.le_add_right _ _) hs₁.next hs₁.running (.refl _)).bind ?_
  rintro i₂ - s₂ ⟨hpc₂, hrunning₂, hquiet⟩
  have hra : s₂.reg ra = Image.codeAddress (k + 1 : Nat) :=
    (hquiet.regs ra (by decide)).trans (State.reg_called_ra _ _ _)
  have hback : step w.image w.cfg s₂ = _ :=
    step_jr hreturn hpc₂ (hra ▸ validReturn_codeAddress hk)
  rw [hra, instrAt_codeAddress hk] at hback
  refine .next (haway (Nat.le_add_right _ _) hpc₂) hback ?_
  intro i₃ _
  have hs₂ := hs₁.of_quiet hquiet hpc₂ hrunning₂
  exact .now ⟨⟨rfl, hs₂.running, hs₂.frame, hs₂.depth⟩,
    .of_stack (hquiet.words.trans (congrArg _ (State.memory_called _ _ _)))⟩

theorem shifts_printInt (hw : w.Settled base) :
    w.Shifts n m f top [one (jump .jal Support.printInt)] d d :=
  shifts_routine hw ([one (li v0 1), one Instr.syscall] ++ Support.printString Support.newline)
    (Nat.le_refl base) hw.parts.1 (by decide)

theorem shifts_allocArray (hw : w.Settled base) :
    w.Shifts n m f top [one (jump .jal Support.allocArray)] d d :=
  shifts_routine hw Support.allocArrayRoutine.tail.dropLast (Nat.le_add_right base 16)
    hw.parts.2.2.2 (by decide +kernel)

/-! ### Code that moves the stack pointer or stores in the frame -/

/-- The stack pointer is moved. -/
theorem follows_move {o : Int} (hmove : Performs w.image k (withImm .addiu sp sp o))
    (hclear : w.Clear f (k + 1)) (hlow : 0 ≤ d + o) (hhigh : d + o < 0x100000000)
    (hs : Poised k f d s) :
    w.Follows (fun s' => Poised (k + 1) f (d + o) s' ∧ s'.memory = s.memory ∧
      s'.reg ra = s.reg ra) n s := by
  refine .next (hclear.away hs.next (Nat.lt_succ_self k) hs.frame) (step_addiu hmove hs.next) ?_
  intro _ _
  exact .now ⟨hs.move hlow hhigh, State.memory_put _ _ _, State.reg_put_ne _ _ _ _ (by decide)⟩

/-- A word is read relative to the stack pointer. -/
theorem follows_load {r : Reg} {o : Int} (hload : Performs w.image k (lw r o sp))
    (hclear : w.Clear f (k + 1)) (hlow : 0 ≤ o) (hhigh : d + o < stackEnd) (hs : Poised k f d s) :
    w.Follows (fun s' => s' = s.put r (s.memory.stackWord (d + o))) n s := by
  refine .step (hclear.away hs.next (Nat.lt_succ_self k) hs.frame) ?_
  intro _ _ hinside _ _ s' hstep
  obtain ⟨u, hword, rfl⟩ := put_of_lw hload hs.next hstep
  rw [hs.stackWord hinside hword hlow hhigh]
  exact .now rfl

/-- A word is stored where the stack pointer points to. -/
theorem follows_save {r : Reg} (hstore : Performs w.image k (sw r 0 sp))
    (hclear : w.Clear f (k + 1)) (htop : d ≤ top) (hs : Poised k f d s) :
    w.Follows (fun s' => (Poised (k + 1) f d s' ∧ 0x10010000 ≤ d ∧ d < stackEnd) ∧
      s.memory.Spares (fun _ => False) top s'.memory ∧ d % 4 = 0 ∧
      s'.memory.stackWord d = s.reg r) n s := by
  refine .step (hclear.away hs.next (Nat.lt_succ_self k) hs.frame) ?_
  intro _ _ hinside _ _ s₁ hstep
  obtain ⟨place, hplace, rfl⟩ := write_of_sw hstore hs.next hstep
  have haddress : s.reg sp + UInt32.ofInt 0 = s.reg sp := UInt32.add_zero _
  rw [haddress] at hplace
  obtain ⟨haligned, -⟩ := Memory.place_of_onStack hplace hinside.apart hinside.stack
  obtain ⟨hbase, hbottom, hhigh⟩ := hs.bounds hinside
  have hdepth := hs.depth
  refine .now ⟨⟨hs.write _, hbase, hhigh⟩, ?_, by omega, ?_⟩
  · exact .setWord hplace hinside.apart hinside.stack (by omega) (.inl (by omega)) _
  · rw [← hdepth]
    exact Memory.stackWord_setWord_self hplace hinside.apart hinside.stack _

/-- A register is put on the stack. -/
theorem follows_push {r : Reg} (hlaid : Laid w.image k (push r)) (hclear : w.Clear f (k + 2))
    (htop : d ≤ top) (hs : Poised k f d s) :
    w.Follows (fun s' => Poised (k + 2) f (d - 4) s' ∧
      s.memory.Spares (fun _ => False) top s'.memory ∧ d % 4 = 0 ∧
      s'.memory.stackWord d = s.reg r) n s := by
  obtain ⟨hstore, hmove, -⟩ := hlaid
  have hend : stackEnd = 0x80000000 := rfl
  refine (follows_save hstore (hclear.mono (Nat.le_succ _)) htop hs).bind ?_
  rintro i₁ - s₁ ⟨⟨hs₁, hbase, hhigh⟩, hspares, haligned, hword⟩
  refine (follows_move hmove hclear (by omega) (by omega) hs₁).imp ?_
  rintro s₂ ⟨hs₂, hmemory, -⟩
  rw [hmemory]
  exact ⟨hs₂, hspares, haligned, hword⟩

theorem shifts_push (r : Reg) (htop : d ≤ top) : w.Shifts n m f top (push r) d (d - 4) := by
  intro k hlaid hclear i _ s hs
  refine (follows_push hlaid hclear htop hs).imp ?_
  rintro s' ⟨hs', hspares, -⟩
  exact ⟨hs', hspares.mono (Int.le_refl top) fun _ _ hnone => hnone.elim⟩

/-- Words are taken off the stack. -/
theorem shifts_pop {j : Nat} {d' : Int} (hd : d' = d + 4 * j) (hframe : FrameAt m f d') :
    w.Shifts n m f top (pop j) d d' := by
  subst hd
  have hlocals := hframe.locals
  have hparams := hframe.params
  have hend : stackEnd = 0x80000000 := rfl
  rintro k ⟨hmove, -⟩ hclear i - s hs
  refine .inside fun hinside => ?_
  obtain ⟨hbase, -, -⟩ := hs.bounds hinside
  refine (follows_move hmove hclear (by omega) (by omega) hs).imp ?_
  rintro s' ⟨hs', hmemory, -⟩
  exact ⟨hs', .of_stack (congrArg _ hmemory)⟩

/-- A parameter or a local is written. -/
theorem shifts_own {r : Reg} {o : Int} (hframe : FrameAt m f d) (hown : m.Owns f (f + o))
    (htop : d ≤ top) : w.Shifts n m f top [one (sw r o fp)] d d := by
  obtain ⟨hlow, hhigh, -⟩ := hown.bounds
  have hlocals := hframe.locals
  have hparams := hframe.params
  have hend : stackEnd = 0x80000000 := rfl
  rintro k ⟨hstore, -⟩ hclear i - s hs
  refine .step (hclear.away hs.next (Nat.lt_succ_self k) hs.frame) ?_
  intro i₁ _ hinside _ _ s₁ hstep
  obtain ⟨place, hplace, rfl⟩ := write_of_sw hstore hs.next hstep
  obtain ⟨hbase, hbottom, -⟩ := hs.bounds hinside
  have haddress : ((s.reg fp + UInt32.ofInt o).toNat : Int) = f + o := by
    have hsum := toNat_add_ofInt (s.reg fp) o
    have hfp := hs.frame
    omega
  have hstack : s.memory.OnStack (s.reg fp + UInt32.ofInt o) := by
    unfold Memory.OnStack
    omega
  refine .now ⟨hs.write _, ?_⟩
  exact .setWord hplace hinside.apart hstack (by omega) (.inr (by rw [haddress]; exact hown)) _

end Watch

end MiniJava
