import MiniJava.Proofs.Simulation.Routines

/-!
# Frames

How a call under way is kept on the stack, and how its variables are loaded and stored.

* **`Stands`** — the compiler and the interpreter know the same of a method.
* **`Frame`** — the words of a call: its receiver, its parameters and its locals.
* **`Ready`** — a view in which the code of a body may run.
* **`Leads.load`**, **`Leads.store`** — the value of a variable.
-/

namespace MiniJava.Simulation

open Instr Machine Semantics

/-! ### Scopes and routines -/

/-- The compiler and the interpreter know the same of a method. -/
structure Stands (m : MainClass) (cs : List ClassDecl) (sc : Scope) (rt : Routine) : Prop where
  table : sc.table = tableOf m cs
  self : sc.isMain = false → rt.className = some sc.cls.name
  params : sc.method.params.length = rt.params.length
  names : ∀ x v, sc.lookup? x = some v →
    ∃ binding, resolve? cs rt x = some (binding, v.type) ∧ v.Means cs binding

theorem stands_method {m : MainClass} {cs : List ClassDecl} (hw : WellDeclared m cs)
    {c : ClassDecl} (hc : c ∈ cs) (d : MethodDecl) (k : Nat) :
    Stands m cs ⟨tableOf m cs, c.info cs k, d.info c.name.name, false⟩
      ⟨some c.name.name, d.params, d.vars⟩ where
  table := rfl
  self _ := rfl
  params := length_slots _ _ _
  names _ _ h := resolve?_of_lookup? hw hc h

theorem stands_main {m : MainClass} {cs : List ClassDecl} {info : Method}
    (hinfo : m.info.ownMethod? ClassTable.mainName = some info) :
    Stands m cs ⟨tableOf m cs, m.info, info, true⟩ ⟨none, [], m.vars⟩ := by
  obtain rfl := List.mem_singleton.mp (List.mem_of_find?_eq_some hinfo)
  refine ⟨rfl, fun h => Bool.noConfusion h, rfl, ?_⟩
  intro x v hv
  rcases lookup?_cases hv with hv | hv | ⟨hmain, -⟩
  · cases hv
  · rw [Method.local?, find?_slots] at hv
    obtain ⟨⟨i, type⟩, hdeclared, rfl⟩ := Option.map_eq_some_iff.mp hv
    refine ⟨.localVar i, ?_, ?_⟩
    · simp only [resolve?, declared?, hdeclared]
    · have hmeans : Variable.Means cs ⟨x, type, .localVar, 0 + i⟩ _ := .localVar rfl
      simpa only [Nat.zero_add] using hmeans
  · cases hmain

/-! ### Frames -/

/-- The words of a call: the frame pointer points at the word `f` of the stack, the receiver and
the parameters lie above it and the locals below. -/
structure Frame (cfg : Config) (rt : Routine) (act : Activation) (f : Nat) (V : View) : Prop where
  paramCount : act.params.length = rt.params.length
  localCount : act.locals.length = rt.vars.length
  fp : V.reg Reg.fp = stackAddress f
  room : rt.params.length ≤ f
  limit : 4 * (f + rt.vars.length + 1) ≤ cfg.stackBytes
  receiver : ∀ r, act.receiver = some r →
    rt.params.length < f ∧ V.stack (f - (rt.params.length + 1)) = heapAddress r
  params : ∀ i v, act.params[i]? = some v → V.stack (f - (i + 1)) = word v
  locals : ∀ j v, act.locals[j]? = some (some v) → V.stack (f + (j + 1)) = word v

/-- A frame stays as long as its words do. -/
theorem Frame.congr {cfg : Config} {rt : Routine} {act : Activation} {f d : Nat} {V V' : View}
    (h : Frame cfg rt act f V) (hd : f + rt.vars.length < d)
    (hfp : V'.reg Reg.fp = V.reg Reg.fp) (hstack : ∀ j < d, V'.stack j = V.stack j) :
    Frame cfg rt act f V' where
  paramCount := h.paramCount
  localCount := h.localCount
  fp := hfp.trans h.fp
  room := h.room
  limit := h.limit
  receiver := by
    intro r hr
    obtain ⟨hlt, hword⟩ := h.receiver r hr
    exact ⟨hlt, (hstack _ (by omega)).trans hword⟩
  params := by
    intro i v hv
    exact (hstack _ (by omega)).trans (h.params i v hv)
  locals := by
    intro j v hv
    have hlt : j < act.locals.length := (List.getElem?_eq_some_iff.mp hv).1
    have hcount := h.localCount
    exact (hstack _ (by omega)).trans (h.locals j v hv)

/-- The code of a body may run: the frame of its call is there, `depth` words of the stack are in
use, and the view shows the world. -/
structure Ready (cfg : Config) (m : MainClass) (cs : List ClassDecl) (rt : Routine)
    (act : Activation) (f depth : Nat) (w : World) (V : View) : Prop where
  frame : Frame cfg rt act f V
  deep : f + rt.vars.length < depth
  sp : V.reg Reg.sp = stackAddress depth
  shows : Shows (tableOf m cs) cs w V

section Ready

variable {cfg : Config} {m : MainClass} {cs : List ClassDecl} {rt : Routine} {act : Activation}
  {f depth : Nat} {w w' : World} {V V' : View} (h : Ready cfg m cs rt act f depth w V)

include h

theorem Ready.stays (hs : Stays depth V V') (hshows : Shows (tableOf m cs) cs w' V') :
    Ready cfg m cs rt act f depth w' V' :=
  ⟨h.frame.congr h.deep hs.fp hs.stack, h.deep, hs.sp.trans h.sp, hshows⟩

/-- A word is put on the stack. -/
theorem Ready.push (u : UInt32) :
    Ready cfg m cs rt act f (depth + 1) w
      ((V.setStack depth u).set Reg.sp (stackAddress (depth + 1))) := by
  have hdeep := h.deep
  refine ⟨h.frame.congr hdeep rfl ?_, by omega, rfl, h.shows.congr rfl rfl⟩
  exact fun j hj => if_neg (Nat.ne_of_lt hj)

end Ready

/-! ### Loading -/

/-- Stack, heap and output stay as they were. -/
structure Still (d : Nat) (V V' : View) : Prop extends Stays d V V' where
  heap : V'.heap = V.heap
  out : V'.out = V.out

section Variables

variable {p : Image} {cfg : Config} {m : MainClass} {cs : List ClassDecl} {b : Budget}
  {sc : Scope} {rt : Routine} {act : Activation} {f depth d : Nat} {w : World}
  {k pc pc' : Nat} {V : View} {α : Type} {x : Except Halt α} {post : α → View → Prop}

/-- The value of a field is that of an object that has it. -/
theorem read?_field {key : Key} {value : Value}
    (h : read? cs act w (.field key) = some value) :
    ∃ r c fields, act.receiver = some r ∧ cellAt? cs w.heap r = some (.object c fields) ∧
      key ∈ (fieldsOf cs c).map (·.1) ∧ value = fields key := by
  obtain ⟨r, hr, h⟩ := Option.bind_eq_some_iff.mp h
  split at h
  · rename_i c fields hcell
    split at h
    · rename_i hkey
      exact ⟨r, c, fields, hr, hcell, hkey, (Option.some.inj h).symm⟩
    · cases h
  · cases h

/-- The receiver is loaded. -/
theorem Leads.receiver (hst : Stands m cs sc rt) (hready : Ready cfg m cs rt act f depth w V)
    {r : Ref} (hr : act.receiver = some r) {q : Reg} (hq : q ≠ Reg.zero)
    (hi : Fetches p pc (lw q (thisOffset sc.method.params.length) Reg.fp))
    (h : Leads p cfg k (pc + 1) (V.set q (heapAddress r)) x pc' post) :
    Leads p cfg k pc V x pc' post := by
  obtain ⟨hlt, hword⟩ := hready.frame.receiver r hr
  have hlimit := hready.frame.limit
  have hplace : V.reg Reg.fp + UInt32.ofInt (thisOffset sc.method.params.length) =
      stackAddress (f - (rt.params.length + 1)) := by
    rw [hready.frame.fp, hst.params, thisOffset]
    exact stackAddress_offset (by omega)
  rw [← hword] at h
  exact Leads.step (moves_lw_stack hi hq hplace (by omega)) h

/-- The value of a variable is loaded. -/
theorem Leads.load (hw : WellDeclared m cs) (hst : Stands m cs sc rt)
    (hready : Ready cfg m cs rt act f depth w V) {v : Variable} {binding : Binding}
    (hmeans : v.Means cs binding) {value : Value}
    (hvalue : read? cs act w binding = some value) (hlies : LiesAt p pc (sc.load v))
    (h : ∀ V', V'.reg Reg.a0 = word value → Still d V V' →
      Leads p cfg k (pc + (sc.load v).size) V' x pc' post) :
    Leads p cfg k pc V x pc' post := by
  have hlimit := hready.frame.limit
  cases hmeans with
  | param hrole =>
    rw [Scope.load, Scope.address, hrole] at hlies h
    have hlt : v.index < act.params.length := (List.getElem?_eq_some_iff.mp hvalue).1
    have hcount := hready.frame.paramCount
    have hroom := hready.frame.room
    have hplace : V.reg Reg.fp + UInt32.ofInt (paramOffset v.index) =
        stackAddress (f - (v.index + 1)) := by
      rw [hready.frame.fp, paramOffset]
      exact stackAddress_offset (by omega)
    refine Leads.step (moves_lw_stack hlies.1 (by decide) hplace (by omega)) ?_
    exact h _ (hready.frame.params _ _ hvalue) ⟨⟨rfl, rfl, fun j _ => rfl⟩, rfl, rfl⟩
  | localVar hrole =>
    rw [Scope.load, Scope.address, hrole] at hlies h
    have hlocal : act.locals[v.index]? = some (some value) := Option.join_eq_some_iff.mp hvalue
    have hlt : v.index < act.locals.length := (List.getElem?_eq_some_iff.mp hlocal).1
    have hcount := hready.frame.localCount
    have hplace : V.reg Reg.fp + UInt32.ofInt (localOffset v.index) =
        stackAddress (f + (v.index + 1)) := by
      rw [hready.frame.fp, localOffset]
      exact stackAddress_offset (by omega)
    refine Leads.step (moves_lw_stack hlies.1 (by decide) hplace (by omega)) ?_
    exact h _ (hready.frame.locals _ _ hlocal) ⟨⟨rfl, rfl, fun j _ => rfl⟩, rfl, rfl⟩
  | field hrole hslot =>
    rw [Scope.load, Scope.address, hrole] at hlies h
    obtain ⟨hthis, hload, -⟩ := hlies
    obtain ⟨r, c, fields, hr, hcell, hkey, rfl⟩ := read?_field hvalue
    refine Leads.receiver hst hready hr (by decide) hthis ?_
    have hfield := hready.shows.field hw hcell hkey hslot
    have hplace : (V.set Reg.t1 (heapAddress r)).reg Reg.t1 + UInt32.ofInt (fieldOffset v.index) =
        heapAddress (r + (3 + v.index)) := by
      show heapAddress r + _ = _
      rw [fieldOffset, headerWords]
      exact heapAddress_offset (by omega)
    refine Leads.step (moves_lw_heap hload (by decide) hplace hfield) ?_
    exact h _ rfl ⟨⟨rfl, rfl, fun j _ => rfl⟩, rfl, rfl⟩

/-! ### Storing -/

/-- The word belongs to the parameters or to the locals of a call. -/
def Owned (rt : Routine) (f j : Nat) : Prop :=
  (f ≤ j + rt.params.length ∧ j < f) ∨ (f < j ∧ j ≤ f + rt.vars.length)

/-- The stack and frame pointers and the words of the stack below `d` stay as they were, but for
the variables of a call. -/
structure Spares (rt : Routine) (f d : Nat) (V V' : View) : Prop where
  sp : V'.reg Reg.sp = V.reg Reg.sp
  fp : V'.reg Reg.fp = V.reg Reg.fp
  stack : ∀ j < d, ¬ Owned rt f j → V'.stack j = V.stack j

theorem Spares.trans {V₁ V₂ : View} (h : Spares rt f d V V₁) (h' : Spares rt f d V₁ V₂) :
    Spares rt f d V V₂ where
  sp := h'.sp.trans h.sp
  fp := h'.fp.trans h.fp
  stack j hj hown := (h'.stack j hj hown).trans (h.stack j hj hown)

theorem Stays.spares {V' : View} (h : Stays d V V') : Spares rt f d V V' :=
  ⟨h.sp, h.fp, fun j hj _ => h.stack j hj⟩

/-- A parameter is changed. -/
theorem Ready.setParam (h : Ready cfg m cs rt act f depth w V) {i : Nat} (value : Value)
    (hi : i < act.params.length) :
    Ready cfg m cs rt { act with params := act.params.set i value } f depth w
      (V.setStack (f - (i + 1)) (word value)) := by
  have hcount := h.frame.paramCount
  have hroom := h.frame.room
  have hother : ∀ j, j ≠ f - (i + 1) →
      (V.setStack (f - (i + 1)) (word value)).stack j = V.stack j := fun j hj => if_neg hj
  refine ⟨⟨?_, h.frame.localCount, h.frame.fp, hroom, h.frame.limit, ?_, ?_, ?_⟩, h.deep, h.sp,
    h.shows.congr rfl rfl⟩
  · rw [List.length_set]
    exact hcount
  · intro r hr
    obtain ⟨hlt, hword⟩ := h.frame.receiver r hr
    exact ⟨hlt, (hother _ (by omega)).trans hword⟩
  · intro j v hv
    by_cases hj : i = j
    · subst hj
      rw [List.getElem?_set_self hi] at hv
      obtain rfl := Option.some.inj hv
      exact if_pos rfl
    · rw [List.getElem?_set_ne hj] at hv
      have hlt : j < act.params.length := (List.getElem?_eq_some_iff.mp hv).1
      exact (hother _ (by omega)).trans (h.frame.params j v hv)
  · intro j v hv
    exact (hother _ (by omega)).trans (h.frame.locals j v hv)

/-- A local is changed. -/
theorem Ready.setLocal (h : Ready cfg m cs rt act f depth w V) {i : Nat} (value : Value)
    (hi : i < act.locals.length) :
    Ready cfg m cs rt { act with locals := act.locals.set i (some value) } f depth w
      (V.setStack (f + (i + 1)) (word value)) := by
  have hother : ∀ j, j ≠ f + (i + 1) →
      (V.setStack (f + (i + 1)) (word value)).stack j = V.stack j := fun j hj => if_neg hj
  refine ⟨⟨h.frame.paramCount, ?_, h.frame.fp, h.frame.room, h.frame.limit, ?_, ?_, ?_⟩, h.deep,
    h.sp, h.shows.congr rfl rfl⟩
  · rw [List.length_set]
    exact h.frame.localCount
  · intro r hr
    obtain ⟨hlt, hword⟩ := h.frame.receiver r hr
    exact ⟨hlt, (hother _ (by omega)).trans hword⟩
  · intro j v hv
    exact (hother _ (by omega)).trans (h.frame.params j v hv)
  · intro j v hv
    by_cases hj : i = j
    · subst hj
      rw [List.getElem?_set_self hi] at hv
      obtain rfl := Option.some.inj (Option.some.inj hv)
      exact if_pos rfl
    · rw [List.getElem?_set_ne hj] at hv
      exact (hother _ (by omega)).trans (h.frame.locals j v hv)

/-- The value of a field is changed in an object that has it. -/
theorem write?_field {key : Key} {value : Value} {act' : Activation} {w' : World}
    (h : write? cs act w value (.field key) = some (act', w')) :
    ∃ r c fields, act.receiver = some r ∧ cellAt? cs w.heap r = some (.object c fields) ∧
      key ∈ (fieldsOf cs c).map (·.1) ∧ act' = act ∧
      w' = { w with
        heap := replaceAt cs (.object c fun k => if k = key then value else fields k) w.heap r } := by
  obtain ⟨r, hr, h⟩ := Option.bind_eq_some_iff.mp h
  split at h
  · rename_i c fields hcell
    split at h
    · rename_i hkey
      obtain ⟨rfl, rfl⟩ := Prod.mk.inj (Option.some.inj h)
      exact ⟨r, c, fields, hr, hcell, hkey, rfl, rfl⟩
    · cases h
  · cases h

/-- A value is stored in a variable. -/
theorem Leads.store (hw : WellDeclared m cs) (hst : Stands m cs sc rt)
    (hready : Ready cfg m cs rt act f depth w V) {v : Variable} {binding : Binding}
    (hmeans : v.Means cs binding) {value : Value} {act' : Activation} {w' : World}
    (hvalue : write? cs act w value binding = some (act', w')) (ha : V.reg Reg.a0 = word value)
    (hlies : LiesAt p pc (sc.store v))
    (h : ∀ V', Ready cfg m cs rt act' f depth w' V' → Spares rt f d V V' →
      Leads p cfg k (pc + (sc.store v).size) V' x pc' post) :
    Leads p cfg k pc V x pc' post := by
  have hlimit := hready.frame.limit
  have hroom := hready.frame.room
  cases hmeans with
  | param hrole =>
    rw [Scope.store, Scope.address, hrole] at hlies h
    rw [write?] at hvalue
    split at hvalue
    · rename_i hlt
      obtain ⟨rfl, rfl⟩ := Prod.mk.inj (Option.some.inj hvalue)
      have hcount := hready.frame.paramCount
      have hplace : V.reg Reg.fp + UInt32.ofInt (paramOffset v.index) =
          stackAddress (f - (v.index + 1)) := by
        rw [hready.frame.fp, paramOffset]
        exact stackAddress_offset (by omega)
      refine Leads.step (moves_sw_stack hlies.1 hplace (by omega)) ?_
      rw [ha]
      refine h _ (hready.setParam value hlt) ⟨rfl, rfl, ?_⟩
      intro j _ hown
      refine if_neg fun hj => hown (.inl ?_)
      omega
    · cases hvalue
  | localVar hrole =>
    rw [Scope.store, Scope.address, hrole] at hlies h
    rw [write?] at hvalue
    split at hvalue
    · rename_i hlt
      obtain ⟨rfl, rfl⟩ := Prod.mk.inj (Option.some.inj hvalue)
      have hcount := hready.frame.localCount
      have hplace : V.reg Reg.fp + UInt32.ofInt (localOffset v.index) =
          stackAddress (f + (v.index + 1)) := by
        rw [hready.frame.fp, localOffset]
        exact stackAddress_offset (by omega)
      refine Leads.step (moves_sw_stack hlies.1 hplace (by omega)) ?_
      rw [ha]
      refine h _ (hready.setLocal value hlt) ⟨rfl, rfl, ?_⟩
      intro j _ hown
      refine if_neg fun hj => hown (.inr ?_)
      omega
    · cases hvalue
  | field hrole hslot =>
    rw [Scope.store, Scope.address, hrole] at hlies h
    obtain ⟨hthis, hstore, -⟩ := hlies
    obtain ⟨r, c, fields, hr, hcell, hkey, rfl, rfl⟩ := write?_field hvalue
    refine Leads.receiver hst hready hr (by decide) hthis ?_
    obtain ⟨hlt, hshows⟩ := hready.shows.setField hw hcell hkey hslot value
    have hplace : (V.set Reg.t1 (heapAddress r)).reg Reg.t1 + UInt32.ofInt (fieldOffset v.index) =
        heapAddress (r + (3 + v.index)) := by
      show heapAddress r + _ = _
      rw [fieldOffset, headerWords]
      exact heapAddress_offset (by omega)
    refine Leads.step (moves_sw_heap hstore hplace hlt) ?_
    have hword : (V.set Reg.t1 (heapAddress r)).reg Reg.a0 = word value := ha
    rw [hword]
    refine h _ (hready.stays ⟨rfl, rfl, fun j _ => rfl⟩ (hshows.congr rfl rfl)) ?_
    exact ⟨rfl, rfl, fun j _ _ => rfl⟩

/-! ### Null pointers -/

/-- A register does not hold the null pointer. -/
theorem Leads.notNull {r : Reg} (hlies : LiesAt p pc (Code.nullCheck r)) (hr : V.reg r ≠ 0)
    (h : Leads p cfg k (pc + 1) V x pc' post) : Leads p cfg k pc V x pc' post := by
  refine Leads.of_zero fun hzero => ?_
  refine Leads.step (moves_onward hlies.1 ?_) h
  show some (V.reg r == V.reg Reg.zero) = some false
  rw [hzero, beq_eq_false_iff_ne.mpr hr]

/-- A register holds the null pointer. -/
theorem Leads.isNull (hS : Setting p cfg m cs b) {r : Reg} (hlies : LiesAt p pc (Code.nullCheck r))
    (hr : V.reg r = 0) (hout : V.out = w.output) :
    Leads p cfg k pc V (w.halt .nullPointer : Except Halt α) pc' post := by
  refine Leads.of_zero fun hzero => ?_
  refine Leads.nullPointer hS hlies.1 rfl ?_ hout
  show some (V.reg r == V.reg Reg.zero) = some true
  rw [hzero, hr]
  rfl

end Variables

end MiniJava.Simulation
