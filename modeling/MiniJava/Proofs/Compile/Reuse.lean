import Mathlib.Data.List.Forall2
import Mathlib.Data.List.Induction
import MiniJava.Compile.Emitter
import MiniJava.Proofs.Compile.Translation
import MiniJava.Proofs.Machine.Words

/-!
# Emitters can be used again

An emitter that was used for other programs, whether they were compiled or given up, does with the
next program what a new one does with it.  What it remembers of layouts never shows, whatever the
memory forgets, as long as the memory makes nothing up.

* **`LayoutStore.Lawful`** — what is returned for a name is what was added last under it.
* **`Follows`** — an emitter does what a generator does, and writes the code that it yields.
* **`FollowsExpr`**, **`FollowsStmt`** — it does so for an expression or a statement; there is one
  lemma for each form that needs more than a line.
* **`follows_expression`**, **`follows_statement`**, **`followsFrom_program`** — it does so for every
  construct.
* **`compileAll_eq_map`**, **`reused_emitter_like_new`** — sources and programs one after another.
-/

namespace MiniJava

/-! ### Memories for layouts -/

/-- What can be done with a memory for layouts. -/
inductive StoreOp where
  | get (name : Bytes)
  | add (name : Bytes) (l : Layout)
  | purge
  deriving DecidableEq, Repr

namespace StoreOp

/-- The layout that counts for a name after an operation, if `last` counted before. -/
def track (name : Bytes) (last : Option Layout) : StoreOp → Option Layout
  | get _ => last
  | add name' l => if name' = name then some l else last
  | purge => none

/-- The layout that was added last under a name since everything was forgotten. -/
def lastAdded (name : Bytes) (ops : List StoreOp) : Option Layout :=
  ops.foldl (track name) none

@[simp] theorem lastAdded_concat (name : Bytes) (ops : List StoreOp) (op : StoreOp) :
    lastAdded name (ops ++ [op]) = op.track name (lastAdded name ops) := by
  simp [lastAdded]

end StoreOp

namespace LayoutStore

open StoreOp

variable {S : LayoutStore}

/-- The memory after an operation. -/
def apply (S : LayoutStore) (m : S.Mem) : StoreOp → S.Mem
  | .get name => (S.get name m).2
  | .add name l => S.add name l m
  | .purge => S.purge m

/-- The memory after operations. -/
def after (S : LayoutStore) (ops : List StoreOp) : S.Mem := ops.foldl S.apply S.new

@[simp] theorem after_concat (ops : List StoreOp) (op : StoreOp) :
    S.after (ops ++ [op]) = S.apply (S.after ops) op := by
  simp [after]

/-- What is returned for a name is what was added last under it since everything was forgotten;
anything may be forgotten earlier. -/
def Lawful (S : LayoutStore) : Prop :=
  ∀ ops name l, (S.get name (S.after ops)).1 = some l → lastAdded name ops = some l

/-- The memory holds layouts of the table only. -/
def Holds (S : LayoutStore) (t : ClassTable) (m : S.Mem) : Prop :=
  ∃ ops, m = S.after ops ∧
    ∀ name l, lastAdded name ops = some l → ∃ cls, t.find? name = some cls ∧ l = t.layout cls

/-- Nothing is left of another table. -/
theorem holds_purge (t : ClassTable) (ops : List StoreOp) : S.Holds t (S.purge (S.after ops)) := by
  refine ⟨ops ++ [.purge], by simp [apply], ?_⟩
  intro name l hl
  simp [track] at hl

theorem Holds.get {t : ClassTable} {m : S.Mem} (h : S.Holds t m) (name : Bytes) :
    S.Holds t (S.get name m).2 := by
  obtain ⟨ops, rfl, hops⟩ := h
  refine ⟨ops ++ [.get name], by simp [apply], ?_⟩
  intro name' l hl
  rw [lastAdded_concat] at hl
  exact hops name' l hl

theorem Holds.add {t : ClassTable} {m : S.Mem} (h : S.Holds t m) {cls : ClassInfo}
    (hfind : t.find? cls.name = some cls) : S.Holds t (S.add cls.name (t.layout cls) m) := by
  obtain ⟨ops, rfl, hops⟩ := h
  refine ⟨ops ++ [.add cls.name (t.layout cls)], by simp [apply], ?_⟩
  intro name l hl
  rw [lastAdded_concat] at hl
  by_cases hname : cls.name = name
  · rw [track, if_pos hname] at hl
    exact ⟨cls, hname ▸ hfind, (Option.some.inj hl).symm⟩
  · rw [track, if_neg hname] at hl
    exact hops name l hl

/-- What is returned for a class of the table is its layout. -/
theorem Holds.get_eq {t : ClassTable} {m : S.Mem} (h : S.Holds t m) (hS : S.Lawful)
    {cls : ClassInfo} (hfind : t.find? cls.name = some cls) {l : Layout}
    (hl : (S.get cls.name m).1 = some l) : l = t.layout cls := by
  obtain ⟨ops, rfl, hops⟩ := h
  obtain ⟨cls', hcls', rfl⟩ := hops cls.name l (hS ops cls.name l hl)
  rw [hfind] at hcls'
  rw [Option.some.inj hcls']

end LayoutStore

/-! ### The memory of what was used last -/

theorem LayoutCache.mem_insert {c : LayoutCache} {name : Bytes} {l : Layout}
    {entry : Bytes × Layout} (h : entry ∈ (c.insert name l).entries) :
    entry = (name, l) ∨ entry ∈ c.entries ∧ entry.1 ≠ name := by
  have hmem := List.mem_of_mem_take h
  rcases List.mem_cons.mp hmem with heq | hmem
  · exact .inl heq
  · obtain ⟨hmem, hne⟩ := List.mem_filter.mp hmem
    exact .inr ⟨hmem, by simpa using hne⟩

theorem LayoutCache.mem_of_get? {c : LayoutCache} {name : Bytes} {l : Layout}
    (h : c.get? name = some l) : (name, l) ∈ c.entries := by
  obtain ⟨front, back, hentries, -⟩ := List.lookup_eq_some_iff.mp h
  simp [hentries]

theorem LayoutCache.touch_fst (c : LayoutCache) (name : Bytes) : (c.touch name).1 = c.get? name := by
  unfold touch
  cases c.get? name <;> rfl

/-- Every entry of the cache was the last one added under its name. -/
theorem LayoutStore.lru_entries (ops : List StoreOp) :
    ∀ entry ∈ LayoutCache.entries (lru.after ops), StoreOp.lastAdded entry.1 ops = some entry.2 := by
  induction ops using List.reverseRecOn with
  | nil => exact fun entry hentry => nomatch hentry
  | append_singleton ops op ih =>
    intro entry hentry
    rw [StoreOp.lastAdded_concat]
    rw [after_concat] at hentry
    generalize lru.after ops = c at ih hentry
    cases op with
    | get name =>
      -- an entry that is asked for moves to the front, no entry changes
      refine ih entry ?_
      change entry ∈ (LayoutCache.touch c name).2.entries at hentry
      unfold LayoutCache.touch at hentry
      split at hentry
      · rename_i l hl
        rcases LayoutCache.mem_insert hentry with rfl | ⟨hmem, -⟩
        · exact LayoutCache.mem_of_get? hl
        · exact hmem
      · exact hentry
    | add name l =>
      rcases LayoutCache.mem_insert hentry with rfl | ⟨hmem, hne⟩
      · simp [StoreOp.track]
      · rw [StoreOp.track, if_neg (Ne.symm hne)]
        exact ih entry hmem
    | purge => exact nomatch hentry

theorem LayoutStore.lawful_lru : lru.Lawful := by
  intro ops name l hl
  have hget : LayoutCache.get? (lru.after ops) name = some l :=
    (LayoutCache.touch_fst _ name).symm.trans hl
  exact lru_entries ops (name, l) (LayoutCache.mem_of_get? hget)

/-! ### Following a generator -/

theorem Code.text_append (a b : Code) : (a ++ b).text = a.text ++ b.text :=
  List.flatMap_append

/-- What the emitter remembers of the table, and all that it was told about layouts, is true. -/
structure Emitter.Recalls {S : LayoutStore} (t : ClassTable) (e : Emitter S) : Prop where
  layouts : S.Holds t e.layouts
  answers : ∀ answer ∈ e.answers, answer.2 = t.layout answer.1

/-- The emitter is where the generator is, in the given scope. -/
structure Beside {S : LayoutStore} (sc : Scope) (g : Generator) (e : Emitter S) : Prop where
  nextLabel : e.nextLabel = g.nextLabel
  scope : e.scope = sc
  emitter : e.Recalls sc.table

/-- The emitter ends as the generator does: with the same error, or with lines written that are
related to both results. -/
def FollowsFrom {S : LayoutStore} {α β : Type} (sc : Scope) (g : Generator) (e : Emitter S)
    (x : Gen α) (y : Emit S β) (Q : α → β → Code → Prop) : Prop :=
  match x g with
  | (.ok a, g') => ∃ b code e', y e = (.ok b, e') ∧ Q a b code ∧
      e'.output.data.toList = e.output.data.toList ++ code.text ∧ Beside sc g' e'
  | (.error err, _) => ∃ e', y e = (.error err, e') ∧ e'.Recalls sc.table

/-- The same wherever the generator is, with the emitter beside it. -/
def Follows {S : LayoutStore} {α β : Type} (sc : Scope) (x : Gen α) (y : Emit S β)
    (Q : α → β → Code → Prop) : Prop :=
  ∀ g e, Beside sc g e → FollowsFrom sc g e x y Q

/-- The emitter has written the code that the generator yields. -/
def FollowsCode {S : LayoutStore} (sc : Scope) (x : Gen Code) (y : Emit S Unit) : Prop :=
  Follows sc x y fun result _ code => result = code

section Rules

variable {S : LayoutStore} {α β γ δ : Type} {sc : Scope} {g : Generator} {e : Emitter S}

theorem FollowsFrom.bind {x : Gen α} {f : α → Gen γ} {y : Emit S β} {h : β → Emit S δ}
    {P : α → β → Code → Prop} {Q : γ → δ → Code → Prop} (hx : FollowsFrom sc g e x y P)
    (hf : ∀ a b code, P a b code →
      Follows sc (f a) (h b) fun c d code' => Q c d (code ++ code')) :
    FollowsFrom sc g e (x >>= f) (y >>= h) Q := by
  unfold FollowsFrom at hx ⊢
  change match Gen.andThen x f g with
    | (.ok c, g') => ∃ d code e', Emit.andThen y h e = (.ok d, e') ∧ _
    | (.error err, _) => ∃ e', Emit.andThen y h e = (.error err, e') ∧ _
  unfold Gen.andThen Emit.andThen
  rcases hg : x g with ⟨err | a, g₁⟩ <;> rw [hg] at hx
  · obtain ⟨e', hy, hrecalls⟩ := hx
    rw [hy]
    exact ⟨e', rfl, hrecalls⟩
  · obtain ⟨b, code, e₁, hy, hP, hout, hbeside⟩ := hx
    have hnext := hf a b code hP g₁ e₁ hbeside
    unfold FollowsFrom at hnext
    rw [hy]
    dsimp only
    rcases hg' : f a g₁ with ⟨err | c, g₂⟩ <;> rw [hg'] at hnext
    · exact hnext
    · obtain ⟨d, code', e₂, hy', hQ, hout', hbeside'⟩ := hnext
      refine ⟨d, code ++ code', e₂, hy', hQ, ?_, hbeside'⟩
      rw [hout', hout, Code.text_append, List.append_assoc]

theorem Follows.bind {x : Gen α} {f : α → Gen γ} {y : Emit S β} {h : β → Emit S δ}
    {P : α → β → Code → Prop} {Q : γ → δ → Code → Prop} (hx : Follows sc x y P)
    (hf : ∀ a b code, P a b code →
      Follows sc (f a) (h b) fun c d code' => Q c d (code ++ code')) :
    Follows sc (x >>= f) (y >>= h) Q :=
  fun g e hbeside => (hx g e hbeside).bind hf

theorem follows_pure {a : α} {b : β} {Q : α → β → Code → Prop} (h : Q a b []) :
    Follows sc (pure a) (pure b : Emit S β) Q := by
  intro g e hbeside
  exact ⟨b, [], e, rfl, h, (List.append_nil _).symm, hbeside⟩

/-- Lines that are written by now are in front of those that follow. -/
theorem follows_write {x : Gen α} {code : Code} {h : Unit → Emit S β} {Q : α → β → Code → Prop}
    (hx : Follows sc x (h ()) fun a b code' => Q a b (code ++ code')) :
    Follows sc x (Emit.write code >>= h) Q := by
  intro g e hbeside
  have hout := Block.toList_foldl_push code.text e.output
  have hnext := hx g { e with output := code.text.foldl ByteArray.push e.output }
    ⟨hbeside.nextLabel, hbeside.scope, hbeside.emitter.layouts, hbeside.emitter.answers⟩
  unfold FollowsFrom at hnext ⊢
  rcases hg : x g with ⟨err | a, g₁⟩ <;> rw [hg] at hnext
  · exact hnext
  · obtain ⟨b, code', e', hy, hQ, hout', hbeside'⟩ := hnext
    refine ⟨b, code ++ code', e', hy, hQ, ?_, hbeside'⟩
    rw [hout', hout, Code.text_append, List.append_assoc]

theorem follows_write_last {a : α} {code : Code} {Q : α → Unit → Code → Prop} (h : Q a () code) :
    Follows sc (pure a) (Emit.write code : Emit S Unit) Q :=
  follows_write (h := pure) (follows_pure (by simpa using h))

/-- The last step of the emitter may have its code put behind the code before it. -/
theorem Follows.last {x : Gen α} {f : α → γ} {y : Emit S β} {P : α → β → Code → Prop}
    {Q : γ → β → Code → Prop} (hx : Follows sc x y P)
    (hf : ∀ a b code, P a b code → Q (f a) b code) :
    Follows sc (x >>= fun a => pure (f a)) y Q := by
  rw [← bind_pure y]
  refine hx.bind fun a b code hP => follows_pure ?_
  rw [List.append_nil]
  exact hf a b code hP

/-- Lines that are written first stand in front of the code. -/
theorem FollowsCode.headed {x : Gen Code} {y : Emit S Unit}
    (hx : FollowsCode sc x y) (lines : Code) :
    Follows sc x (Emit.write lines >>= fun _ => y) fun result _ code => code = lines ++ result := by
  refine follows_write ?_
  rw [← bind_pure x]
  exact hx.last fun result _ code h => by rw [h]

/-- A step that comes to the same as another one from another emitter with the same output. -/
theorem FollowsFrom.of_eq {e' : Emitter S} {x : Gen α} {y y' : Emit S β} {Q : α → β → Code → Prop}
    (hx : FollowsFrom sc g e' x y' Q) (hrun : y e = y' e') (hout : e.output = e'.output) :
    FollowsFrom sc g e x y Q := by
  unfold FollowsFrom
  rw [hrun, hout]
  exact hx

theorem follows_scope {x : Gen α} {h : Scope → Emit S β} {Q : α → β → Code → Prop}
    (hx : Follows sc x (h sc) Q) : Follows sc x (Emit.scope >>= h) Q := by
  intro g e hbeside
  refine (hx g e hbeside).of_eq ?_ rfl
  rw [← hbeside.scope]
  rfl

/-- The result of the step, and the next label, depend on the next label only. -/
def Gen.Plain (x : Gen α) : Prop :=
  ∃ r : Nat → Except GenError α × Nat, ∀ g,
    (x g).1 = (r g.nextLabel).1 ∧ (x g).2.nextLabel = (r g.nextLabel).2

theorem Gen.plain_pure (a : α) : Plain (pure a : Gen α) :=
  ⟨fun n => (.ok a, n), fun _ => ⟨rfl, rfl⟩⟩

theorem Gen.plain_failAt (cause : GenErrorCause) (site : Expr) :
    Plain (failAt cause site : Gen α) :=
  ⟨fun n => (.error (.atExpr cause site), n), fun _ => ⟨rfl, rfl⟩⟩

theorem Gen.plain_newLabel : Plain newLabel :=
  ⟨fun n => (.ok (labelText n), n + 1), fun _ => ⟨rfl, rfl⟩⟩

theorem Gen.plain_report (event : GenEvent) : Plain (report event) :=
  ⟨fun n => (.ok (), n), fun _ => ⟨rfl, rfl⟩⟩

theorem Gen.plain_resolve (x : Ident) : Plain (sc.resolve x) := by
  unfold Scope.resolve
  split
  · exact plain_pure _
  · exact plain_failAt _ _

theorem Gen.plain_callee (site : Expr) (recv : Ty) (m : Ident) (argCount : Nat) :
    Plain (callee sc site recv m argCount) := by
  unfold callee
  repeat' split
  all_goals first
    | exact plain_pure _
    | exact plain_failAt _ _

theorem follows_lift {x : Gen α} (hx : x.Plain) :
    Follows sc x (Emit.lift x : Emit S α) fun a b code => a = b ∧ code = [] := by
  intro g e hbeside
  obtain ⟨r, hr⟩ := hx
  obtain ⟨hresult, hlabel⟩ := hr g
  -- the emitter runs the step on a generator of its own, with the same next label
  obtain ⟨hresult', hlabel'⟩ := hr ⟨g.nextLabel, e.events⟩
  have hlift : Emit.lift x e = ((x g).1, { e with
      nextLabel := (x g).2.nextLabel
      events := (x ⟨g.nextLabel, e.events⟩).2.events }) := by
    rw [hresult, ← hresult', hlabel, ← hlabel']
    unfold Emit.lift
    rw [hbeside.nextLabel]
  unfold FollowsFrom
  rw [hlift]
  rcases hg : x g with ⟨err | a, g'⟩
  · exact ⟨_, rfl, hbeside.emitter.layouts, hbeside.emitter.answers⟩
  · exact ⟨a, [], _, rfl, ⟨rfl, rfl⟩, (List.append_nil _).symm, rfl, hbeside.scope,
      hbeside.emitter.layouts, hbeside.emitter.answers⟩

theorem followsFrom_failAt (he : e.Recalls sc.table) (cause : GenErrorCause) (site : Expr)
    {Q : α → β → Code → Prop} :
    FollowsFrom sc g e (Gen.failAt cause site) (Emit.lift (Gen.failAt cause site)) Q :=
  ⟨_, rfl, he.layouts, he.answers⟩

theorem follows_failAt (cause : GenErrorCause) (site : Expr) {Q : α → β → Code → Prop} :
    Follows sc (Gen.failAt cause site) (Emit.lift (Gen.failAt cause site) : Emit S β) Q :=
  fun _ _ hbeside => followsFrom_failAt hbeside.emitter cause site

/-- Be in a method of the same table for a while. -/
theorem Follows.within {cls : ClassInfo} {m : Method} {isMain : Bool} {x : Gen α} {y : Emit S β}
    {Q : α → β → Code → Prop} (hx : Follows ⟨sc.table, cls, m, isMain⟩ x y Q) :
    Follows sc x (Emit.within cls m isMain y) Q := by
  intro g e hbeside
  have hinside := hx g { e with scope := ⟨e.scope.table, cls, m, isMain⟩ }
    ⟨hbeside.nextLabel, by rw [hbeside.scope], hbeside.emitter.layouts, hbeside.emitter.answers⟩
  unfold FollowsFrom at hinside ⊢
  unfold Emit.within
  rcases hg : x g with ⟨err | a, g'⟩ <;> rw [hg] at hinside
  · obtain ⟨e', hy, hrecalls⟩ := hinside
    rw [hy]
    exact ⟨_, rfl, hrecalls.layouts, hrecalls.answers⟩
  · obtain ⟨b, code, e', hy, hQ, hout, hbeside'⟩ := hinside
    rw [hy]
    exact ⟨b, code, _, rfl, hQ, hout, hbeside'.nextLabel, hbeside.scope,
      hbeside'.emitter.layouts, hbeside'.emitter.answers⟩

/-- The layout is that of the table, whether it was remembered or not. -/
theorem layoutOf_eq {cls : ClassInfo} (hS : S.Lawful) (he : e.Recalls e.scope.table)
    (hfind : e.scope.table.find? cls.name = some cls) (site : Expr) :
    ∃ layouts, Emit.layoutOf cls site e = (.ok (e.scope.table.layout cls), { e with
        layouts, answers := (cls, e.scope.table.layout cls) :: e.answers }) ∧
      S.Holds e.scope.table layouts := by
  have hroom : ¬ (e.scope.table.layout cls).bytes < 4 * headerWords := by
    rw [Layout.bytes]
    omega
  have hget := he.layouts.get cls.name
  unfold Emit.layoutOf
  rcases hcase : S.get cls.name e.layouts with ⟨_ | l, layouts⟩ <;> rw [hcase] at hget
  · simp only [hroom, if_false]
    exact ⟨_, rfl, hget.add hfind⟩
  · obtain rfl := he.layouts.get_eq hS hfind (congrArg Prod.fst hcase)
    exact ⟨layouts, rfl, hget⟩

theorem follows_layout {cls : ClassInfo} (hS : S.Lawful)
    (hfind : sc.table.find? cls.name = some cls) (site : Expr) :
    Follows sc (Gen.layout sc.table cls site) (Emit.layoutOf cls site : Emit S Layout)
      fun a b code => a = b ∧ code = [] := by
  rintro g e ⟨hlabel, rfl, hemitter⟩
  obtain ⟨layouts, hlayout, hholds⟩ := layoutOf_eq hS hemitter hfind site
  rw [Gen.layout_eq]
  refine ⟨_, [], _, hlayout, ⟨rfl, rfl⟩, (List.append_nil _).symm, hlabel, rfl, hholds, ?_⟩
  intro answer hanswer
  rcases List.mem_cons.mp hanswer with rfl | hanswer
  · rfl
  · exact hemitter.answers answer hanswer

end Rules

/-! ### Expressions -/

section Expressions

variable {S : LayoutStore} {sc : Scope} {t : Token} {l r : Expr}

open Gen

/-- The emitter returns the type of an expression and has written its code. -/
def FollowsExpr (S : LayoutStore) (sc : Scope) (e : Expr) : Prop :=
  Follows sc (expression sc e) (Emit.expression e : Emit S Ty)
    fun result type code => result = (type, code)

theorem follows_binary (op : BinaryOp) (hl : FollowsExpr S sc l) (hr : FollowsExpr S sc r) :
    FollowsExpr S sc (.binary t op l r) := by
  rw [FollowsExpr, expression, Emit.expression]
  -- what stands between the operands is written before the right one is known to have code
  refine hl.bind ?_
  rintro _ _ left rfl
  refine follows_write (hr.bind ?_)
  rintro _ _ right rfl
  refine follows_write ?_
  dsimp only
  cases combine op with
  | some combined => exact follows_write (follows_pure (by simp))
  | none => exact follows_failAt _ _

theorem follows_index (hl : FollowsExpr S sc l) (hr : FollowsExpr S sc r) :
    FollowsExpr S sc (.index t l r) := by
  rw [FollowsExpr, expression, Emit.expression]
  refine hl.bind ?_
  rintro _ type array rfl
  dsimp only
  split
  · refine follows_write (hr.bind ?_)
    rintro _ _ index rfl
    exact follows_write (follows_pure (by simp))
  · exact follows_failAt _ _

theorem follows_length (hl : FollowsExpr S sc l) : FollowsExpr S sc (.length t l) := by
  rw [FollowsExpr, expression, Emit.expression]
  refine hl.bind ?_
  rintro _ type array rfl
  dsimp only
  split
  · exact follows_write (follows_pure (by simp))
  · exact follows_failAt _ _

/-- Here alone the memories are asked, and both know the layout of the table or nothing. -/
theorem follows_newObject (hS : S.Lawful) (c : Ident) : FollowsExpr S sc (.newObject t c) := by
  rw [FollowsExpr, expression, Emit.expression]
  refine follows_scope ?_
  cases hfind : sc.table.find? c.name with
  | none => exact follows_failAt _ _
  | some cls =>
    dsimp only
    split
    · exact follows_failAt _ _
    · refine (follows_layout hS (find?_own_name hfind) _).bind ?_
      rintro l _ _ ⟨rfl, rfl⟩
      refine (follows_lift plain_newLabel).bind ?_
      rintro top _ _ ⟨rfl, rfl⟩
      refine (follows_lift plain_newLabel).bind ?_
      rintro done _ _ ⟨rfl, rfl⟩
      exact follows_write (follows_pure (by simp))

theorem follows_call (m : Ident) {args : List Expr} (hrecv : FollowsExpr S sc r)
    (hargs : FollowsCode sc (pushArguments sc args) (Emit.pushArguments args : Emit S Unit)) :
    FollowsExpr S sc (.call t r m args) := by
  rw [FollowsExpr, expression, Emit.expression]
  refine hrecv.bind ?_
  rintro _ type receiver rfl
  refine follows_scope ((follows_lift (plain_callee _ type m args.length)).bind ?_)
  rintro target _ _ ⟨rfl, rfl⟩
  refine follows_write (hargs.bind ?_)
  rintro arguments _ _ rfl
  exact follows_write (follows_pure (by simp))

mutual

theorem follows_expression (hS : S.Lawful) (e : Expr) : FollowsExpr S sc e := by
  match e with
  | .int t n =>
    rw [FollowsExpr, expression, Emit.expression]
    exact follows_write (follows_pure (by simp))
  | .bool t b =>
    rw [FollowsExpr, expression, Emit.expression]
    exact follows_write (follows_pure (by simp))
  | .this t =>
    rw [FollowsExpr, expression, Emit.expression]
    refine follows_scope ?_
    split
    · exact follows_failAt _ _
    · exact follows_write (follows_pure (by simp))
  | .var x =>
    rw [FollowsExpr, expression, Emit.expression]
    refine follows_scope ((follows_lift (plain_resolve x)).bind ?_)
    rintro v _ _ ⟨rfl, rfl⟩
    exact follows_write (follows_pure (by simp))
  | .unary t (.other s) e =>
    rw [FollowsExpr, expression, Emit.expression]
    exact follows_failAt _ _
  | .unary t .not e =>
    rw [FollowsExpr, expression, Emit.expression]
    refine (follows_expression hS e).bind ?_
    rintro _ _ code rfl
    exact follows_write (follows_pure (by simp))
  | .binary t op l r => exact follows_binary op (follows_expression hS l) (follows_expression hS r)
  | .index t a i => exact follows_index (follows_expression hS a) (follows_expression hS i)
  | .length t a => exact follows_length (follows_expression hS a)
  | .newArray t n =>
    rw [FollowsExpr, expression, Emit.expression]
    refine (follows_expression hS n).bind ?_
    rintro _ _ size rfl
    exact follows_write (follows_pure (by simp))
  | .newObject t c => exact follows_newObject hS c
  | .call t recv m args =>
    exact follows_call m (follows_expression hS recv) (follows_pushArguments hS args)
  | .missing =>
    rw [FollowsExpr, expression, Emit.expression]
    exact follows_failAt _ _

theorem follows_pushArguments (hS : S.Lawful) (es : List Expr) :
    FollowsCode sc (pushArguments sc es) (Emit.pushArguments es : Emit S Unit) := by
  match es with
  | [] =>
    rw [pushArguments, Emit.pushArguments]
    exact follows_pure rfl
  | e :: es =>
    rw [pushArguments, Emit.pushArguments]
    refine (follows_pushArguments hS es).bind ?_
    rintro others _ _ rfl
    refine (follows_expression hS e).bind ?_
    rintro _ _ code rfl
    exact follows_write_last (by simp)

end

end Expressions

/-! ### Statements -/

section Statements

variable {S : LayoutStore} {sc : Scope} {t : Token} {c i e : Expr} {a b : Stmt}

open Gen

/-- The emitter has written the code of a statement. -/
def FollowsStmt (S : LayoutStore) (sc : Scope) (s : Stmt) : Prop :=
  FollowsCode sc (statement sc s) (Emit.statement s : Emit S Unit)

theorem follows_cond (hc : FollowsExpr S sc c) (ha : FollowsStmt S sc a)
    (hb : FollowsStmt S sc b) : FollowsStmt S sc (.cond t c a b) := by
  rw [FollowsStmt, statement, Emit.statement]
  refine (follows_lift plain_newLabel).bind ?_
  rintro otherwise _ _ ⟨rfl, rfl⟩
  refine (follows_lift plain_newLabel).bind ?_
  rintro done _ _ ⟨rfl, rfl⟩
  refine hc.bind ?_
  rintro _ _ test rfl
  refine follows_write (ha.bind ?_)
  rintro thenBranch _ _ rfl
  refine follows_write (hb.bind ?_)
  rintro elseBranch _ _ rfl
  exact follows_write_last (by simp)

theorem follows_loop (hc : FollowsExpr S sc c) (hb : FollowsStmt S sc b) :
    FollowsStmt S sc (.loop t c b) := by
  rw [FollowsStmt, statement, Emit.statement]
  refine (follows_lift plain_newLabel).bind ?_
  rintro top _ _ ⟨rfl, rfl⟩
  refine (follows_lift plain_newLabel).bind ?_
  rintro done _ _ ⟨rfl, rfl⟩
  refine follows_write (hc.bind ?_)
  rintro _ _ test rfl
  refine follows_write (hb.bind ?_)
  rintro body _ _ rfl
  exact follows_write_last (by simp)

theorem follows_assign (x : Ident) (he : FollowsExpr S sc e) :
    FollowsStmt S sc (.assign t x e) := by
  rw [FollowsStmt, statement, Emit.statement]
  refine he.bind ?_
  rintro _ _ code rfl
  refine follows_scope ((follows_lift (plain_resolve x)).bind ?_)
  rintro v _ _ ⟨rfl, rfl⟩
  exact follows_write_last (by simp)

theorem follows_assignElem (x : Ident) (hi : FollowsExpr S sc i) (he : FollowsExpr S sc e) :
    FollowsStmt S sc (.assignElem t x i e) := by
  rw [FollowsStmt, statement, Emit.statement]
  refine follows_scope ((follows_lift (plain_resolve x)).bind ?_)
  rintro v _ _ ⟨rfl, rfl⟩
  dsimp only
  split
  · refine hi.bind ?_
    rintro _ _ index rfl
    refine follows_write (he.bind ?_)
    rintro _ _ value rfl
    exact follows_write_last (by simp)
  · exact follows_failAt _ _

mutual

theorem follows_statement (hS : S.Lawful) (s : Stmt) : FollowsStmt S sc s := by
  match s with
  | .block t ss =>
    rw [FollowsStmt, statement, Emit.statement]
    exact follows_statements hS ss
  | .cond t c a b =>
    exact follows_cond (follows_expression hS c) (follows_statement hS a) (follows_statement hS b)
  | .loop t c b => exact follows_loop (follows_expression hS c) (follows_statement hS b)
  | .print t e =>
    rw [FollowsStmt, statement, Emit.statement]
    refine (follows_expression hS e).bind ?_
    rintro _ _ code rfl
    exact follows_write_last rfl
  | .assign t x e => exact follows_assign x (follows_expression hS e)
  | .assignElem t x i e =>
    exact follows_assignElem x (follows_expression hS i) (follows_expression hS e)
  | .missing =>
    rw [FollowsStmt, statement, Emit.statement]
    exact follows_failAt _ _

theorem follows_statements (hS : S.Lawful) (ss : List Stmt) :
    FollowsCode sc (statements sc ss) (Emit.statements ss : Emit S Unit) := by
  match ss with
  | [] =>
    rw [statements, Emit.statements]
    exact follows_pure rfl
  | s :: ss =>
    rw [statements, Emit.statements]
    refine (follows_statement hS s).bind ?_
    rintro first _ _ rfl
    exact (follows_statements hS ss).last fun rest _ code h => by rw [h]

end

end Statements

/-! ### Programs -/

section Programs

variable {S : LayoutStore} {sc : Scope}

open Gen

theorem follows_method (hS : S.Lawful) (cls : ClassInfo) (d : MethodDecl) :
    FollowsCode sc (method sc.table cls d) (Emit.method cls d : Emit S Unit) := by
  unfold method Emit.method
  cases cls.ownMethod? d.name.name with
  | none => exact follows_failAt _ _
  | some m =>
    refine Follows.within ((follows_lift (plain_report _)).bind ?_)
    rintro _ _ _ ⟨rfl, rfl⟩
    refine follows_write ((follows_statements hS d.body).bind ?_)
    rintro body _ _ rfl
    refine (follows_expression hS d.result).bind ?_
    rintro _ _ result rfl
    exact follows_write_last (by simp)

theorem follows_methods (hS : S.Lawful) (cls : ClassInfo) (ds : List MethodDecl) :
    FollowsCode sc (methods sc.table cls ds) (Emit.methods cls ds : Emit S Unit) := by
  induction ds with
  | nil => exact follows_pure rfl
  | cons d ds ih =>
    refine (follows_method hS cls d).bind ?_
    rintro first _ _ rfl
    exact ih.last fun rest _ code h => by rw [h]

theorem follows_classes (hS : S.Lawful) (cs : List ClassDecl) :
    FollowsCode sc (classes sc.table cs) (Emit.classes cs : Emit S Unit) := by
  induction cs with
  | nil => exact follows_pure rfl
  | cons c cs ih =>
    rw [classes, Emit.classes]
    refine follows_scope ?_
    cases sc.table.find? c.name.name with
    | none => exact follows_failAt _ _
    | some cls =>
      refine (follows_methods hS cls c.methods).bind ?_
      rintro first _ _ rfl
      exact ih.last fun rest _ code h => by rw [h]

theorem follows_main (hS : S.Lawful) (entry : ClassInfo) (m : MainClass) :
    FollowsCode sc (Gen.main sc.table entry m) (Emit.main entry m : Emit S Unit) := by
  unfold Gen.main Emit.main
  cases entry.ownMethod? ClassTable.mainName with
  | none => exact follows_failAt _ _
  | some info =>
    refine (follows_statements hS m.body).headed _ |>.within.bind ?_
    rintro body _ _ rfl
    exact follows_write_last (by simp)

/-- Labels are given as they are checked, from those that are given already. -/
theorem followsFrom_assignLabels (names : List (Bytes × Ident)) {seen : List (Bytes × Bytes)}
    {g : Generator} {e : Emitter S} (h : Beside sc g e) (hlabels : e.entryLabels = seen) :
    FollowsFrom sc g e (checkLabels seen names) (Emit.assignLabels names)
      fun _ _ code => code = [] := by
  induction names generalizing e seen with
  | nil => exact follows_pure rfl g e h
  | cons name names ih =>
    obtain ⟨className, m⟩ := name
    rw [checkLabels]
    -- both look among the labels so far, which one has as an argument and the other in its state
    cases hseen : seen.lookup (entryLabel className m.name) with
    | some first =>
      refine (followsFrom_failAt h.emitter _ _).of_eq ?_ rfl
      show Emit.andThen _ _ e = _
      simp only [Emit.andThen, Emit.assignLabel, hlabels, hseen]
      rfl
    | none =>
      have hnext : Beside sc g { e with entryLabels :=
          (entryLabel className m.name, className ++ "." ++ m.name) :: seen } :=
        ⟨h.nextLabel, h.scope, h.emitter.layouts, h.emitter.answers⟩
      refine (ih hnext rfl).of_eq ?_ rfl
      show Emit.andThen _ _ e = _
      simp only [Emit.andThen, Emit.assignLabel, hlabels, hseen]

theorem followsFrom_program (hS : S.Lawful) (p : Program) {g : Generator} {e : Emitter S}
    (h : Beside sc g { e with scope := { e.scope with table := sc.table } })
    (hlabels : e.entryLabels = []) :
    FollowsFrom sc g e (program p sc.table) (Emit.program p sc.table)
      fun result _ code => result = code := by
  have hrecalls : e.Recalls sc.table := ⟨h.emitter.layouts, h.emitter.answers⟩
  unfold program Emit.program
  cases p.main with
  | none => exact followsFrom_failAt hrecalls _ _
  | some m =>
    cases sc.table.entry with
    | none => exact followsFrom_failAt hrecalls _ _
    | some entry =>
      refine FollowsFrom.of_eq ((followsFrom_assignLabels (methodNames p) h hlabels).bind ?_) rfl rfl
      rintro _ _ _ rfl
      refine follows_write ((follows_main hS entry m).bind ?_)
      rintro start _ _ rfl
      refine (follows_classes hS p.classes).bind ?_
      rintro others _ _ rfl
      exact follows_write_last (by simp)

/-- An emitter is reset from wherever its last program left it. -/
theorem beside_reset (t : ClassTable) {e : Emitter S} {ops : List StoreOp}
    (he : e.layouts = S.after ops) (g : Generator) :
    Beside { Scope.outside with table := t } g.reset
      { e.reset with scope := { e.reset.scope with table := t } } where
  nextLabel := rfl
  scope := rfl
  emitter := {
    layouts := by
      show S.Holds t (S.purge e.layouts)
      rw [he]
      exact LayoutStore.holds_purge t ops
    answers := nofun }

/-- Whatever an emitter was used for, it yields what a generator yields that was never used. -/
theorem generate_eq (hS : S.Lawful) {e : Emitter S} {ops : List StoreOp}
    (he : e.layouts = S.after ops) (p : Program) (t : ClassTable) :
    (e.generate p t).1 = (Generator.fresh.generate p t).1 ∧ (e.generate p t).2.Recalls t := by
  have hfollows := followsFrom_program hS p (beside_reset t he .fresh) rfl
  unfold FollowsFrom at hfollows
  dsimp only at hfollows
  unfold Emitter.generate Generator.generate
  rcases hg : program p t Generator.fresh.reset with ⟨err | code, g⟩ <;> rw [hg] at hfollows
  · obtain ⟨e', hrun, hrecalls⟩ := hfollows
    rw [hrun]
    exact ⟨rfl, hrecalls⟩
  · obtain ⟨_, _, e', hrun, rfl, hout, hbeside⟩ := hfollows
    rw [hrun]
    exact ⟨congrArg Except.ok hout, hbeside.emitter.layouts, hbeside.emitter.answers⟩

end Programs

/-! ### Programs one after another -/

section Reuse

variable {S : LayoutStore}

theorem generateAll_eq (hS : S.Lawful) (jobs : List (Program × ClassTable)) {e : Emitter S}
    {ops : List StoreOp} (he : e.layouts = S.after ops) :
    List.Forall₂ (fun job outcome =>
      outcome.1 = (Generator.fresh.generate job.1 job.2).1 ∧ outcome.2.Recalls job.2)
      jobs (e.generateAll jobs) := by
  induction jobs generalizing e ops with
  | nil => exact .nil
  | cons job jobs ih =>
    obtain ⟨p, t⟩ := job
    have hfirst := generate_eq hS he p t
    obtain ⟨ops', hops', -⟩ := hfirst.2.layouts
    exact .cons hfirst (ih hops')

theorem compile_eq_of_after (hS : S.Lawful) {e : Emitter S} {ops : List StoreOp}
    (he : e.layouts = S.after ops) (source : Bytes) :
    (e.compile source).1 = compile source ∧ ∃ ops', (e.compile source).2.layouts = S.after ops' := by
  unfold Emitter.compile compile Generator.compile
  rcases analyze source with err | ⟨p, t⟩
  · exact ⟨rfl, ops, he⟩
  · obtain ⟨hresult, hrecalls⟩ := generate_eq hS he p t
    obtain ⟨ops', hops', -⟩ := hrecalls.layouts
    dsimp only
    generalize e.generate p t = outcome at hresult hops' ⊢
    generalize Generator.fresh.generate p t = outcome' at hresult ⊢
    obtain ⟨result, e'⟩ := outcome
    obtain ⟨_, g'⟩ := outcome'
    obtain rfl := hresult
    cases result with
    | error err => exact ⟨rfl, ops', hops'⟩
    | ok text => exact ⟨rfl, ops', hops'⟩

/-- Sources that are given to one emitter one after another are compiled as each one alone. -/
theorem compileAll_eq_map (hS : S.Lawful) (sources : List Bytes) :
    (Emitter.new S).compileAll sources = sources.map compile := by
  have hall : ∀ (e : Emitter S) (ops : List StoreOp), e.layouts = S.after ops →
      e.compileAll sources = sources.map compile := by
    induction sources with
    | nil => exact fun _ _ _ => rfl
    | cons source rest ih =>
      intro e ops he
      obtain ⟨hfirst, ops', hops'⟩ := compile_eq_of_after hS he source
      exact congrArg₂ List.cons hfirst (ih _ ops' hops')
  exact hall (Emitter.new S) [] rfl

/-- Programs that are given to one emitter one after another, whether they can be compiled or not,
are each treated as by an emitter of their own, the way a generator treats them, and all that the
emitter is told about the layout of a class is what the class table says. -/
theorem reused_emitter_like_new (hS : S.Lawful) (jobs : List (Program × ClassTable)) :
    List.Forall₂ (fun job outcome =>
      outcome.1 = ((Emitter.new S).generate job.1 job.2).1 ∧
        outcome.1 = (Generator.fresh.generate job.1 job.2).1 ∧
        ∀ answer ∈ outcome.2.answers, answer.2 = ⟨answer.1.tag, job.2.fieldCount answer.1⟩)
      jobs ((Emitter.new S).generateAll jobs) := by
  have hnew : (Emitter.new S).layouts = S.after [] := rfl
  refine (generateAll_eq hS jobs hnew).imp ?_
  rintro ⟨p, t⟩ outcome ⟨hresult, hrecalls⟩
  have hfresh := (generate_eq hS hnew p t).1
  exact ⟨hresult.trans hfresh.symm, hresult, hrecalls.answers⟩

/-- A program that is given up after an object of a class with one field. -/
def abandoned : Bytes :=
  "class M\x7bpublic static void main(String[]a)\x7bSystem.out.println(new A().f(b));\x7d\x7d" ++
    "class A\x7bint x;public int f(int n)\x7breturn n;\x7d\x7d"

/-- A program in which the class of that name is the second one and has two fields. -/
def successor : Bytes :=
  "class M\x7bpublic static void main(String[]a)\x7bSystem.out.println(new A().f(1));\x7d\x7d" ++
    "class B\x7b\x7dclass A\x7bint x;int y;public int f(int n)\x7breturn n;\x7d\x7d"

theorem reused_emitter_like_new_after_failure :
    let jobs := [abandoned, successor].filterMap fun source => (analyze source).toOption
    let outcomes := (Emitter.new .lru).generateAll jobs
    outcomes.map (fun outcome => (outcome.1.toOption.isSome, outcome.2.answers.map (·.2))) =
        [(false, [⟨1, 1⟩]), (true, [⟨2, 2⟩])] ∧
      List.Forall₂ (fun job outcome =>
        outcome.1 = ((Emitter.new .lru).generate job.1 job.2).1 ∧
          outcome.1 = (Generator.fresh.generate job.1 job.2).1 ∧
          ∀ answer ∈ outcome.2.answers, answer.2 = ⟨answer.1.tag, job.2.fieldCount answer.1⟩)
        jobs outcomes :=
  ⟨by decide +kernel, reused_emitter_like_new LayoutStore.lawful_lru _⟩

end Reuse

end MiniJava
