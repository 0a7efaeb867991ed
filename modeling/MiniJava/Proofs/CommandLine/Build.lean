import MiniJava.Plain
import MiniJava.Proofs.CommandLine.Tree

/-!
# What building does to files

Building a source fails and leaves all files as they are, or it succeeds and one file is written,
with the assembly of the source.  When no output path is set, that file has the path of the source
with another last name, in the same directory.

* **`Session.KeepsFiles`** — a session that writes no file; `Session.Answers`: one that only looks
  at the world.
* **`Builds`** — arguments that a toolkit takes to the build of a source.
* **`NoOutput`** — no output path is set.
* **`answers_setup`**, **`compilePath_runIn`**, **`buildPath_runIn`** — what the parts of a build
  come to.
* **`build_writes_beside`** — what a build does to the files, from its arguments on, with any
  toolkit and any files; `build_replaces_source`: the file that is written can be the source.
-/

namespace MiniJava.CommandLine

variable {F : FileSystem}

/-! ### Sessions in a world -/

namespace Session

section

variable {α β : Type} {w : World F}

theorem runIn_bind (x : Session α) (f : α → Session β) (w : World F) :
    (x >>= f).runIn w = (f (x.runIn w).1).runIn (x.runIn w).2 := runIn_andThen x f w

@[simp] theorem runIn_pure (a : α) : (pure a : Session α).runIn w = (a, w) := rfl

@[simp] theorem runIn_say (text : Bytes) :
    (say text).runIn w = ((), { w with output := w.output ++ text }) := rfl

@[simp] theorem runIn_complain (text : Bytes) :
    (complain text).runIn w = ((), { w with errors := w.errors ++ text }) := rfl

@[simp] theorem runIn_contentOf (path : Bytes) :
    (contentOf path).runIn w = (F.read w.files path, w) := rfl

@[simp] theorem runIn_store (path text : Bytes) :
    (store path text).runIn w =
      ((F.write w.files path text).1, { w with files := (F.write w.files path text).2 }) := rfl

/-- The session leaves all files as they are. -/
def KeepsFiles (F : FileSystem) (x : Session α) : Prop :=
  ∀ w : World F, (x.runIn w).2.files = w.files

theorem keepsFiles_pure (a : α) : KeepsFiles F (pure a) := fun _ => rfl

theorem keepsFiles_complain (text : Bytes) : KeepsFiles F (complain text) := fun _ => rfl

theorem KeepsFiles.bind {x : Session α} {f : α → Session β} (hx : KeepsFiles F x)
    (hf : ∀ a, KeepsFiles F (f a)) : KeepsFiles F (x >>= f) := by
  intro w
  rw [runIn_bind, hf, hx]

/-- The session leaves the world as it is, and its result is such as `P` asks for. -/
def Answers (x : Session α) (w : World F) (P : α → Prop) : Prop := ∃ a, x.runIn w = (a, w) ∧ P a

theorem answers_pure {P : α → Prop} {a : α} (h : P a) : (pure a : Session α).Answers w P :=
  ⟨a, rfl, h⟩

theorem answers_variableOf {P : Option Bytes → Prop} {name : Bytes}
    (h : P (w.environment name)) : (variableOf name).Answers w P := ⟨_, rfl, h⟩

theorem answers_contentOf {P : Except PathError Bytes → Prop} {path : Bytes}
    (h : P (F.read w.files path)) : (contentOf path).Answers w P := ⟨_, rfl, h⟩

theorem Answers.bind {P : α → Prop} {Q : β → Prop} {x : Session α} {f : α → Session β}
    (hx : x.Answers w P) (hf : ∀ a, P a → (f a).Answers w Q) : (x >>= f).Answers w Q := by
  obtain ⟨a, ha, hP⟩ := hx
  obtain ⟨b, hb, hQ⟩ := hf a hP
  exact ⟨b, by rw [runIn_bind, ha, hb], hQ⟩

end

end Session

/-! ### What is asked of a toolkit -/

variable {kit : Toolkit}

/-- The text of a variable that is not set, or empty, is the one that is given. -/
def VariableReader.LeavesUnset (read : VariableReader) : Prop :=
  ∀ value s, value.getD [] = [] → read.text value s = s

/-- The toolkit takes the arguments to the build of the source at a path.  What holds for the
command is found out from the flags in `front` first; if that fails, it is said how the commands are
used, and the failure is handed on. -/
structure Builds (kit : Toolkit) (args : List Bytes) (path : Bytes) (front inv : Invocation) :
    Prop where
  run : ∃ usage, kit.run (app kit) args = do
    match ← (app kit).before front with
    | .error e =>
        Session.say usage
        return .returned (.error e)
    | .ok c => return .returned (← build kit c inv)
  source : inv.args.head? = some path

/-- No output path is set: not by flags in front of the command or behind it, not in the
environment, and not in the file of settings, if one is named.  An empty path is none. -/
structure NoOutput (kit : Toolkit) (w : World F) (front inv : Invocation) : Prop where
  flag : inv.isSet "output" = true → inv.text "output" = []
  globalFlag : inv.globalIsSet "output" = true → inv.globalText "output" = []
  environment : (w.environment Setting.output.variableName).getD [] = []
  file : front.globalText "config" ≠ [] → ∀ content s,
    F.read w.files (front.globalText "config") = .ok content →
      kit.decode Settings.keys content .default = .ok s → s.output = []

/-! ### Settings without an output path -/

/-- Settings without an output path, or a failure. -/
def Unset (r : Except Failure Settings) : Prop := ∀ s, r = .ok s → s.output = []

namespace Settings

/-- Only the variable of the output path changes it. -/
theorem output_overlayOne (hvariables : kit.variableReader.LeavesUnset) {s : Settings}
    {x : Setting} {value : Option Bytes} (h : x = .output → value.getD [] = []) :
    (s.overlayOne kit x value).output = s.output := by
  by_cases hx : x = .output
  · subst hx
    exact hvariables value s.output (h rfl)
  · exact SettingValue.text.inj (get_change_ne s _ _ _ (Ne.symm hx))

/-- An environment without an output path leaves that as it is. -/
theorem answers_overlay (hvariables : kit.variableReader.LeavesUnset) {w : World F}
    (h : (w.environment Setting.output.variableName).getD [] = []) (s : Settings)
    (xs : List Setting) : (s.overlay kit xs).Answers w fun t => t.output = s.output := by
  induction xs generalizing s with
  | nil => exact Session.answers_pure rfl
  | cons x xs ih =>
    refine Session.Answers.bind
      (Session.answers_variableOf (P := (· = w.environment x.variableName)) rfl) ?_
    rintro _ rfl
    have hhead : (s.overlayOne kit x (w.environment x.variableName)).output = s.output :=
      output_overlayOne hvariables fun hx => hx ▸ h
    rw [← hhead]
    exact ih _

/-- A file without an output path is read, or it is said why it cannot be. -/
theorem answers_load {w : World F} {path : Bytes}
    (h : ∀ content s, F.read w.files path = .ok content →
      kit.decode keys content .default = .ok s → s.output = []) :
    (load kit path .default).Answers w Unset := by
  refine Session.Answers.bind
    (Session.answers_contentOf (P := (· = F.read w.files path)) rfl) ?_
  rintro _ hread
  split
  · exact Session.answers_pure nofun
  rename_i content
  split
  · rename_i s hdecode
    refine Session.answers_pure ?_
    rintro _ ⟨⟩
    exact h content s hread.symm hdecode
  · exact Session.answers_pure nofun
  · exact Session.answers_pure nofun

end Settings

/-- The same for a file that need not be named. -/
theorem answers_fileSettings {w : World F} {path : Bytes}
    (h : path ≠ [] → ∀ content s, F.read w.files path = .ok content →
      kit.decode Settings.keys content .default = .ok s → s.output = []) :
    (fileSettings kit path).Answers w Unset := by
  unfold fileSettings
  split
  · refine Session.answers_pure ?_
    rintro _ ⟨⟩
    rfl
  · rename_i hpath
    exact Settings.answers_load (h (List.isEmpty_iff.not.mp hpath))

/-- Settings without an output path are made, or it is said that they cannot be. -/
theorem answers_makeSettings (hvariables : kit.variableReader.LeavesUnset) {w : World F}
    {front inv : Invocation} (h : NoOutput kit w front inv) :
    (makeSettings kit front).Answers w Unset := by
  refine Session.Answers.bind (answers_fileSettings h.file) ?_
  rintro (e | s) hs
  · exact Session.answers_pure nofun
  refine Session.Answers.bind (Settings.answers_overlay hvariables h.environment s Setting.all) ?_
  intro t ht
  refine Session.answers_pure ?_
  rintro _ ⟨⟩
  exact ht.trans (hs s rfl)

/-- What holds for a command is found out, and no output path is set there; or it is said that it
cannot be. -/
theorem answers_setup (hvariables : kit.variableReader.LeavesUnset) {w : World F}
    {front inv : Invocation} (h : NoOutput kit w front inv) :
    (setup kit front).Answers w fun r => ∀ c, r = .ok c → c.settings.output = [] := by
  refine Session.Answers.bind (answers_makeSettings hvariables h) ?_
  rintro (e | s) hs
  · exact Session.answers_pure nofun
  dsimp only
  split
  · refine Session.answers_pure ?_
    rintro _ ⟨⟩
    exact hs s rfl
  · exact Session.answers_pure nofun

/-- Without a flag for it and without one in the settings there is no output path. -/
theorem chosenOutput_eq_nil {w : World F} {front inv : Invocation} (h : NoOutput kit w front inv)
    {s : Settings} (hs : s.output = []) : chosenOutput s inv = [] := by
  unfold chosenOutput
  split
  · exact h.flag ‹_›
  split
  · exact h.globalFlag ‹_›
  · exact hs

/-! ### Compiling a source -/

theorem compileSource_keepsFiles (c : Context) (name source : Bytes) :
    (compileSource kit c name source).KeepsFiles F := by
  unfold compileSource
  refine (Session.keepsFiles_complain _).bind fun _ => ?_
  split
  · exact Session.keepsFiles_pure _
  · exact (Session.keepsFiles_complain _).bind fun _ => Session.keepsFiles_pure _

theorem compileSource_result (kit : Toolkit) (c : Context) (name source : Bytes) (w : World F) :
    ((compileSource kit c name source).runIn w).1 =
      match compile source with
      | .ok code => .ok code
      | .error _ => .error .rejected := by
  unfold compileSource compile
  cases Generator.fresh.compile source with
  | mk result g => cases result <;> rfl

/-- The assembly of the source at a path, or else the reason why there is none; all files are left
as they are. -/
theorem compilePath_runIn (kit : Toolkit) (c : Context) {path : Bytes} (hpath : path ≠ inputPath)
    (w : World F) :
    ((compilePath kit c path).runIn w).2.files = w.files ∧
      ∀ code, ((compilePath kit c path).runIn w).1 = .ok code →
        ∃ source, F.read w.files path = .ok source ∧ compile source = .ok code := by
  have hstdin : ¬ (path == inputPath) = true := by simpa using hpath
  unfold compilePath readSource
  rw [if_neg hstdin]
  simp only [Session.runIn_bind, Session.runIn_contentOf]
  cases hread : F.read w.files path with
  | error e => exact ⟨rfl, nofun⟩
  | ok source =>
    refine ⟨compileSource_keepsFiles c path source w, fun code hcode => ⟨source, rfl, ?_⟩⟩
    have hresult := compileSource_result kit c path source w
    cases hcompile : compile source with
    | error e =>
      rw [hcompile] at hresult
      cases hresult.symm.trans hcode
    | ok code' =>
      rw [hcompile] at hresult
      obtain rfl := Except.ok.inj (hresult.symm.trans hcode)
      rfl

/-! ### Building -/

/-- What a build of the source at a path comes to, and what becomes of the files. -/
inductive Built (F : FileSystem) (path : Bytes) (s : F.State) : Result → F.State → Prop where
  /-- Nothing is written. -/
  | failed (e : Failure) : Built F path s (.error e) s
  /-- The assembly cannot be written. -/
  | refused (e : Failure) (code : Bytes) (reason : PathError)
      (write : (F.write s (outputPath path) code).1 = .error reason) :
      Built F path s (.error e) (F.write s (outputPath path) code).2
  | written (source code : Bytes) (read : F.read s path = .ok source)
      (compiled : compile source = .ok code)
      (write : (F.write s (outputPath path) code).1 = .ok ()) :
      Built F path s (.ok ()) (F.write s (outputPath path) code).2

theorem writeCode_runIn (kit : Toolkit) (c : Context) (path code : Bytes) (w : World F) :
    ((writeCode kit c path code).runIn w).1 =
        (F.write w.files path code).1.mapError Failure.output ∧
      ((writeCode kit c path code).runIn w).2.files = (F.write w.files path code).2 := by
  unfold writeCode
  simp only [Session.runIn_bind, Session.runIn_store]
  cases (F.write w.files path code).1 with
  | error e => exact ⟨rfl, rfl⟩
  | ok u => exact ⟨rfl, rfl⟩

theorem buildPath_runIn {c : Context} {inv : Invocation} {path : Bytes} (hpath : path ≠ inputPath)
    (houtput : chosenOutput c.settings inv = []) (w : World F) :
    Built F path w.files ((buildPath kit c inv path).runIn w).1
      ((buildPath kit c inv path).runIn w).2.files := by
  obtain ⟨hfiles, hcode⟩ := compilePath_runIn kit c hpath w
  rw [buildPath, Session.runIn_bind]
  generalize hr : ((compilePath kit c path).runIn w).1 = r at hcode
  generalize ((compilePath kit c path).runIn w).2 = w' at hfiles
  cases r with
  | error e =>
    rw [← hfiles]
    exact .failed e
  | ok code =>
    obtain ⟨source, hread, hcompile⟩ := hcode code rfl
    simp only [houtput, List.isEmpty_nil, Bool.not_true, Bool.false_eq_true, if_false,
      beq_iff_eq, if_neg hpath]
    obtain ⟨hresult, hwritten⟩ := writeCode_runIn kit c (outputPath path) code w'
    rw [hresult, hwritten, hfiles]
    cases hwrite : (F.write w.files (outputPath path) code).1 with
    | error e => exact .refused _ code e hwrite
    | ok u => exact .written source code hread hcompile hwrite

/-- Arguments that are taken to a build lead to one. -/
theorem Builds.runIn {args : List Bytes} {path : Bytes} {front inv : Invocation} {w : World F}
    (h : Builds kit args path front inv) (hvariables : kit.variableReader.LeavesUnset)
    (hpath : path ≠ inputPath) (hnone : NoOutput kit w front inv) :
    ∃ r, ((kit.run (app kit) args).runIn w).1 = .returned r ∧
      Built F path w.files r ((kit.run (app kit) args).runIn w).2.files := by
  obtain ⟨usage, hrun⟩ := h.run
  obtain ⟨r, hr, houtput⟩ := answers_setup hvariables hnone
  rw [hrun, Session.runIn_bind, show (app kit).before = setup kit from rfl, hr]
  cases r with
  | error e => exact ⟨.error e, rfl, .failed e⟩
  | ok c =>
    have hbuild : build kit c inv = buildPath kit c inv path := by
      obtain ⟨rest, hargs⟩ := List.head?_eq_some_iff.mp h.source
      simp only [build, hargs]
    simp only [Session.runIn_bind, Session.runIn_pure, hbuild]
    exact ⟨_, rfl, buildPath_runIn hpath (chosenOutput_eq_nil hnone (houtput c rfl)) w⟩

theorem report_keepsFiles (e : Failure) : e.report.KeepsFiles F := by
  unfold Failure.report
  split
  · exact Session.keepsFiles_complain _
  · exact Session.keepsFiles_pure _

/-- The exit code says how the run of a toolkit ended, and what is said about that touches no
file. -/
theorem session_runIn {args : List Bytes} {w : World F} {r : Result}
    (h : ((kit.run (app kit) args).runIn w).1 = .returned r) :
    ((session kit args).runIn w).1 = (if r = .ok () then 0 else 1) ∧
      ((session kit args).runIn w).2.files =
        ((kit.run (app kit) args).runIn w).2.files := by
  rw [session, Session.runIn_bind, h]
  cases r with
  | ok u => exact ⟨rfl, rfl⟩
  | error e =>
    simp only [Session.runIn_bind, Session.runIn_pure, report_keepsFiles e _]
    exact ⟨rfl, trivial⟩

/-- A build with no output path set fails and leaves all files as they are, or it succeeds and one
file is written: the one with the name of the assembly, where the path of the source leads.  The
content of that file is the assembly of the source.  If the path of the source ends in `.s`, it is
the file of the source; and if there are no links, only then. -/
theorem build_writes_beside {args : List Bytes} {path : Bytes} {front inv : Invocation}
    {w : World F} (hwrites : F.WritesOnly (outputPath path))
    (hvariables : kit.variableReader.LeavesUnset) (hbuilds : Builds kit args path front inv)
    (hpath : path ≠ inputPath) (hnone : NoOutput kit w front inv) :
    let after := (session kit args).runIn w
    (after.1 = 1 ∧ ∀ f, F.content? after.2.files f = F.content? w.files f) ∨
      after.1 = 0 ∧ ∃ dir name source code output,
        path = dir ++ name ∧ IsFront dir ∧ '/'.toUInt8 ∉ name ∧
        F.read w.files path = .ok source ∧ compile source = .ok code ∧
        F.file? after.2.files (dir ++ outputPath name) = some output ∧
        F.content? after.2.files output = some code ∧
        (∀ f, f ≠ output → F.content? after.2.files f = F.content? w.files f) ∧
        (utf8 ".s" <:+ path → ∀ input, F.file? w.files path = some input → output = input) ∧
        (F.NoLinks → F.file? w.files path = some output → utf8 ".s" <:+ path) := by
  intro after
  obtain ⟨r, hr, hbuilt⟩ := hbuilds.runIn hvariables hpath hnone
  obtain ⟨hcode, hfiles⟩ := session_runIn hr
  rw [← hfiles] at hbuilt
  change Built F path w.files r after.2.files at hbuilt
  change after.1 = _ at hcode
  generalize after.2.files = files at hbuilt ⊢
  cases hbuilt with
  | failed e => exact .inl ⟨hcode, fun _ => rfl⟩
  | refused e code reason hwrite => exact .inl ⟨hcode, hwrites.failed _ _ _ hwrite⟩
  | written source code hread hcompile hwrite =>
    obtain ⟨dir, name, rfl, hdir, hname⟩ := exists_front_name path
    obtain ⟨output, hbefore, houtput, htext, hothers⟩ := hwrites.replaced _ _ hwrite
    refine .inr ⟨hcode, dir, name, source, code, output, rfl, hdir, hname, hread, hcompile, ?_,
      htext, hothers, fun hsuffix input hinput => ?_, fun hlinks hinput => ?_⟩
    · rw [← outputPath_append hdir hname]
      exact houtput
    · -- the path of the assembly is the path of the source
      rw [outputPath_eq_self_iff.mpr hsuffix] at hbefore
      exact (hbefore input hinput).symm
    · -- two names in one directory lead to one file, so they are the same name
      have hkept := hlinks.kept _ (outputPath (dir ++ name)) code _ _ hinput
      generalize (F.write w.files (outputPath (dir ++ name)) code).2 = files at houtput hkept
      rw [outputPath_append hdir hname] at houtput
      have hsame : outputPath name = name :=
        hlinks.apart _ _ _ _ _ hdir (slash_not_mem_outputPath hname) hname houtput hkept
      rw [← outputPath_eq_self_iff, outputPath_append hdir hname, hsame]

end MiniJava.CommandLine

/-! ### The plain toolkit -/

namespace MiniJava.Plain

open CommandLine

theorem variables_leavesUnset : Toolkit.plain.variableReader.LeavesUnset := by
  intro value s h
  have hsaid : Variables.said? value = none := by
    cases value with
    | none => rfl
    | some v =>
      obtain rfl : v = [] := h
      rfl
  show (Variables.said? value).getD s = s
  rw [hsaid]
  rfl

/-- What is no flag does not look like one. -/
theorem looksLikeFlag_of_plain {s : Bytes} (h : Argument.of s = .plain) :
    looksLikeFlag s = false ∧ s ≠ "--" := by
  match s, h with
  | [], _ => exact ⟨rfl, by decide⟩
  | [c], _ =>
    refine ⟨?_, fun hs => by cases congrArg List.length hs⟩
    by_cases hc : c = '-'.toUInt8
    · subst hc
      decide
    · simp [looksLikeFlag, hc]
  | a :: b :: rest, h =>
    have ha : a ≠ '-'.toUInt8 := by
      rintro rfl
      revert h
      unfold Argument.of Argument.ofBody
      grind
    refine ⟨by simp [looksLikeFlag, ha], fun hs => ha (List.head_eq_of_cons_eq hs)⟩

/-- A single argument that is no flag stays where it is. -/
theorem flagsFirst_of_plain {s : Bytes} (h : Argument.of s = .plain) : flagsFirst [s] = [s] := by
  obtain ⟨hflag, hend⟩ := looksLikeFlag_of_plain h
  simp [flagsFirst, hflag, hend]

/-- What is learned from the arguments in front, when there are no flags. -/
def frontOf (path : Bytes) : Invocation :=
  let globals : Given := ⟨[], ["build", path]⟩
  invocation AppInfo.compiler.flags globals AppInfo.compiler.flags globals

/-- What a build learns, when there are no flags. -/
def invocationOf (path : Bytes) : Invocation :=
  invocation AppInfo.compiler.flags ⟨[], ["build", path]⟩ CommandInfo.build.flags ⟨[], [path]⟩

/-- The plain toolkit takes the command of that name to a build. -/
theorem builds {path : Bytes} (h : Argument.of path = .plain) :
    Builds .plain ["build", path] path (frontOf path) (invocationOf path) where
  run := by
    refine ⟨appUsage .compiler, ?_⟩
    have hbehind : Given.read (formsOf CommandInfo.build.flags) [path] = .ok ⟨[], [path]⟩ := by
      simp only [Given.read, Given.scan, h]
      rfl
    show Session.andThen ((app .plain).before (frontOf path)) _ = Session.andThen _ _
    refine congrArg _ (funext fun r => ?_)
    cases r with
    | error e => rfl
    | ok c =>
      show runCommand (app .plain) ⟨[], ["build", path]⟩ c .build [path] = _
      unfold runCommand
      rw [flagsFirst_of_plain h, hbehind]
      rfl
  source := rfl

/-- A world of the plain toolkit in which there is nothing but one file, and nothing is set. -/
def worldOf (here p : Path) (content : Bytes) : World Tree.fileSystem :=
  .fresh (Tree.holding here [(p, content)]) (fun _ => none) []
    fun path _ => .error (.unavailable path [])

/-- Without flags, variables and files of settings no output path is set. -/
theorem noOutput (here p : Path) (content path : Bytes) :
    NoOutput .plain (worldOf here p content) (frontOf path) (invocationOf path) where
  flag := nofun
  globalFlag := nofun
  environment := rfl
  file := fun h => absurd rfl h

end MiniJava.Plain

namespace MiniJava.CommandLine

/-- A program that does nothing. -/
def idle : Bytes := "class A\x7bpublic static void main(String[] a)\x7b\x7d\x7d"

/-- A path through the directory above the working directory, to a source in a directory with a dot
in its name. -/
def detour : Bytes := "../a.b//T.java"

theorem build_writes_beside_detour :
    let w := Plain.worldOf ["work"] ["a.b", "T.java"] idle
    let after := (session .plain ["build", detour]).runIn w
    Tree.fileSystem.WritesOnly (outputPath detour) ∧ Toolkit.plain.variableReader.LeavesUnset ∧
      Builds .plain ["build", detour] detour (Plain.frontOf detour) (Plain.invocationOf detour) ∧
      detour ≠ inputPath ∧
      NoOutput .plain w (Plain.frontOf detour) (Plain.invocationOf detour) ∧
      ∃ code, compile idle = .ok code ∧
        Tree.fileSystem.content? after.2.files [utf8 "a.b", utf8 "T.s"] = some code ∧
        Tree.fileSystem.content? after.2.files [utf8 "a.b", utf8 "T.java"] = some idle := by
  intro w
  have hwrites : Tree.fileSystem.WritesOnly (outputPath detour) := Tree.writesOnly (by decide)
  have hbuilds : Builds .plain _ detour _ _ := Plain.builds (by decide)
  have hpath : detour ≠ inputPath := by decide
  have hnone : NoOutput .plain w (Plain.frontOf detour) (Plain.invocationOf detour) :=
    Plain.noOutput ["work"] ["a.b", "T.java"] idle detour
  have hidle : (Tree.fileSystem.read w.files detour).toOption = some idle := by decide +kernel
  have hbefore : Tree.fileSystem.content? w.files [utf8 "a.b", utf8 "T.java"] = some idle := by
    decide +kernel
  have hafter : let after := (session .plain ["build", detour]).runIn w
      after.1 = 0 ∧ Tree.fileSystem.file? after.2.files (outputPath detour) =
        some [utf8 "a.b", utf8 "T.s"] := by decide +kernel
  refine ⟨hwrites, Plain.variables_leavesUnset, hbuilds, hpath, hnone, ?_⟩
  have hbuilt := build_writes_beside hwrites Plain.variables_leavesUnset hbuilds hpath hnone
  -- what the session did is known by now, and need not be worked out again
  generalize (session .plain ["build", detour]).runIn w = after at hafter hbuilt ⊢
  obtain ⟨hexit, hplace⟩ := hafter
  obtain ⟨hfailed, -⟩ | ⟨-, dir, name, source, code, output, hdetour, hdir, hname, hread, hcompile,
    houtput, hwritten, hothers, -⟩ := hbuilt
  · cases hexit.symm.trans hfailed
  · rw [hread] at hidle
    obtain rfl := Option.some.inj hidle
    rw [← outputPath_append hdir hname, ← hdetour] at houtput
    obtain rfl := Option.some.inj (houtput.symm.trans hplace)
    exact ⟨code, hcompile, hwritten, (hothers _ (by decide)).trans hbefore⟩

/-- A source that is called like an assembly is replaced by its own assembly. -/
theorem build_replaces_source :
    let w := Plain.worldOf ["work"] ["work", "a.s"] idle
    let outcome := (session .plain ["build", "a.s"]).runIn w
    Tree.fileSystem.WritesOnly (outputPath "a.s") ∧ Toolkit.plain.variableReader.LeavesUnset ∧
      Builds .plain ["build", "a.s"] "a.s" (Plain.frontOf "a.s") (Plain.invocationOf "a.s") ∧
      utf8 "a.s" ≠ inputPath ∧
      NoOutput .plain w (Plain.frontOf "a.s") (Plain.invocationOf "a.s") ∧
      Tree.fileSystem.file? w.files "a.s" = some [utf8 "work", utf8 "a.s"] ∧
      Tree.fileSystem.content? w.files [utf8 "work", utf8 "a.s"] = some idle ∧
      outcome.1 = 0 ∧
      Tree.fileSystem.content? outcome.2.files [utf8 "work", utf8 "a.s"] ≠ some idle := by
  intro w outcome
  refine ⟨Tree.writesOnly (by decide), Plain.variables_leavesUnset, Plain.builds (by decide),
    by decide, Plain.noOutput _ _ _ _, rfl, rfl, ?_⟩
  decide +kernel

end MiniJava.CommandLine
