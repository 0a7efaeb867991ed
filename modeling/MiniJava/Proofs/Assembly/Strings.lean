import MiniJava.Proofs.Assembly.Effects

/-!
# String data

A line of string data passes through four scanners: one looks for the remark, one for labels, one
for the directive, and one undoes the escapes.  All of them find the literal where it was written,
whatever bytes its string has.

* **`Literal.unescape_escape`**, **`Literal.read_quoted`** — what was escaped is read back.
* **`remarkStart_escape`** — an escaped string neither ends the literal nor starts a remark.
* **`DataString`** — a labelled string with a remark.
* **`step_write_string`**, **`steps_strings`** — reading such lines adds the strings and their labels.
* **`assemble_strings`** — the image of strings with code after them.
-/

namespace MiniJava

/-! ### Escapes -/

namespace Literal

/-- A byte is written as an escape that stands for it, or it has no meaning in a literal and stands
for itself. -/
theorem escapeByte_cases (c : UInt8) :
    (∃ e, escapeByte c = ['\\'.toUInt8, e] ∧ unescapeByte? e = some c ∧ e ≠ '\n'.toUInt8) ∨
      (escapeByte c = [c] ∧ c ≠ '\\'.toUInt8 ∧ c ≠ '"'.toUInt8 ∧ c ≠ '\n'.toUInt8) := by
  unfold escapeByte
  split
  · rename_i hc
    obtain rfl := beq_iff_eq.mp hc
    exact .inl ⟨'n'.toUInt8, rfl, by decide, by decide⟩
  split
  · rename_i hc
    obtain rfl := beq_iff_eq.mp hc
    exact .inl ⟨'t'.toUInt8, rfl, by decide, by decide⟩
  split
  · rename_i hc
    obtain rfl := beq_iff_eq.mp hc
    exact .inl ⟨'0'.toUInt8, rfl, by decide, by decide⟩
  split
  · rename_i hc
    obtain rfl := beq_iff_eq.mp hc
    exact .inl ⟨'\\'.toUInt8, rfl, by decide, by decide⟩
  split
  · rename_i hc
    obtain rfl := beq_iff_eq.mp hc
    exact .inl ⟨'"'.toUInt8, rfl, by decide, by decide⟩
  · rename_i hfeed _ _ hback hquote
    exact .inr ⟨rfl, by simpa using hback, by simpa using hquote, by simpa using hfeed⟩

theorem escape_cons (c : UInt8) (s : Bytes) : escape (c :: s) = escapeByte c ++ escape s := rfl

/-- A string is written on one line. -/
theorem newline_not_mem_escape (s : Bytes) : '\n'.toUInt8 ∉ escape s := by
  induction s with
  | nil => simp [escape]
  | cons c s ih =>
    rw [escape_cons]
    rcases escapeByte_cases c with ⟨e, he, -, hfeed⟩ | ⟨he, -, -, hfeed⟩
    · rw [he]
      simp only [List.cons_append, List.nil_append, List.mem_cons, not_or]
      exact ⟨by decide, hfeed.symm, ih⟩
    · rw [he]
      simp only [List.cons_append, List.nil_append, List.mem_cons, not_or]
      exact ⟨hfeed.symm, ih⟩

theorem unescape_cons_of_ne {c : UInt8} (hc : c ≠ '\\'.toUInt8) (whole s : Bytes) :
    unescape whole (c :: s) = (unescape whole s).map (c :: ·) := by
  cases s with
  | nil =>
    simp [unescape, hc]
    rfl
  | cons d s =>
    rw [unescape, if_neg (by simpa using hc)]
    cases unescape whole (d :: s) <;> rfl

/-- What was escaped is read back. -/
theorem unescape_escape (whole s : Bytes) : unescape whole (escape s) = .ok s := by
  induction s with
  | nil => rfl
  | cons c s ih =>
    rw [escape_cons]
    rcases escapeByte_cases c with ⟨e, he, hread, -⟩ | ⟨he, hback, -, -⟩
    · rw [he]
      show unescape whole ('\\'.toUInt8 :: e :: escape s) = _
      rw [unescape, if_pos (by decide), hread, ih]
      rfl
    · rw [he, List.singleton_append, unescape_cons_of_ne hback, ih]
      rfl

/-- A string between quotes. -/
def quoted (s : Bytes) : Bytes := '"'.toUInt8 :: (escape s ++ ['"'.toUInt8])

theorem head?_quoted (s : Bytes) : (quoted s).head? = some '"'.toUInt8 := rfl

theorem getLast?_quoted (s : Bytes) : (quoted s).getLast? = some '"'.toUInt8 := by
  rw [quoted, ← List.cons_append, List.getLast?_append]
  rfl

theorem trim_quoted (s : Bytes) : (quoted s).trim = quoted s := by
  apply trim_eq_self
  · intro c hc
    obtain rfl := Option.some.inj ((head?_quoted s).symm.trans hc)
    decide
  · intro c hc
    obtain rfl := Option.some.inj ((getLast?_quoted s).symm.trans hc)
    decide

/-- A string between quotes is read as what it is. -/
theorem read_quoted (s : Bytes) : read (quoted s) = .ok s := by
  obtain ⟨d, rest, hrest⟩ : ∃ d rest, escape s ++ ['"'.toUInt8] = d :: rest :=
    List.exists_cons_of_ne_nil (by simp)
  have hlast : (d :: rest).getLast? = some '"'.toUInt8 := by
    rw [← hrest, List.getLast?_append]
    rfl
  have hinner : (d :: rest).dropLast = escape s := by
    rw [← hrest, List.dropLast_concat]
  unfold read
  rw [trim_quoted, quoted, hrest]
  simp only [hlast, hinner]
  exact unescape_escape _ s

end Literal

namespace Assembler

/-! ### Lines of string data -/

/-- A string neither ends its literal nor starts a remark in it. -/
theorem remarkStart_escape (s : Bytes) (n : Nat) (r : Bytes) :
    remarkStart true n (Literal.escape s ++ r) =
      remarkStart true (n + (Literal.escape s).length) r := by
  induction s generalizing n with
  | nil => rfl
  | cons c s ih =>
    rw [Literal.escape_cons, List.append_assoc, List.length_append]
    rcases Literal.escapeByte_cases c with ⟨e, he, -, -⟩ | ⟨he, hback, hquote, -⟩
    · have hskip : remarkStart true n ('\\'.toUInt8 :: e :: (Literal.escape s ++ r)) =
          remarkStart true (n + 2) (Literal.escape s ++ r) := by
        rw [remarkStart.eq_def]
        simp
      rw [he]
      exact hskip.trans ((ih (n + 2)).trans (by
        rw [show [('\\'.toUInt8 : UInt8), e].length = 2 from rfl]
        congr 1
        omega))
    · have hnext : remarkStart true n (c :: (Literal.escape s ++ r)) =
          remarkStart true (n + 1) (Literal.escape s ++ r) := by
        rw [remarkStart.eq_def]
        simp [hback, hquote]
      rw [he]
      exact hnext.trans ((ih (n + 1)).trans (by
        rw [show [c].length = 1 from rfl]
        congr 1
        omega))

/-- A labelled string, and what is remarked on its line. -/
structure DataString where
  label : Bytes
  content : Bytes
  remark : Bytes

namespace DataString

/-- The part of the line that is read. -/
def statement (d : DataString) : Bytes := utf8 ".asciiz " ++ Literal.quoted d.content

/-- The line. -/
def write (d : DataString) : Bytes := (Line.string d.label d.content).write ++ " # " ++ d.remark

theorem write_eq (d : DataString) :
    d.write = d.label ++ utf8 ": " ++ d.statement ++ [' '.toUInt8] ++
      '#'.toUInt8 :: ' '.toUInt8 :: d.remark := by
  simp [write, Line.write, statement, Literal.quoted, utf8]
  rfl

/-- A line of string data that can be read. -/
structure Writable (d : DataString) : Prop where
  label : isLabel d.label
  remark : '\n'.toUInt8 ∉ d.remark
  short : d.write.length < lineLimit

/-- The bytes that strings take up: each ends with a zero byte. -/
def bytes (ds : List DataString) : Bytes := ds.flatMap fun d => d.content ++ [0]

/-- The labels of strings with their addresses; the first string is `o` bytes behind the beginning
of the data. -/
def places (o : Nat) : List DataString → List (Bytes × UInt32)
  | [] => []
  | d :: ds => (d.label, dataBase + UInt32.ofNat o) :: places (o + (d.content.length + 1)) ds

theorem map_fst_places (o : Nat) (ds : List DataString) :
    (places o ds).map (·.1) = ds.map (·.label) := by
  induction ds generalizing o with
  | nil => rfl
  | cons d ds ih => exact congrArg (d.label :: ·) (ih _)

/-- A string stands behind those in front of it. -/
theorem mem_places (o : Nat) (front back : List DataString) (d : DataString) :
    (d.label, dataBase + UInt32.ofNat (o + (bytes front).length)) ∈
      places o (front ++ d :: back) := by
  induction front generalizing o with
  | nil => exact List.mem_cons_self
  | cons d' front ih =>
    have hlength : o + (bytes (d' :: front)).length =
        o + (d'.content.length + 1) + (bytes front).length := by
      simp only [bytes, List.flatMap_cons, List.length_append, List.length_singleton]
      omega
    rw [hlength]
    exact List.mem_cons_of_mem _ (ih _)

end DataString

/-- The image with strings added to its data. -/
def afterStrings (s : State) (ds : List DataString) : State :=
  { s with
    data := s.data ++ DataString.bytes ds
    dataLabels := (DataString.places s.data.length ds).reverse ++ s.dataLabels }

/-! ### Scanning a line of string data -/

section Scanning

variable {d : DataString}

theorem head?_statement (d : DataString) : d.statement.head? = some '.'.toUInt8 := rfl

theorem getLast?_statement (d : DataString) : d.statement.getLast? = some '"'.toUInt8 := by
  rw [DataString.statement, List.getLast?_append, Literal.getLast?_quoted]
  rfl

/-- A line break in the remark is dropped, and nothing else is. -/
theorem dropReturn_append_cons {c : UInt8} (hc : c ≠ '\r'.toUInt8) (front r : Bytes) :
    ∃ r', dropReturn (front ++ c :: r) = front ++ c :: r' := by
  unfold dropReturn
  split
  · rename_i hlast
    cases r with
    | nil =>
      rw [List.getLast?_append, beq_iff_eq] at hlast
      exact absurd (Option.some.inj hlast) hc
    | cons b r =>
      refine ⟨(b :: r).dropLast, ?_⟩
      rw [List.dropLast_append_of_ne_nil (by simp)]
      rfl
  · exact ⟨r, rfl⟩

/-- The scanner for remarks leaves the literal whole and stops behind it. -/
theorem remarkStart_statement (hlabel : isLabel d.label) (r : Bytes) :
    remarkStart false 0 (d.label ++ utf8 ": " ++ d.statement ++ [' '.toUInt8] ++ '#'.toUInt8 :: r) =
      (d.label ++ utf8 ": " ++ d.statement ++ [' '.toUInt8]).length := by
  have hquiet : ∀ c ∈ d.label ++ utf8 ": " ++ utf8 ".asciiz ", isQuiet c := by
    simp only [List.forall_mem_append]
    exact ⟨⟨fun c hc => (isBody_spec c (isBody_of_isInner (isInner_of_isLabel hlabel c hc))).2.2,
      List.all_eq_true.mp (by decide)⟩, List.all_eq_true.mp (by decide)⟩
  have hopen (n : Nat) (s : Bytes) : remarkStart false n ('"'.toUInt8 :: s) =
      remarkStart true (n + 1) s := by
    rw [remarkStart.eq_def]
    rfl
  have hclose (n : Nat) (s : Bytes) : remarkStart true n ('"'.toUInt8 :: s) =
      remarkStart false (n + 1) s := by
    rw [remarkStart.eq_def]
    rfl
  have hstop (n : Nat) : remarkStart false n (' '.toUInt8 :: '#'.toUInt8 :: r) = n + 1 := by
    rw [remarkStart.eq_def]
    show remarkStart false (n + 1) ('#'.toUInt8 :: r) = n + 1
    rw [remarkStart.eq_def]
    rfl
  have hsplit : d.label ++ utf8 ": " ++ d.statement ++ [' '.toUInt8] ++ '#'.toUInt8 :: r =
      d.label ++ utf8 ": " ++ utf8 ".asciiz " ++ '"'.toUInt8 :: (Literal.escape d.content ++
        '"'.toUInt8 :: ' '.toUInt8 :: '#'.toUInt8 :: r) := by
    simp [DataString.statement, Literal.quoted]
  rw [hsplit, remarkStart_append hquiet, hopen, remarkStart_escape, hclose, hstop]
  simp only [DataString.statement, Literal.quoted, List.length_append, List.length_cons,
    List.length_nil]
  omega

/-- What is left without the remark are the label and the directive. -/
theorem trim_stripRemark_write (hlabel : isLabel d.label) :
    (stripRemark (dropReturn d.write)).trim = d.label ++ utf8 ": " ++ d.statement := by
  obtain ⟨r, hreturn⟩ := dropReturn_append_cons (c := '#'.toUInt8) (by decide)
    (d.label ++ utf8 ": " ++ d.statement ++ [' '.toUInt8]) (' '.toUInt8 :: d.remark)
  have hstrip : stripRemark (dropReturn d.write) =
      d.label ++ utf8 ": " ++ d.statement ++ [' '.toUInt8] := by
    rw [d.write_eq, hreturn, stripRemark, remarkStart_statement hlabel, List.take_left]
  have htrim := trim_replicate 0 1 (s := d.label ++ utf8 ": " ++ d.statement)
    (by
      obtain ⟨c, rest, heq⟩ := List.exists_cons_of_ne_nil (ne_nil_of_isLabel hlabel)
      intro b hb
      rw [heq] at hb
      exact (isInner_spec b (isInner_of_isLabel hlabel b
        (List.mem_of_mem_head? (by rw [heq]; exact hb)))).1)
    (by
      intro b hb
      rw [List.getLast?_append, getLast?_statement] at hb
      obtain rfl := Option.some.inj hb
      decide)
  rw [hstrip]
  exact htrim

/-- What stands in front of a colon in the literal is no label. -/
theorem splitLabel?_statement (d : DataString) : splitLabel? d.statement = none := by
  unfold splitLabel?
  split
  · rename_i name rest hcut
    have hblank : ' '.toUInt8 ∈ name := by
      unfold Bytes.cut at hcut
      split at hcut
      · cases hcut
      · rw [← (Prod.mk.inj (Option.some.inj hcut)).1, DataString.statement,
          List.takeWhile_append_of_pos (List.all_eq_true.mp (by decide))]
        exact List.mem_append_left _ (by decide)
    apply if_neg
    intro hlabel
    exact absurd (isInner_of_isLabel hlabel _ hblank) (by decide)
  · rfl

theorem takeLabels_write (hlabel : isLabel d.label) (n : Nat) :
    takeLabels (n + 2) (d.label ++ utf8 ": " ++ d.statement) = ([d.label], d.statement) := by
  have hcolon : ':'.toUInt8 ∉ d.label :=
    colon_not_mem fun c hc => isBody_of_isInner (isInner_of_isLabel hlabel c hc)
  have hcut : Bytes.cut ':' (d.label ++ utf8 ": " ++ d.statement) =
      some (d.label, ' '.toUInt8 :: d.statement) := by
    refine Bytes.cut_eq_some_iff.mpr ⟨?_, hcolon⟩
    rw [List.append_assoc]
    rfl
  have htrim := trim_replicate 1 0 (s := d.statement)
    (by
      intro c hc
      obtain rfl := Option.some.inj ((head?_statement d).symm.trans hc)
      decide)
    (by
      intro c hc
      obtain rfl := Option.some.inj ((getLast?_statement d).symm.trans hc)
      decide)
  rw [List.replicate_zero, List.append_nil] at htrim
  have hsplit : splitLabel? (d.label ++ utf8 ": " ++ d.statement) = some (d.label, d.statement) := by
    simp only [splitLabel?, hcut, hlabel, if_true]
    exact congrArg (fun s => some (d.label, s)) htrim
  simp only [takeLabels, hsplit, splitLabel?_statement]

theorem splitWord_statement (d : DataString) :
    splitWord d.statement = (utf8 ".asciiz", Literal.quoted d.content) := by
  have hword : ∀ c ∈ utf8 ".asciiz", (c != ' '.toUInt8 && c != '\t'.toUInt8) = true :=
    List.all_eq_true.mp (by decide)
  have hsplit : d.statement = utf8 ".asciiz" ++ ' '.toUInt8 :: Literal.quoted d.content := rfl
  unfold splitWord
  simp only [hsplit]
  rw [List.takeWhile_append_of_pos hword, List.dropWhile_append_of_pos hword]
  simp [Literal.trim_quoted]

/-- Reading a line of string data adds the string and a zero byte, under its label. -/
theorem step_write_string (hlabel : isLabel d.label) {s : State} (hdata : s.inData = true)
    (hnew : s.defines d.label = false) (number : Nat) :
    step s number d.write = .ok (afterStrings s [d]) := by
  have hlength : (d.label ++ utf8 ": " ++ d.statement).length =
      d.label.length + d.statement.length + 2 := by
    rw [List.length_append, List.length_append, show (utf8 ": ").length = 2 from rfl]
    omega
  have hdefine : s.defineAll [d.label] = .ok (s.labelled [d.label]) := by
    simp [State.defineAll, State.define, hnew, hdata, State.labelled, bind, Except.bind]
  have hdirective (labels : List Bytes) : directive (s.labelled [d.label]) labels (utf8 ".asciiz")
      (Literal.quoted d.content) = .ok (afterStrings s [d]) := by
    unfold directive
    rw [if_neg (by decide), if_neg (by decide), if_neg (by decide), if_pos (by decide),
      Literal.read_quoted]
    simp [State.labelled, hdata, afterStrings, DataString.bytes, DataString.places, State.here]
  have hcontent : content s number (d.label ++ utf8 ": " ++ d.statement) =
      .ok (afterStrings s [d]) := by
    simp only [content, hlength, takeLabels_write hlabel, hdefine, splitWord_statement, bind,
      Except.bind]
    exact hdirective (if (s.labelled [d.label]).inData then [d.label] else [])
  rw [step, trim_stripRemark_write hlabel, hcontent]

end Scanning

/-! ### Texts with strings -/

theorem afterStrings_nil (s : State) : afterStrings s [] = s := by
  simp [afterStrings, DataString.bytes, DataString.places]

theorem afterStrings_cons (s : State) (d : DataString) (ds : List DataString) :
    afterStrings s (d :: ds) = afterStrings (afterStrings s [d]) ds := by
  simp [afterStrings, DataString.bytes, DataString.places]

/-- Reading lines of string data adds the strings in order. -/
theorem steps_strings {ds : List DataString} (hlabels : ∀ d ∈ ds, isLabel d.label)
    (hdistinct : (ds.map (·.label)).Nodup) {s : State} (hdata : s.inData = true)
    (hnew : ∀ d ∈ ds, d.label ∉ s.names) (n : Nat) :
    steps s n (ds.map DataString.write) = .ok (afterStrings s ds) := by
  induction ds generalizing s n with
  | nil => exact congrArg Except.ok (afterStrings_nil s).symm
  | cons d ds ih =>
    rw [List.forall_mem_cons] at hlabels hnew
    rw [List.map_cons, List.nodup_cons] at hdistinct
    have hundefined : s.defines d.label = false := by
      rw [← Bool.not_eq_true, State.defines_iff]
      exact hnew.1
    have hrest : ∀ e ∈ ds, e.label ∉ (afterStrings s [d]).names := by
      intro e he hmem
      have hne : e.label ≠ d.label := by
        intro heq
        exact hdistinct.1 (heq ▸ List.mem_map_of_mem he)
      simp [State.names, afterStrings, DataString.places, hne] at hmem
      exact hnew.2 e he (List.mem_append.mpr (by simpa using hmem))
    rw [List.map_cons, steps, step_write_string hlabels.1 hdata hundefined]
    rw [afterStrings_cons s d ds]
    exact ih hlabels.2 hdistinct.2 (s := afterStrings s [d]) hdata hrest (n + 1)

/-- The lines of a data segment with strings, and of the code that follows. -/
def stringLines (ds : List DataString) (c : Code) : List Bytes :=
  utf8 ".data" :: (ds.map DataString.write ++ utf8 ".text" :: c.map Line.write)

/-- Code for programs with strings: its lines can be written, its labels are defined once and are
not those of strings, its instructions name no others, and it has a beginning. -/
structure CodeBehind (ds : List DataString) (c : Code) : Prop where
  writable : ∀ l ∈ c, l.Writable
  nodup : c.labels.Nodup
  apart : ∀ l ∈ c.labels, l ∉ ds.map (·.label)
  targets : ∀ i ∈ c.instrs, i.label = [] ∨ i.label ∈ c.labels ∨ i.label ∈ ds.map (·.label)
  main : entryName ∈ c.labels

theorem DataString.Writable.newline_not_mem {d : DataString} (hd : d.Writable) :
    '\n'.toUInt8 ∉ d.write := by
  have hinner : '\n'.toUInt8 ∉ d.label := fun hmem =>
    absurd (isInner_of_isLabel hd.label _ hmem) (by decide)
  have hescape := Literal.newline_not_mem_escape d.content
  rw [d.write_eq]
  simp only [DataString.statement, Literal.quoted, List.mem_append, List.mem_cons, not_or,
    List.not_mem_nil, not_false_eq_true, and_true]
  exact ⟨⟨⟨⟨hinner, by decide⟩, by decide, by decide, hescape, by decide⟩, by decide⟩, by decide,
    by decide, hd.remark⟩

theorem step_data (s : State) (n : Nat) : step s n (utf8 ".data") = .ok { s with inData := true } :=
  rfl

theorem step_text (s : State) (n : Nat) :
    step s n (utf8 ".text") = .ok { s with inData := false } := rfl

/-- Reading such lines adds the strings to the data, and then the code. -/
theorem steps_stringLines {ds : List DataString} (hds : ∀ d ∈ ds, d.Writable)
    (hdistinct : (ds.map (·.label)).Nodup) {c : Code} (hc : CodeBehind ds c) :
    steps .empty 1 (stringLines ds c) =
      .ok (afterCode { afterStrings .empty ds with inData := false } (ds.length + 3) c) := by
  have hstrings := steps_strings (s := { State.empty with inData := true })
    (fun d hd => (hds d hd).label) hdistinct rfl (fun d _ => by simp [State.names, State.empty]) 2
  have hnew : ∀ l ∈ c.labels,
      ({ afterStrings .empty ds with inData := false } : State).defines l = false := by
    intro l hl
    have hother : l ∉ ds.map (·.label) := hc.apart l hl
    rw [← Bool.not_eq_true, State.defines_iff]
    simpa [State.names, afterStrings, State.empty, ← DataString.map_fst_places 0] using hother
  have hcode := steps_write (fun l hl => (hc.writable l hl).legible)
    (s := { afterStrings .empty ds with inData := false }) rfl hc.nodup hnew (ds.length + 3)
  rw [stringLines, steps, step_data]
  show steps { State.empty with inData := true } 2 _ = _
  rw [steps_append, hstrings]
  show steps (afterStrings { State.empty with inData := true } ds)
    (2 + (ds.map DataString.write).length) (utf8 ".text" :: c.map Line.write) = _
  rw [steps, step_text, List.length_map, show 2 + ds.length + 1 = ds.length + 3 by omega]
  exact hcode

/-- Strings with code after them assemble, and this is their image. -/
theorem assemble_strings {ds : List DataString} (hds : ∀ d ∈ ds, d.Writable)
    (hdistinct : (ds.map (·.label)).Nodup) {c : Code} (hc : CodeBehind ds c) :
    assemble ((stringLines ds c).flatMap fun line => (line ++ "\n" : Bytes)) =
      .ok ⟨(c.numbered (ds.length + 3)).toArray, DataString.bytes ds,
        (DataString.places 0 ds).reverse, (c.placed 0).reverse, entryName⟩ := by
  have hlines : ∀ line ∈ stringLines ds c, '\n'.toUInt8 ∉ line ∧ line.length < lineLimit := by
    simp only [stringLines, List.forall_mem_cons, List.forall_mem_append, List.forall_mem_map]
    refine ⟨by decide, fun d hd => ⟨(hds d hd).newline_not_mem, (hds d hd).short⟩, by decide, ?_⟩
    intro l hl
    have hl := hc.writable l hl
    exact ⟨fun hmem => (isLineByte_spec _ (hl.legible.isLineByte _ hmem)).1 rfl, hl.length_lt⟩
  have hfinish := finish_afterCode hc.writable hc.nodup hc.main
    (s := { afterStrings .empty ds with inData := false }) rfl rfl
    (by simpa [afterStrings, State.empty, DataString.map_fst_places] using hc.targets)
    (ds.length + 3)
  unfold assemble
  rw [splitOn_lines fun line hline => (hlines line hline).1,
    readableLines_append_nil fun line hline => (hlines line hline).2]
  simp only [steps_stringLines hds hdistinct hc, bind, Except.bind, Bool.false_eq_true, if_false]
  rw [hfinish]
  simp [afterStrings, State.empty]

end Assembler

end MiniJava
