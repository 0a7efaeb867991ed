import MiniJava.Proofs.Assembly.Effects

/-!
# Labels and the words behind them

Words stand at whole multiples of their size, and zero bytes fill what is left in front of them.
Labels on the line of the words are moved behind these bytes.  Labels on lines further up are not,
and name the first of the bytes instead.

* **`State.Extends`**, **`extends_of_steps`** — lines only add data, and labels stay where they are.
* **`WordAhead`** — lines whose first data is the words of a directive.
* **`laid_of_wordAhead`** — where the first of these words is put.
* **`word_of_label`** — how far the first word is from a label in front of it.
-/

namespace MiniJava.Assembler

/-- How many bytes there are from the given place to the next word. -/
def padding (n : Nat) : Nat := (4 - n % 4) % 4

theorem padding_aligned (n : Nat) : padding (n + padding n) = 0 := by
  unfold padding
  omega

/-- Data begins at a whole word, so its bytes are as far from words as their addresses are. -/
theorem padding_eq_zero_iff {n : Nat} :
    padding n = 0 ↔ (dataBase + UInt32.ofNat n).toNat % 4 = 0 := by
  have hbase : dataBase.toNat = 0x10010000 := rfl
  rw [UInt32.toNat_add, UInt32.toNat_ofNat', hbase]
  unfold padding
  omega

/-! ### What lines leave as it is -/

namespace State

/-- An image that has all that `s` has: more data may follow, and more labels may be defined. -/
structure Extends (s t : State) : Prop where
  data : s.data <+: t.data
  names : s.names ⊆ t.names
  labels : ∀ l ∈ s.names, t.dataLabels.lookup l = s.dataLabels.lookup l

theorem Extends.refl (s : State) : s.Extends s :=
  ⟨List.prefix_rfl, List.Subset.refl _, fun _ _ => rfl⟩

theorem Extends.trans {s t u : State} (h : s.Extends t) (k : t.Extends u) : s.Extends u where
  data := h.data.trans k.data
  names := List.Subset.trans h.names k.names
  labels l hl := (k.labels l (h.names hl)).trans (h.labels l hl)

/-- Labels that move along when data is aligned are looked up anew, and no others. -/
theorem lookup_align (s : State) (labels : List Bytes) (l : Bytes) :
    (s.align labels).dataLabels.lookup l = (s.dataLabels.lookup l).map fun a =>
      if labels.contains l then dataBase + UInt32.ofNat (s.data.length + padding s.data.length)
      else a := by
  have hhere : State.here { s with
      data := s.data ++ Bytes.replicate ((4 - s.data.length % 4) % 4) 0 } =
      dataBase + UInt32.ofNat (s.data.length + padding s.data.length) := by
    rw [here, List.length_append, Bytes.replicate, List.length_replicate, padding]
  unfold align
  simp only [hhere]
  generalize dataBase + UInt32.ofNat (s.data.length + padding s.data.length) = a
  induction s.dataLabels with
  | nil => rfl
  | cons entry entries ih =>
    obtain ⟨k, b⟩ := entry
    have hentry : (if labels.contains k then (k, a) else (k, b)) =
        (k, if labels.contains k then a else b) := by
      split <;> rfl
    rw [List.map_cons, hentry, List.lookup_cons, List.lookup_cons]
    by_cases hk : l = k
    · subst hk
      simp
    · rw [beq_eq_false_iff_ne.mpr hk]
      exact ih

/-- A new label is looked up as the place of what follows, if that is data. -/
theorem lookup_labelled {s : State} {labels : List Bytes} (hnodup : labels.Nodup)
    (hnew : ∀ l ∈ labels, l ∉ s.names) {l : Bytes} (hl : l ∈ labels) :
    (s.labelled labels).dataLabels.lookup l = if s.inData then some s.here else none := by
  have hnone : s.dataLabels.lookup l = none :=
    lookup_eq_none_of_not_mem fun hmem => hnew l hl (List.mem_append_left _ hmem)
  unfold labelled
  split
  · have hfirst : (labels.map (·, s.here)).reverse.lookup l = some s.here := by
      apply Code.lookup_of_mem
      · simpa [Function.comp_def] using hnodup
      · simpa using hl
    rw [List.lookup_append, hfirst]
    rfl
  · exact hnone

end State

/-- A statement changes the places of those labels only that move along. -/
theorem Effect.lookup_eq {s s' : State} {labels : List Bytes} {number : Nat} {line : Bytes}
    (h : Effect s labels number line s') {l : Bytes} (hl : l ∉ labels) :
    s'.dataLabels.lookup l = s.dataLabels.lookup l := by
  cases h with
  | words _ _ =>
    rw [State.lookup_align, show labels.contains l = false by simpa using hl]
    simp
  | _ => rfl

theorem Effect.names_eq {s s' : State} {labels : List Bytes} {number : Nat} {line : Bytes}
    (h : Effect s labels number line s') : s'.names = s.names := by
  cases h with
  | words _ _ => exact s.names_align labels
  | _ => rfl

theorem Effect.data_prefix {s s' : State} {labels : List Bytes} {number : Nat} {line : Bytes}
    (h : Effect s labels number line s') : s.data <+: s'.data := by
  cases h with
  | string _ _ =>
    rw [List.append_assoc]
    exact List.prefix_append _ _
  | words _ _ =>
    show s.data <+: s.data ++ _ ++ _
    rw [List.append_assoc]
    exact List.prefix_append _ _
  | _ => exact List.prefix_rfl

theorem extends_of_step {s s' : State} {number : Nat} {line : Bytes}
    (h : step s number line = .ok s') : s.Extends s' := by
  obtain ⟨-, hnew, heffect⟩ := effect_of_step h
  constructor
  · rw [← State.data_labelled s (labelsOf line)]
    exact heffect.data_prefix
  · rw [heffect.names_eq]
    exact fun l hl => State.mem_names_labelled.mpr (.inr hl)
  · intro l hl
    have hother : l ∉ labelsOf line := fun hmem => hnew l hmem hl
    rw [heffect.lookup_eq (by split <;> simp [hother])]
    unfold State.labelled
    split
    · have hnone : ((labelsOf line).map (·, s.here)).reverse.lookup l = none :=
        lookup_eq_none_of_not_mem (by simpa [Function.comp_def] using hother)
      rw [List.lookup_append, hnone]
      rfl
    · rfl

theorem extends_of_steps {s s' : State} {number : Nat} {lines : List Bytes}
    (h : steps s number lines = .ok s') : s.Extends s' :=
  steps_preserve (fun _ _ _ _ hs h => hs.trans (extends_of_step h)) (.refl s) h

/-! ### The next data -/

/-- Does the line lay data? -/
def LaysData (line : Bytes) : Prop := wordOf line = utf8 ".asciiz" ∨ wordOf line = utf8 ".word"

/-- The first data that the lines lay are words, the first of which has the text `v`. -/
inductive WordAhead (v : Bytes) : List Bytes → Prop
  | here {line : Bytes} {lines rest : List Bytes} : wordOf line = utf8 ".word" →
      splitOperands (argsOf line) = v :: rest → WordAhead v (line :: lines)
  | later {line : Bytes} {lines : List Bytes} : ¬ LaysData line → WordAhead v lines →
      WordAhead v (line :: lines)

/-- A line that lays no data leaves the data as it was, and its labels are for what follows. -/
theorem data_of_step {s s' : State} {number : Nat} {line : Bytes}
    (h : step s number line = .ok s') (hquiet : ¬ LaysData line) :
    s'.data = s.data ∧
      ∀ l ∈ labelsOf line, s'.dataLabels.lookup l = if s.inData then some s.here else none := by
  obtain ⟨hnodup, hnew, heffect⟩ := effect_of_step h
  rw [LaysData, not_or] at hquiet
  have hsame : s'.data = (s.labelled (labelsOf line)).data ∧
      s'.dataLabels = (s.labelled (labelsOf line)).dataLabels := by
    cases heffect with
    | string hword _ => exact absurd hword hquiet.1
    | words hword _ => exact absurd hword hquiet.2
    | _ => exact ⟨rfl, rfl⟩
  constructor
  · rw [hsame.1, State.data_labelled]
  · intro l hl
    rw [hsame.2]
    exact State.lookup_labelled hnodup hnew hl

/-- What `.word` does. -/
theorem eq_of_word_effect {s s' : State} {labels : List Bytes} {number : Nat} {line : Bytes}
    (h : Effect s labels number line s') (hword : wordOf line = utf8 ".word") :
    ∃ bytes, words (splitOperands (argsOf line)) = .ok bytes ∧
      s' = { s.align labels with data := (s.align labels).data ++ bytes } := by
  have hdistinct : ∀ {t : Bytes}, t ≠ utf8 ".word" → wordOf line ≠ t :=
    fun hne heq => hne (heq.symm.trans hword)
  cases h with
  | words _ hbytes => exact ⟨_, hbytes, rfl⟩
  | nothing hnone =>
    rw [wordOf, hnone] at hword
    cases hword
  | @segment inData hsegment =>
    exact absurd hsegment (hdistinct (by cases inData <;> decide))
  | ignored hignored =>
    exact absurd hignored (not_or.mpr ⟨hdistinct (by decide), hdistinct (by decide)⟩)
  | string hstring _ => exact absurd hstring (hdistinct (by decide))
  | instruction _ hhead =>
    rw [hword] at hhead
    exact absurd rfl hhead

theorem words_cons_eq_ok {v bytes : Bytes} {rest : List Bytes} (h : words (v :: rest) = .ok bytes) :
    ∃ n others, Immediate.read? v = some n ∧ bytes = wordBytes (UInt32.ofInt n) ++ others := by
  rw [words] at h
  cases hread : Immediate.read? v with
  | none =>
    rw [hread] at h
    cases h
  | some n =>
    rw [hread] at h
    cases hrest : words rest with
    | error f =>
      rw [hrest] at h
      cases h
    | ok others =>
      rw [hrest] at h
      exact ⟨n, others, rfl, (Except.ok.inj h).symm⟩

/-- The first word is put at the next place for a word, and labels on its line name that place. -/
theorem data_of_words {s s' : State} {number : Nat} {line v : Bytes} {rest : List Bytes}
    (h : step s number line = .ok s') (hword : wordOf line = utf8 ".word")
    (hargs : splitOperands (argsOf line) = v :: rest) :
    (∃ n, Immediate.read? v = some n ∧
      s.data ++ Bytes.replicate (padding s.data.length) 0 ++ wordBytes (UInt32.ofInt n) <+:
        s'.data) ∧
    ∀ l ∈ labelsOf line, s'.dataLabels.lookup l =
      if s.inData then
        some (dataBase + UInt32.ofNat (s.data.length + padding s.data.length))
      else none := by
  obtain ⟨hnodup, hnew, heffect⟩ := effect_of_step h
  obtain ⟨bytes, hbytes, rfl⟩ := eq_of_word_effect heffect hword
  constructor
  · rw [hargs] at hbytes
    obtain ⟨n, others, hread, rfl⟩ := words_cons_eq_ok hbytes
    refine ⟨n, hread, others, ?_⟩
    show _ = (s.labelled (labelsOf line)).data ++ Bytes.replicate
      ((4 - (s.labelled (labelsOf line)).data.length % 4) % 4) 0 ++ _
    rw [State.data_labelled, padding, List.append_assoc, List.append_assoc]
  · intro l hl
    show ((s.labelled (labelsOf line)).align _).dataLabels.lookup l = _
    rw [State.lookup_align, State.lookup_labelled hnodup hnew hl, State.data_labelled]
    split
    · simp [hl]
    · rfl

/-- The first word ahead is put at the next place for a word. -/
theorem laid_of_wordAhead {v : Bytes} {lines : List Bytes} (hahead : WordAhead v lines)
    {s s' : State} {number : Nat} (h : steps s number lines = .ok s') :
    ∃ n, Immediate.read? v = some n ∧
      s.data ++ Bytes.replicate (padding s.data.length) 0 ++ wordBytes (UInt32.ofInt n) <+:
        s'.data := by
  induction hahead generalizing s number with
  | here hword hargs =>
    obtain ⟨s₁, hfirst, hrest⟩ := steps_cons_eq_ok h
    obtain ⟨⟨n, hread, hlaid⟩, -⟩ := data_of_words hfirst hword hargs
    exact ⟨n, hread, hlaid.trans (extends_of_steps hrest).data⟩
  | later hquiet _ ih =>
    obtain ⟨s₁, hfirst, hrest⟩ := steps_cons_eq_ok h
    rw [← (data_of_step hfirst hquiet).1]
    exact ih hrest

/-- Where the first word behind a label is.  Let the label stand `off` bytes behind the beginning of
the data.  The first word stands at the next place for a word, which is that of the label exactly if
the address of the label is a multiple of four.  So it is if the words are on the line of the
label; otherwise it depends on the data in front of the label. -/
theorem word_of_label {source : Bytes} {p : Image} (h : assemble source = .ok p)
    {front back : List Bytes} {line : Bytes}
    (hlines : (readableLines (source.splitOn '\n')).1 = front ++ line :: back) {l : Bytes}
    (hl : l ∈ labelsOf line) {a : UInt32} (ha : p.dataLabels.lookup l = some a) {v : Bytes}
    (hahead : WordAhead v (line :: back)) :
    ∃ off n, a = dataBase + UInt32.ofNat off ∧ Immediate.read? v = some n ∧
      wordBytes (UInt32.ofInt n) <+: p.data.drop (off + padding off) ∧
      (padding off = 0 ↔ a.toNat % 4 = 0) ∧
      (wordOf line = utf8 ".word" → a.toNat % 4 = 0) := by
  obtain ⟨lines, s, hread, hsteps, hfinish⟩ := assemble_eq_ok h
  obtain ⟨code, -, rfl⟩ := finish_eq_ok hfinish
  rw [hread] at hlines
  obtain rfl : lines = front ++ line :: back := hlines
  obtain ⟨s₀, -, hrest⟩ := steps_append_eq_ok hsteps
  obtain ⟨s₁, hfirst, hback⟩ := steps_cons_eq_ok hrest
  obtain ⟨n, hvalue, hlaid⟩ := laid_of_wordAhead hahead hrest
  have hlabel : l ∈ s₁.names := by
    obtain ⟨-, -, heffect⟩ := effect_of_step hfirst
    rw [heffect.names_eq]
    exact State.mem_names_labelled.mpr (.inl hl)
  have hplace : s₁.dataLabels.lookup l = some a :=
    ((extends_of_steps hback).labels l hlabel).symm.trans ha
  have hbehind : wordBytes (UInt32.ofInt n) <+:
      s.data.drop (s₀.data.length + padding s₀.data.length) := by
    obtain ⟨others, hothers⟩ := hlaid
    refine ⟨others, ?_⟩
    rw [← hothers, List.append_assoc, List.drop_left']
    rw [List.length_append, Bytes.replicate, List.length_replicate]
  cases hahead with
  | here hword hargs =>
    rw [(data_of_words hfirst hword hargs).2 l hl] at hplace
    split at hplace
    · obtain rfl := Option.some.inj hplace
      refine ⟨_, n, rfl, hvalue, ?_, padding_eq_zero_iff, ?_⟩
      · rw [padding_aligned]
        exact hbehind
      · exact fun _ => padding_eq_zero_iff.mp (padding_aligned _)
    · cases hplace
  | later hquiet _ =>
    rw [(data_of_step hfirst hquiet).2 l hl] at hplace
    split at hplace
    · obtain rfl := Option.some.inj hplace
      exact ⟨_, n, rfl, hvalue, hbehind, padding_eq_zero_iff,
        fun hword => absurd (.inr hword) hquiet⟩
    · cases hplace

/-- A text with labels for the same words on different lines. -/
def numberedWords : Bytes :=
  ".data\nmsg: .asciiz \"a#b\\n\"   # five bytes\nall:\n# two words\nnums: .word 7, -1\n.text\n" ++
    "main: syscall\n"

theorem word_of_label_numbered : ∃ p, assemble numberedWords = .ok p ∧
    (∃ off, p.dataLabels.lookup (utf8 "all") = some (dataBase + UInt32.ofNat off) ∧
      wordBytes 7 <+: p.data.drop (off + padding off)) ∧
    ∃ a, p.dataLabels.lookup (utf8 "nums") = some a ∧ a.toNat % 4 = 0 := by
  have hfacts : (assemble numberedWords).toOption.any fun p =>
      (p.dataLabels.lookup (utf8 "all")).isSome && (p.dataLabels.lookup (utf8 "nums")).isSome := by
    decide +kernel
  have hlines : (readableLines (numberedWords.splitOn '\n')).1 =
      [utf8 ".data", utf8 "msg: .asciiz \"a#b\\n\"   # five bytes"] ++
        utf8 "all:" :: [utf8 "# two words", utf8 "nums: .word 7, -1", utf8 ".text",
          utf8 "main: syscall"] := by
    decide +kernel
  have hnear : (readableLines (numberedWords.splitOn '\n')).1 =
      [utf8 ".data", utf8 "msg: .asciiz \"a#b\\n\"   # five bytes", utf8 "all:",
        utf8 "# two words"] ++
        utf8 "nums: .word 7, -1" :: [utf8 ".text", utf8 "main: syscall"] := hlines
  have hwords (back : List Bytes) : WordAhead (utf8 "7") (utf8 "nums: .word 7, -1" :: back) :=
    .here (by decide +kernel) (show _ = utf8 "7" :: [utf8 "-1"] by decide +kernel)
  have hquiet : ∀ line ∈ [utf8 "all:", utf8 "# two words"], ¬ LaysData line := by
    unfold LaysData
    decide +kernel
  cases hasm : assemble numberedWords with
  | error e =>
    rw [hasm] at hfacts
    cases hfacts
  | ok p =>
    rw [hasm] at hfacts
    obtain ⟨hall, hnums⟩ := Bool.and_eq_true_iff.mp hfacts
    obtain ⟨a, ha⟩ := Option.isSome_iff_exists.mp hall
    obtain ⟨b, hb⟩ := Option.isSome_iff_exists.mp hnums
    refine ⟨p, rfl, ?_, b, hb, ?_⟩
    · obtain ⟨off, n, rfl, hvalue, hbehind, -⟩ :=
        word_of_label hasm hlines (by decide +kernel) ha
          (.later (hquiet _ (by simp)) (.later (hquiet _ (by simp)) (hwords _)))
      have hseven : Immediate.read? (utf8 "7") = some 7 := by
        decide +kernel
      obtain rfl := Option.some.inj (hseven.symm.trans hvalue)
      exact ⟨off, ha, hbehind⟩
    · obtain ⟨off, n, -, -, -, -, haligned⟩ :=
        word_of_label hasm hnear (by decide +kernel) hb (hwords _)
      exact haligned (by decide +kernel)

/-- A text with a label on the line above words that are not right behind the data before them. -/
def labelAbove : Bytes := ".data\ns: .asciiz \"a\"\nw:\n.word 5\n.text\nmain: syscall\n"

/-- A label on a line above words can be short of them. -/
theorem label_above_word : ∃ p,
    assemble labelAbove = .ok p ∧
    (readableLines (labelAbove.splitOn '\n')).1 = [utf8 ".data", utf8 "s: .asciiz \"a\""] ++
      utf8 "w:" :: [utf8 ".word 5", utf8 ".text", utf8 "main: syscall"] ∧
    utf8 "w" ∈ labelsOf (utf8 "w:") ∧
    WordAhead (utf8 "5") (utf8 "w:" :: [utf8 ".word 5", utf8 ".text", utf8 "main: syscall"]) ∧
    p.dataLabels.lookup (utf8 "w") = some (dataBase + 2) ∧ (dataBase + 2).toNat % 4 ≠ 0 ∧
    ¬ wordBytes 5 <+: p.data.drop 2 := by
  have hfacts : (assemble labelAbove).toOption.any fun p =>
      p.dataLabels.lookup (utf8 "w") = some (dataBase + 2) &&
        !(wordBytes 5).isPrefixOf (p.data.drop 2) := by
    decide +kernel
  cases hasm : assemble labelAbove with
  | error e =>
    rw [hasm] at hfacts
    cases hfacts
  | ok p =>
    rw [hasm] at hfacts
    obtain ⟨haddress, hother⟩ := Bool.and_eq_true_iff.mp hfacts
    refine ⟨p, rfl, by decide +kernel, by decide +kernel, ?_, of_decide_eq_true haddress,
      by decide, ?_⟩
    · refine .later ?_ (.here (by decide +kernel) (show _ = utf8 "5" :: [] by decide +kernel))
      unfold LaysData
      decide +kernel
    · intro hprefix
      rw [List.isPrefixOf_iff_prefix.mpr hprefix] at hother
      cases hother

end MiniJava.Assembler
