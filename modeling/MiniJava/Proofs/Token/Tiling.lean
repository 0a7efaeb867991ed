import Mathlib.Data.List.Infix
import Mathlib.Data.List.TakeWhile
import MiniJava.Proofs.Token.Scan

/-!
# Tokens tile their source

Every byte of a source without NUL bytes belongs to one token, or to white space and comments
between tokens, or to a comment that is never closed.

* **`Span`**, **`Token.Occupies`** — the bytes of a token, and what is true of them.
* **`Ignored`** — bytes that split into white space and complete comments.
* **`Gaps`** — what stands before, between and after tokens.
* **`WordCut`** — the invariant of a scan: no word and no number is cut in two.
* **`tokens_tile_source`** — the whole statement.
-/

namespace MiniJava

/-! ### Places in a source -/

/-- The bytes of a source from `start` on and before `stop`. -/
structure Span where
  start : Nat
  stop : Nat

/-- The bytes of a span. -/
def Span.bytes (s : Span) (source : Bytes) : Bytes := (source.take s.stop).drop s.start

/-- One more than the number of line feeds in front of an offset. -/
def lineAt (source : Bytes) (offset : Nat) : Nat := 1 + (source.take offset).count '\n'.toUInt8

/-- One more than the number of bytes between an offset and the last line feed in front of it. -/
def columnAt (source : Bytes) (offset : Nat) : Nat :=
  1 + ((source.take offset).reverse.takeWhile (· != '\n'.toUInt8)).length

/-- The bytes of the span are such as `P` asks for, and those of no larger span are. -/
def Span.Maximal (P : Bytes → Prop) (source : Bytes) (s : Span) : Prop :=
  P (s.bytes source) ∧ ∀ s' : Span, s'.start ≤ s.start → s.stop ≤ s'.stop →
    s'.stop ≤ source.length → P (s'.bytes source) → s' = s

/-- A byte that neither starts a token nor is white space or the start of a comment, given the
byte after it. -/
structure Foreign (c : UInt8) (next : Option UInt8) : Prop where
  space : isSpace c = false
  word : isWordStart c = false
  digit : isDigit c = false
  symbol : TokenKind.ofSymbol? c = none
  pair : ¬ (c = '&'.toUInt8 ∧ next = some '&'.toUInt8)
  comment : ¬ (c = '/'.toUInt8 ∧ (next = some '/'.toUInt8 ∨ next = some '*'.toUInt8))

/-- The token is the bytes of the span: its literal says what they are, its place is where they
start, words and numbers go as far as they can, and it is not illegal without need. -/
structure Token.Occupies (source : Bytes) (t : Token) (s : Span) : Prop where
  nonempty : s.start < s.stop
  inside : s.stop ≤ source.length
  literal : s.bytes source = t.literal ∨
    t.kind = .illegal ∧ ∃ c, s.bytes source = [c] ∧ t.literal = Utf8.ofByte c
  line : t.line = lineAt source s.start
  column : t.column = columnAt source s.start
  spelled : t.Spelled
  word : t.kind = .ident ∨ t.kind ∈ TokenKind.reserved.map (·.2) → s.Maximal IsWord source
  number : t.kind = .int → s.Maximal IsNumeral source
  illegal : t.kind = .illegal → s.bytes source = utf8 "/*" ∨
    ∃ c, s.bytes source = [c] ∧ Foreign c source[s.stop]?

/-! ### What stands between tokens -/

/-- Bytes that split into white space and complete comments, in front of `rest`.  A line comment
goes to the end of its line, a block comment to the first closer. -/
inductive Ignored : (text rest : Bytes) → Prop
  | none {rest : Bytes} : Ignored [] rest
  | space {c : UInt8} {text rest : Bytes} :
      c ∈ [' '.toUInt8, '\t'.toUInt8, '\n'.toUInt8, '\r'.toUInt8, '\x0c'.toUInt8] →
      Ignored text rest → Ignored (c :: text) rest
  | lineComment {body text rest : Bytes} :
      '\n'.toUInt8 ∉ body → (∀ c ∈ (text ++ rest).head?, c = '\n'.toUInt8) → Ignored text rest →
      Ignored (utf8 "//" ++ body ++ text) rest
  | blockComment {body text rest : Bytes} :
      ¬ utf8 "*/" <:+: body → Ignored text rest →
      Ignored (utf8 "/*" ++ body ++ utf8 "*/" ++ text) rest

/-- The token of a comment that is never closed. -/
def Token.IsUnclosed (t : Token) : Prop := t.kind = .illegal ∧ t.literal = utf8 "/*"

/-- What stands before, between and after tokens is ignored, from the offset `start` on.  A comment
that is never closed is the last token, and everything after its opener is skipped. -/
def Gaps (source : Bytes) : (start : Nat) → List (Token × Span) → Prop
  | start, [] => Ignored (source.drop start) []
  | start, (t, s) :: rest =>
      start ≤ s.start ∧ Ignored (Span.bytes ⟨start, s.start⟩ source) (source.drop s.start) ∧
      (t.IsUnclosed → rest = [] ∧ ¬ utf8 "*/" <:+: source.drop s.stop) ∧
      (¬ t.IsUnclosed → Gaps source s.stop rest)

/-! ### Places after a text -/

theorem line_after_start (text : Bytes) :
    (Position.start.after text).line = 1 + text.count '\n'.toUInt8 := by
  induction text using List.reverseRecOn with
  | nil => rfl
  | append_singleton text c ih =>
    rw [Position.after_append, List.count_append]
    show (Position.next _ c).line = _
    unfold Position.next
    by_cases hc : c = '\n'.toUInt8
    · subst hc
      rw [if_pos (by decide)]
      show _ + 1 = _
      rw [ih]
      rfl
    · rw [if_neg (by simpa using hc), ih, List.count_singleton, if_neg (by simpa using hc)]
      rfl

theorem column_after_start (text : Bytes) :
    (Position.start.after text).column = 1 + (text.reverse.takeWhile (· != '\n'.toUInt8)).length := by
  induction text using List.reverseRecOn with
  | nil => rfl
  | append_singleton text c ih =>
    rw [Position.after_append, List.reverse_append, List.reverse_singleton, List.singleton_append]
    show (Position.next _ c).column = _
    unfold Position.next
    by_cases hc : c = '\n'.toUInt8
    · subst hc
      rw [if_pos (by decide), List.takeWhile_cons_of_neg (by decide)]
      rfl
    · rw [if_neg (by simpa using hc), List.takeWhile_cons_of_pos (by simpa using hc)]
      show _ + 1 = _
      rw [ih, List.length_cons]
      omega

/-- The place after the bytes in front of an offset. -/
theorem after_start_eq (before rest : Bytes) :
    (Position.start.after before).line = lineAt (before ++ rest) before.length ∧
      (Position.start.after before).column = columnAt (before ++ rest) before.length := by
  rw [lineAt, columnAt, List.take_left, line_after_start, column_after_start]
  exact ⟨rfl, rfl⟩

/-! ### Spans of a split source -/

theorem bytes_between (before text rest : Bytes) :
    Span.bytes ⟨before.length, before.length + text.length⟩ (before ++ (text ++ rest)) = text := by
  rw [Span.bytes, ← List.append_assoc, List.take_left' (by simp), List.drop_left]

/-- A span around a part of a source consists of an end of what is before, the part, and a start of
what is after. -/
theorem bytes_around {before text rest : Bytes} {s : Span} (hstart : s.start ≤ before.length)
    (hstop : before.length + text.length ≤ s.stop) :
    s.bytes (before ++ (text ++ rest)) =
      before.drop s.start ++ (text ++ rest.take (s.stop - (before.length + text.length))) := by
  rw [Span.bytes, List.take_append, List.take_append, List.take_of_length_le (by omega),
    List.take_of_length_le (i := s.stop - before.length) (by omega),
    List.drop_append_of_le_length hstart, Nat.sub_sub]

/-- Nothing can be added to a part of a source on either side. -/
theorem maximal_of_stops {P : Bytes → Prop} {before text rest : Bytes} (hP : P text)
    (hleft : ∀ u v, u ≠ [] → u <:+ before → ¬ P (u ++ (text ++ v)))
    (hright : ∀ u v, v ≠ [] → v <+: rest → ¬ P (u ++ (text ++ v))) :
    Span.Maximal P (before ++ (text ++ rest))
      ⟨before.length, before.length + text.length⟩ := by
  refine ⟨by rwa [bytes_between], ?_⟩
  rintro ⟨start, stop⟩ hstart hstop hinside hP'
  simp only at hstart hstop hinside
  rw [bytes_around hstart hstop] at hP'
  simp only [List.length_append] at hinside
  have hfront : before.drop start = [] := by
    by_contra hne
    exact hleft _ _ hne (List.drop_suffix start before) hP'
  have hback : rest.take (stop - (before.length + text.length)) = [] := by
    by_contra hne
    exact hright _ _ hne (List.take_prefix _ rest) hP'
  have hstart' : start = before.length := by
    have := List.drop_eq_nil_iff.mp hfront
    omega
  have hstop' : stop = before.length + text.length := by
    rcases List.take_eq_nil_iff.mp hback with h | h
    · omega
    · have : rest.length = 0 := by rw [h]; rfl
      omega
  rw [hstart', hstop']

/-! ### Words and numbers are not cut -/

/-- The bytes of words at the end of a text, the last one first. -/
def wordTail (text : Bytes) : Bytes := text.reverse.takeWhile isWordPart

/-- No word and no number runs on from `before` into `rest`: what follows goes on with neither, or
there are at most digits before it, and then no digit follows. -/
def WordCut (before rest : Bytes) : Prop :=
  Stops rest ∨ (∀ c ∈ wordTail before, isDigit c) ∧
    (wordTail before = [] ∨ ∀ c ∈ rest.head?, isDigit c = false)

theorem wordTail_append_of_last {before text : Bytes} {c : UInt8} (hlast : text.getLast? = some c)
    (hc : isWordPart c = false) : wordTail (before ++ text) = [] := by
  obtain ⟨text, rfl⟩ := List.getLast?_eq_some_iff.mp hlast
  rw [wordTail, ← List.append_assoc, List.reverse_append, List.reverse_singleton,
    List.singleton_append, List.takeWhile_cons_of_neg (by simp [hc])]

theorem wordTail_append_of_all {before text : Bytes} (h : ∀ c ∈ text, isWordPart c) :
    wordTail (before ++ text) = text.reverse ++ wordTail before := by
  rw [wordTail, List.reverse_append, List.takeWhile_append_of_pos]
  · rfl
  · intro c hc
    exact h c (List.mem_reverse.mp hc)

/-- A text whose last byte is of no word is cut from whatever follows. -/
theorem wordCut_of_last {before text rest : Bytes} {c : UInt8} (hlast : text.getLast? = some c)
    (hc : isWordPart c = false) : WordCut (before ++ text) rest := by
  have htail := @wordTail_append_of_last before text c hlast hc
  exact .inr ⟨by simp [htail], .inl htail⟩

/-- In front of a digit there is no byte of a word. -/
theorem WordCut.of_digit {before rest : Bytes} {c : UInt8} (h : WordCut before (c :: rest))
    (hc : isDigit c) : wordTail before = [] := by
  rcases h with hstop | ⟨-, hnone | hdigit⟩
  · have := hstop c (by simp)
    rw [isWordPart_of_isDigit hc] at this
    cases this
  · exact hnone
  · have := hdigit c (by simp)
    rw [hc] at this
    cases this

/-- In front of a byte of a word there are at most digits. -/
theorem WordCut.of_wordPart {before rest : Bytes} {c : UInt8} (h : WordCut before (c :: rest))
    (hc : isWordPart c) : ∀ d ∈ wordTail before, isDigit d := by
  rcases h with hstop | ⟨hdigits, -⟩
  · have := hstop c (by simp)
    rw [hc] at this
    cases this
  · exact hdigits

theorem stops_dropWhile (text : Bytes) : Stops (text.dropWhile isWordPart) := by
  intro c hc
  have := List.head?_dropWhile_not isWordPart text
  rw [Option.mem_def.mp hc] at this
  simpa using this

theorem mem_wordTail_of_suffix {before u : Bytes} (h : u <:+ before) (hu : ∀ c ∈ u, isWordPart c) :
    ∀ c ∈ u, c ∈ wordTail before := by
  obtain ⟨front, rfl⟩ := h
  intro c hc
  rw [wordTail_append_of_all hu]
  exact List.mem_append_left _ (List.mem_reverse.mpr hc)

/-- A word that is read from its first byte on is as long as it can be. -/
theorem maximal_word {before rest : Bytes} {c : UInt8} (hc : isWordStart c)
    (h : WordCut before (c :: rest)) :
    Span.Maximal IsWord (before ++ (c :: rest))
      ⟨before.length, before.length + ((c :: rest).takeWhile isWordPart).length⟩ := by
  have hpart : isWordPart c := by simp [isWordPart, hc]
  have hsplit := List.takeWhile_append_dropWhile (p := isWordPart) (l := c :: rest)
  have hmax := @maximal_of_stops IsWord before ((c :: rest).takeWhile isWordPart)
    ((c :: rest).dropWhile isWordPart) (isWord_takeWhile rest hc) ?_ ?_
  · rwa [hsplit] at hmax
  · intro u v hne hu hword
    obtain ⟨d, u, rfl⟩ := List.exists_cons_of_ne_nil hne
    -- a longer word would start in the digits before this one
    have hall : ∀ e ∈ d :: u, isWordPart e := fun e he => hword.2 e (List.mem_append_left _ he)
    have hd : isDigit d := h.of_wordPart hpart d (mem_wordTail_of_suffix hu hall d (by simp))
    obtain ⟨e, he, hstart⟩ := hword.1
    obtain rfl : d = e := by simpa using he
    rw [isWordStart_of_isDigit d hd] at hstart
    cases hstart
  · intro u v hne hv hword
    obtain ⟨d, v, rfl⟩ := List.exists_cons_of_ne_nil hne
    obtain ⟨back, hback⟩ := hv
    have hfalse := stops_dropWhile (c :: rest) d (by simp [← hback])
    rw [hword.2 d (by simp)] at hfalse
    cases hfalse

/-- A number that is read from its first digit on is as long as it can be. -/
theorem maximal_number {before rest : Bytes} {c : UInt8} (hc : isDigit c)
    (h : WordCut before (c :: rest)) :
    Span.Maximal IsNumeral (before ++ (c :: rest))
      ⟨before.length, before.length + ((c :: rest).takeWhile isDigit).length⟩ := by
  have hsplit := List.takeWhile_append_dropWhile (p := isDigit) (l := c :: rest)
  have hmax := @maximal_of_stops IsNumeral before ((c :: rest).takeWhile isDigit)
    ((c :: rest).dropWhile isDigit) (isNumeral_takeWhile rest hc) ?_ ?_
  · rwa [hsplit] at hmax
  · intro u v hne hu hnumeral
    obtain ⟨d, u, rfl⟩ := List.exists_cons_of_ne_nil hne
    have hall : ∀ e ∈ d :: u, isWordPart e := fun e he =>
      isWordPart_of_isDigit (hnumeral.2 e (List.mem_append_left _ he))
    have hmem := mem_wordTail_of_suffix hu hall d (by simp)
    rw [h.of_digit hc] at hmem
    cases hmem
  · intro u v hne hv hnumeral
    obtain ⟨d, v, rfl⟩ := List.exists_cons_of_ne_nil hne
    obtain ⟨back, hback⟩ := hv
    have hfalse := List.head?_dropWhile_not isDigit (c :: rest)
    rw [← hback] at hfalse
    have hd : isDigit d := hnumeral.2 d (by simp)
    simp [hd] at hfalse

/-! ### Comments -/

theorem closer_eq : utf8 "*/" = ['*'.toUInt8, '/'.toUInt8] := by decide

/-- Two bytes in a row that are no closer leave only what comes after the first of them. -/
theorem not_infix_cons {c : UInt8} {text : Bytes} (h : ¬ utf8 "*/" <:+: text)
    (hpair : ¬ (c = '*'.toUInt8 ∧ text.head? = some '/'.toUInt8)) :
    ¬ utf8 "*/" <:+: c :: text := by
  rw [List.infix_cons_iff]
  rintro (hhead | hinfix)
  · rw [closer_eq, List.cons_prefix_cons] at hhead
    obtain ⟨hc, back, hback⟩ := hhead
    exact hpair ⟨hc.symm, by simp [← hback]⟩
  · exact h hinfix

/-- The closer that is found is the first one. -/
theorem closer?_eq_some {n k : Nat} {body : Bytes} (h : closer? n body = some k) :
    ∃ inner after, body = inner ++ (utf8 "*/" ++ after) ∧ k = n + inner.length + 2 ∧
      ¬ utf8 "*/" <:+: inner := by
  fun_induction closer? n body with
  | case1 n c d rest hzero => cases h
  | case2 n c d rest hzero hpair =>
    simp only [Bool.and_eq_true, beq_iff_eq] at hpair
    obtain ⟨rfl, rfl⟩ := hpair
    obtain rfl := Option.some.inj h
    exact ⟨[], rest, rfl, rfl, by simp [closer_eq]⟩
  | case3 n c d rest hzero hpair ih =>
    obtain ⟨inner, after, hbody, rfl, hnone⟩ := ih h
    refine ⟨c :: inner, after, by rw [hbody]; rfl, by simp only [List.length_cons]; omega, ?_⟩
    refine not_infix_cons hnone ?_
    rintro ⟨rfl, hhead⟩
    -- what starts `inner` starts `d :: rest`
    have hd : d = '/'.toUInt8 := by
      cases inner with
      | nil => cases hhead
      | cons b inner =>
        obtain rfl : b = '/'.toUInt8 := by simpa using hhead
        exact (List.cons.inj hbody).1
    simp [hd] at hpair
  | case4 => cases h

/-- Without a NUL byte, no closer is found only where there is none. -/
theorem closer?_eq_none {n : Nat} {body : Bytes} (h : closer? n body = none) (hnul : 0 ∉ body) :
    ¬ utf8 "*/" <:+: body := by
  fun_induction closer? n body with
  | case1 n c d rest hzero => simp_all
  | case2 n c d rest hzero hpair => cases h
  | case3 n c d rest hzero hpair ih =>
    rw [List.mem_cons, not_or] at hnul
    refine not_infix_cons (ih h hnul.2) ?_
    rintro ⟨rfl, hhead⟩
    obtain rfl : d = '/'.toUInt8 := by simpa using hhead
    simp at hpair
  | case4 body n hshort =>
    intro hinfix
    have hlength := hinfix.length_le
    match body with
    | [] => simp [closer_eq] at hlength
    | [c] => simp [closer_eq] at hlength
    | c :: d :: rest => exact hshort c d rest rfl

theorem isSpace_iff (c : UInt8) : isSpace c ↔
    c ∈ [' '.toUInt8, '\t'.toUInt8, '\n'.toUInt8, '\r'.toUInt8, '\x0c'.toUInt8] := by
  simp [isSpace, or_assoc]

/-- Text that is ignored in front of `rest` can be put in front of more text that is. -/
def Prepends (gap rest : Bytes) : Prop :=
  ∀ text after, text ++ after = rest → Ignored text after → Ignored (gap ++ text) after

theorem prepends_spaces {gap : Bytes} (h : ∀ c ∈ gap, isSpace c) (rest : Bytes) :
    Prepends gap rest := by
  intro text after _ htext
  induction gap with
  | nil => exact htext
  | cons c gap ih =>
    rw [List.forall_mem_cons] at h
    exact .space ((isSpace_iff c).mp h.1) (ih h.2)

/-! ### One piece -/

theorem isWordPart_of_isSpace {c : UInt8} (h : isSpace c) : isWordPart c = false := by
  cases hc : isWordPart c with
  | false => rfl
  | true =>
    rw [(isWordPart_spec c hc).1] at h
    cases h

/-- Is the byte one of a line comment? -/
def inLineComment (c : UInt8) : Bool := c != '\n' && c != 0

/-- What follows a line comment starts with a line feed, if there is no NUL byte. -/
theorem head?_dropWhile_inLineComment {text : Bytes} (hnul : 0 ∉ text) :
    ∀ c ∈ (text.dropWhile inLineComment).head?, c = '\n'.toUInt8 := by
  intro c hc
  have hfalse := List.head?_dropWhile_not inLineComment text
  rw [Option.mem_def.mp hc] at hfalse
  have hmem : c ∈ text := (List.dropWhile_suffix _).subset (List.mem_of_mem_head? hc)
  have hne : c ≠ 0 := fun h => hnul (h ▸ hmem)
  simpa [inLineComment, hne] using hfalse

/-- White space and complete comments are ignored, and no word is cut behind them. -/
theorem gap_nextPiece {c : UInt8} {rest gap rest' : Bytes}
    (h : nextPiece c rest = (.gap gap, rest')) (hnul : 0 ∉ c :: rest) :
    Prepends gap rest' ∧ ∀ before, WordCut (before ++ gap) rest' := by
  unfold nextPiece at h
  split at h
  · rename_i hspace
    obtain ⟨hgap, rfl⟩ := Prod.mk.inj h
    obtain rfl := Piece.gap.inj hgap
    have hall : ∀ d ∈ (c :: rest).takeWhile isSpace, isSpace d := fun d => List.mem_takeWhile_imp
    refine ⟨prepends_spaces hall _, fun before => ?_⟩
    have hne : (c :: rest).takeWhile isSpace ≠ [] := by simp [hspace]
    have hlast := List.getLast?_eq_some_getLast hne
    exact wordCut_of_last hlast (isWordPart_of_isSpace (hall _ (List.getLast_mem hne)))
  split at h
  · rename_i hslash
    simp only [Bool.and_eq_true, beq_iff_eq] at hslash
    obtain ⟨rfl, hhead⟩ := hslash
    obtain ⟨rest, rfl⟩ := List.head?_eq_some_iff.mp hhead
    obtain ⟨hgap, rfl⟩ := Prod.mk.inj h
    obtain rfl := Piece.gap.inj hgap
    have hnext := head?_dropWhile_inLineComment hnul
    constructor
    · intro text after hrest htext
      have hnewline : '\n'.toUInt8 ∉ rest.takeWhile inLineComment := fun hmem => by
        have := List.mem_takeWhile_imp hmem
        revert this
        decide
      have hcomment := Ignored.lineComment hnewline (hrest ▸ hnext) htext
      exact hcomment
    · intro before
      refine .inl ?_
      intro d hd
      rw [hnext d hd]
      decide
  split at h
  · rename_i hopener
    simp only [Bool.and_eq_true, beq_iff_eq] at hopener
    obtain ⟨rfl, hhead⟩ := hopener
    obtain ⟨body, rfl⟩ := List.head?_eq_some_iff.mp hhead
    unfold blockComment at h
    split at h
    · rename_i n hcloser
      obtain ⟨inner, after, hbody, rfl, hnone⟩ := closer?_eq_some hcloser
      obtain ⟨hgap, rfl⟩ := Prod.mk.inj h
      obtain rfl := Piece.gap.inj hgap
      rw [List.tail_cons] at hbody
      have htake : body.take (0 + inner.length + 2) = inner ++ utf8 "*/" := by
        rw [hbody, ← List.append_assoc, List.take_left' (by simp [closer_eq])]
      rw [List.tail_cons, htake]
      constructor
      · intro text rest' _ htext
        have hcomment := Ignored.blockComment hnone htext
        rwa [List.append_assoc (utf8 "/*")] at hcomment
      · intro before
        refine wordCut_of_last (c := '/'.toUInt8) ?_ (by decide)
        rw [closer_eq, ← List.append_assoc, List.getLast?_append]
        rfl
    · cases (Prod.mk.inj h).1
  · unfold nextToken at h
    split at h
    · cases (Prod.mk.inj h).1
    split at h
    · cases (Prod.mk.inj h).1
    split at h
    · cases (Prod.mk.inj h).1
    split at h
    · cases (Prod.mk.inj h).1
    split at h
    · cases (Prod.mk.inj h).1
    · cases (Prod.mk.inj h).1

/-- The token with the given kind and literal behind the bytes of `before`. -/
def tokenBehind (before : Bytes) (kind : TokenKind) (literal : Bytes) : Token :=
  ⟨kind, literal, (Position.start.after before).line, (Position.start.after before).column⟩

/-- What the text of a token must fulfil for the token to occupy it. -/
theorem occupies_text {before text rest : Bytes} {kind : TokenKind} {literal : Bytes}
    (hne : text ≠ [])
    (hliteral : text = literal ∨
      kind = .illegal ∧ ∃ c, text = [c] ∧ literal = Utf8.ofByte c)
    (hspelled : (⟨kind, literal, 0, 0⟩ : Token).Spelled)
    (hword : kind = .ident ∨ kind ∈ TokenKind.reserved.map (·.2) →
      Span.Maximal IsWord (before ++ (text ++ rest))
        ⟨before.length, before.length + text.length⟩)
    (hnumber : kind = .int → Span.Maximal IsNumeral (before ++ (text ++ rest))
      ⟨before.length, before.length + text.length⟩)
    (hillegal : kind = .illegal → text = utf8 "/*" ∨ ∃ c, text = [c] ∧ Foreign c rest.head?) :
    Token.Occupies (before ++ (text ++ rest)) (tokenBehind before kind literal)
      ⟨before.length, before.length + text.length⟩ := by
  obtain ⟨hline, hcolumn⟩ := after_start_eq before (text ++ rest)
  have hlength := List.length_pos_iff.mpr hne
  have hnext : (before ++ (text ++ rest))[before.length + text.length]? = rest.head? := by
    rw [List.getElem?_append_right (by omega), List.getElem?_append_right (by omega),
      List.head?_eq_getElem?]
    congr 1
    omega
  exact {
    nonempty := by simp only; omega
    inside := by simp only [List.length_append]; omega
    literal := by rwa [bytes_between]
    line := congrArg Int.ofNat hline
    column := congrArg Int.ofNat hcolumn
    spelled := ⟨hspelled.name, hspelled.numeral, hspelled.fixed⟩
    word := hword
    number := hnumber
    illegal := by rwa [bytes_between, hnext] }

/-- The kinds of tokens that are neither words nor numbers nor illegal. -/
def TokenKind.IsSymbol (k : TokenKind) : Prop :=
  k ≠ .eof ∧ k ≠ .ident ∧ k ≠ .int ∧ k ≠ .illegal ∧ k ∉ reserved.map (·.2)

instance (k : TokenKind) : Decidable k.IsSymbol := by
  unfold TokenKind.IsSymbol
  infer_instance

theorem isSymbol_of_ofSymbol? {c : UInt8} {k : TokenKind} (h : TokenKind.ofSymbol? c = some k) :
    k.IsSymbol ∧ isWordPart c = false := by
  have hall : ∀ c : UInt8, (TokenKind.ofSymbol? c).all fun k => k.IsSymbol ∧ isWordPart c = false :=
    forall_byte (by decide +kernel)
  have hk := hall c
  rw [h] at hk
  simpa using hk

/-- The token of a symbol. -/
theorem occupies_symbol {before text rest : Bytes} {kind : TokenKind} (hkind : kind.IsSymbol)
    (hne : text ≠ []) (hspelling : kind.spelling? = some text) :
    Token.Occupies (before ++ (text ++ rest)) (tokenBehind before kind text)
      ⟨before.length, before.length + text.length⟩ := by
  obtain ⟨-, hident, hint, hillegal, hreserved⟩ := hkind
  refine occupies_text hne (.inl rfl) (spelled_of_spelling? hspelling hident hint) ?_ ?_ ?_
  · rintro (h | h)
    · exact absurd h hident
    · exact absurd h hreserved
  · intro h
    exact absurd h hint
  · intro h
    exact absurd h hillegal

/-- The kind of a word is neither `eof` nor `int` nor `illegal`. -/
theorem ofWord_ne (w : Bytes) :
    TokenKind.ofWord w ≠ .eof ∧ TokenKind.ofWord w ≠ .int ∧ TokenKind.ofWord w ≠ .illegal := by
  rcases ofWord_cases w with h | ⟨hint, -, hspelling⟩
  · rw [h]
    decide
  · have hnone : TokenKind.spelling? .eof = none ∧ TokenKind.spelling? .illegal = none := by decide
    refine ⟨?_, hint, ?_⟩
    · intro h
      rw [h, hnone.1] at hspelling
      cases hspelling
    · intro h
      rw [h, hnone.2] at hspelling
      cases hspelling

theorem ofByte_ne (c : UInt8) : Utf8.ofByte c ≠ utf8 "/*" := by
  revert c
  exact forall_byte (by decide +kernel)

/-- A number ends where no digit follows, and there was nothing of a word before it. -/
theorem wordCut_number {before rest : Bytes} {c : UInt8} (hc : isDigit c)
    (h : WordCut before (c :: rest)) :
    WordCut (before ++ (c :: rest).takeWhile isDigit) ((c :: rest).dropWhile isDigit) := by
  have hall : ∀ d ∈ (c :: rest).takeWhile isDigit, isDigit d := fun d => List.mem_takeWhile_imp
  refine .inr ⟨?_, .inr ?_⟩
  · rw [wordTail_append_of_all fun d hd => isWordPart_of_isDigit (hall d hd), h.of_digit hc,
      List.append_nil]
    intro d hd
    exact hall d (List.mem_reverse.mp hd)
  · intro d hd
    have hfalse := List.head?_dropWhile_not isDigit (c :: rest)
    rw [Option.mem_def.mp hd] at hfalse
    simpa using hfalse

/-- The token that is read occupies its bytes, and no word is cut behind it. -/
theorem token_nextToken {before rest : Bytes} {c : UInt8} {kind : TokenKind}
    {literal text rest' : Bytes} (h : nextToken c rest = (.token kind literal text, rest'))
    (hspace : isSpace c = false)
    (hcomment : ¬ (c = '/'.toUInt8 ∧
      (rest.head? = some '/'.toUInt8 ∨ rest.head? = some '*'.toUInt8)))
    (hzero : c ≠ 0) (hcut : WordCut before (c :: rest)) :
    kind ≠ .eof ∧ ¬ (kind = .illegal ∧ literal = utf8 "/*") ∧
      Token.Occupies (before ++ (c :: rest)) (tokenBehind before kind literal)
        ⟨before.length, before.length + text.length⟩ ∧
      WordCut (before ++ text) rest' := by
  have hspelled : (⟨kind, literal, 0, 0⟩ : Token).Spelled :=
    spelled_nextToken (by rw [h]; rfl)
  have hwhole : text ++ rest' = c :: rest := by
    have := nextToken_text c rest
    rwa [h] at this
  rw [← hwhole]
  unfold nextToken at h
  rw [if_neg (by simpa using hzero)] at h
  split at h
  · -- `&&`
    obtain ⟨hpiece, rfl⟩ := Prod.mk.inj h
    obtain ⟨rfl, rfl, rfl⟩ := Piece.token.inj hpiece
    refine ⟨by decide, by decide, occupies_symbol (by decide) (by decide) (by decide), ?_⟩
    exact wordCut_of_last (c := '&'.toUInt8) (by decide) (by decide)
  rename_i hpair
  split at h
  · -- one symbol
    rename_i k hk
    obtain ⟨hpiece, rfl⟩ := Prod.mk.inj h
    obtain ⟨rfl, rfl, rfl⟩ := Piece.token.inj hpiece
    obtain ⟨hkind, hlast⟩ := isSymbol_of_ofSymbol? hk
    refine ⟨hkind.1, fun hunclosed => hkind.2.2.2.1 hunclosed.1, ?_, wordCut_of_last rfl hlast⟩
    exact occupies_symbol hkind (List.cons_ne_nil _ _) (spelling?_of_ofSymbol? hk).2.2
  rename_i hsymbol
  split at h
  · -- a word
    rename_i hstart
    obtain ⟨hpiece, rfl⟩ := Prod.mk.inj h
    obtain ⟨rfl, rfl, rfl⟩ := Piece.token.inj hpiece
    obtain ⟨heof, hint, hillegal⟩ := ofWord_ne ((c :: rest).takeWhile isWordPart)
    refine ⟨heof, fun hunclosed => hillegal hunclosed.1, ?_, .inl (stops_dropWhile _)⟩
    refine occupies_text (isWord_takeWhile rest hstart).ne_nil (.inl rfl) hspelled ?_ ?_ ?_
    · intro _
      rw [hwhole]
      exact maximal_word hstart hcut
    · intro hk
      exact absurd hk hint
    · intro hk
      exact absurd hk hillegal
  rename_i hstart
  split at h
  · -- a number
    rename_i hdigit
    obtain ⟨hpiece, rfl⟩ := Prod.mk.inj h
    obtain ⟨rfl, rfl, rfl⟩ := Piece.token.inj hpiece
    refine ⟨by decide, fun hunclosed => (nomatch hunclosed.1), ?_, wordCut_number hdigit hcut⟩
    refine occupies_text (isNumeral_takeWhile rest hdigit).1 (.inl rfl) hspelled ?_ ?_ ?_
    · intro hk
      exact absurd hk (by decide)
    · intro _
      rw [hwhole]
      exact maximal_number hdigit hcut
    · intro hk
      exact absurd hk (by decide)
  · -- a byte that starts nothing
    rename_i hdigit
    rw [Bool.not_eq_true] at hstart hdigit
    obtain ⟨hpiece, rfl⟩ := Prod.mk.inj h
    obtain ⟨rfl, rfl, rfl⟩ := Piece.token.inj hpiece
    have hforeign : Foreign c rest.head? :=
      ⟨hspace, hstart, hdigit, hsymbol, by simpa using hpair, hcomment⟩
    have hlast : isWordPart c = false := by simp [isWordPart, hstart, hdigit]
    refine ⟨by decide, fun hunclosed => ofByte_ne c hunclosed.2, ?_, wordCut_of_last rfl hlast⟩
    refine occupies_text (List.cons_ne_nil _ _) (.inr ⟨rfl, c, rfl, rfl⟩) hspelled ?_ ?_ ?_
    · intro hk
      exact absurd hk (by decide)
    · intro hk
      exact absurd hk (by decide)
    · intro _
      exact .inr ⟨c, rfl, hforeign⟩

/-- The piece that is a token is a comment that is never closed, which takes all the rest, or a
token that occupies its bytes. -/
theorem token_nextPiece {before rest : Bytes} {c : UInt8} {kind : TokenKind}
    {literal text rest' : Bytes} (h : nextPiece c rest = (.token kind literal text, rest'))
    (hnul : 0 ∉ c :: rest) (hcut : WordCut before (c :: rest)) :
    (∃ body, c :: rest = utf8 "/*" ++ body ∧ kind = .illegal ∧ literal = utf8 "/*" ∧ rest' = [] ∧
      ¬ utf8 "*/" <:+: body) ∨
    kind ≠ .eof ∧ ¬ (kind = .illegal ∧ literal = utf8 "/*") ∧
      Token.Occupies (before ++ (c :: rest)) (tokenBehind before kind literal)
        ⟨before.length, before.length + text.length⟩ ∧
      WordCut (before ++ text) rest' := by
  unfold nextPiece at h
  split at h
  · cases (Prod.mk.inj h).1
  rename_i hspace
  split at h
  · cases (Prod.mk.inj h).1
  rename_i hline
  split at h
  · rename_i hopener
    simp only [Bool.and_eq_true, beq_iff_eq] at hopener
    obtain ⟨rfl, hhead⟩ := hopener
    obtain ⟨body, rfl⟩ := List.head?_eq_some_iff.mp hhead
    have hbody : 0 ∉ body := fun hmem => hnul (by simp [hmem])
    unfold blockComment at h
    split at h
    · cases (Prod.mk.inj h).1
    · rename_i hcloser
      obtain ⟨hpiece, rfl⟩ := Prod.mk.inj h
      obtain ⟨rfl, rfl, rfl⟩ := Piece.token.inj hpiece
      refine .inl ⟨body, rfl, rfl, rfl, ?_, closer?_eq_none hcloser hbody⟩
      rw [List.tail_cons, List.dropWhile_eq_nil_iff]
      intro d hd
      rw [bne_iff_ne]
      rintro rfl
      exact hbody hd
  · rename_i hblock
    rw [Bool.not_eq_true] at hspace
    refine .inr (token_nextToken h hspace ?_ ?_ hcut)
    · rintro ⟨hc, hhead | hhead⟩
      · exact hline (by simp [hc, hhead])
      · exact hblock (by simp [hc, hhead])
    · rintro rfl
      exact hnul List.mem_cons_self

/-! ### All pieces -/

/-- A stretch and what follows it are what follows its start. -/
theorem bytes_append_drop (source : Bytes) {a b : Nat} (h : a ≤ b) :
    Span.bytes ⟨a, b⟩ source ++ source.drop b = source.drop a := by
  rw [Span.bytes, List.drop_take]
  have hdrop : source.drop b = (source.drop a).drop (b - a) := by
    rw [List.drop_drop, Nat.add_sub_cancel' h]
  rw [hdrop, List.take_append_drop]

theorem bytes_append {source : Bytes} {a b c : Nat} (hab : a ≤ b) (hbc : b ≤ c) :
    Span.bytes ⟨a, c⟩ source = Span.bytes ⟨a, b⟩ source ++ Span.bytes ⟨b, c⟩ source := by
  have hwhole : Span.bytes ⟨a, c⟩ source ++ source.drop c =
      Span.bytes ⟨a, b⟩ source ++ Span.bytes ⟨b, c⟩ source ++ source.drop c := by
    rw [bytes_append_drop source (hab.trans hbc), List.append_assoc, bytes_append_drop source hbc,
      bytes_append_drop source hab]
  exact List.append_cancel_right hwhole

/-- The gap before the first token grows to the left. -/
theorem gaps_prepend {before gap rest : Bytes} (hgap : Prepends gap rest) {ts : List (Token × Span)}
    (h : Gaps (before ++ (gap ++ rest)) (before.length + gap.length) ts) :
    Gaps (before ++ (gap ++ rest)) before.length ts := by
  have hrest : (before ++ (gap ++ rest)).drop (before.length + gap.length) = rest := by
    rw [← List.drop_drop, List.drop_left, List.drop_left]
  cases ts with
  | nil =>
    show Ignored _ _
    rw [List.drop_left]
    have hignored : Ignored _ _ := h
    rw [hrest] at hignored
    exact hgap rest [] (List.append_nil rest) hignored
  | cons pair ts =>
    obtain ⟨t, s⟩ := pair
    obtain ⟨hle, hignored, hrun⟩ := h
    refine ⟨by omega, ?_, hrun⟩
    rw [bytes_append (Nat.le_add_right _ gap.length) hle, bytes_between]
    refine hgap _ _ ?_ hignored
    rw [bytes_append_drop _ hle, hrest]

/-- The opener of a comment that is never closed. -/
theorem occupies_opener (before body : Bytes) :
    Token.Occupies (before ++ (utf8 "/*" ++ body)) (tokenBehind before .illegal (utf8 "/*"))
      ⟨before.length, before.length + (utf8 "/*").length⟩ := by
  refine occupies_text (by decide) (.inl rfl) ?_ ?_ ?_ ?_
  · exact spelled_of_spelling?_eq_none _ (by decide) (by decide) (by decide)
  · intro hk
    exact absurd hk (by decide)
  · intro hk
    exact absurd hk (by decide)
  · intro _
    exact .inl rfl

theorem ignored_nothing (source rest : Bytes) (a : Nat) :
    Ignored (Span.bytes ⟨a, a⟩ source) rest := by
  have hnil : Span.bytes ⟨a, a⟩ source = [] := by simp [Span.bytes]
  rw [hnil]
  exact .none

/-- The tokens of the rest of a source tile it. -/
theorem tile_rest (before text : Bytes) (hnul : 0 ∉ text) (hcut : WordCut before text) :
    ∃ spans, List.Forall₂ (Token.Occupies (before ++ text))
        (Piece.locate (Position.start.after before) (pieces text)) spans ∧
      (∀ t ∈ Piece.locate (Position.start.after before) (pieces text), t.kind ≠ .eof) ∧
      Gaps (before ++ text) before.length
        ((Piece.locate (Position.start.after before) (pieces text)).zip spans) := by
  induction hn : text.length using Nat.strong_induction_on generalizing before text with
  | _ n ih =>
    cases text with
    | nil =>
      refine ⟨[], .nil, by simp [pieces, piecesWithin, Piece.locate], ?_⟩
      show Ignored _ _
      rw [List.drop_left]
      exact .none
    | cons c rest =>
      have hwhole := nextPiece_text c rest
      have hshort := length_nextPiece_lt c rest
      rw [List.length_cons] at hn
      rw [pieces_cons]
      cases hpiece : nextPiece c rest with
      | mk piece rest' =>
      rw [hpiece] at hwhole hshort
      simp only at hwhole hshort
      have hnul' : 0 ∉ rest' := fun hmem => hnul (hwhole ▸ List.mem_append_right _ hmem)
      cases piece with
      | gap gap =>
        obtain ⟨hprepends, hcut'⟩ := gap_nextPiece hpiece hnul
        obtain ⟨spans, hspans, heof, hgaps⟩ :=
          ih rest'.length (by omega) (before ++ gap) rest' hnul' (hcut' before) rfl
        rw [Position.after_append, List.append_assoc] at hspans
        rw [Position.after_append] at heof
        rw [Position.after_append, List.append_assoc, List.length_append] at hgaps
        have hgap : gap ++ rest' = c :: rest := hwhole
        have hgaps' := gaps_prepend hprepends hgaps
        rw [hgap] at hspans hgaps'
        exact ⟨spans, hspans, heof, hgaps'⟩
      | token kind literal text =>
        rcases token_nextPiece hpiece hnul hcut with
          ⟨body, hbody, rfl, rfl, rfl, hclosed⟩ | ⟨hkind, hunclosed, hoccupies, hcut'⟩
        · -- all the rest belongs to a comment
          rw [hbody]
          refine ⟨[_], .cons (occupies_opener before body) .nil, ?_, ?_⟩
          · intro t ht
            obtain rfl := List.mem_singleton.mp ht
            intro heof
            cases heof
          · refine ⟨Nat.le_refl _, ignored_nothing _ _ _, ?_, ?_⟩
            · intro _
              refine ⟨rfl, ?_⟩
              rw [← List.drop_drop, List.drop_left, List.drop_left]
              exact hclosed
            · intro hnot
              exact absurd ⟨rfl, rfl⟩ hnot
        · obtain ⟨spans, hspans, heof, hgaps⟩ :=
            ih rest'.length (by omega) (before ++ text) rest' hnul' hcut' rfl
          have htext : text ++ rest' = c :: rest := hwhole
          rw [Position.after_append, List.append_assoc, htext] at hspans
          rw [Position.after_append] at heof
          rw [Position.after_append, List.append_assoc, htext, List.length_append] at hgaps
          refine ⟨_ :: spans, .cons hoccupies hspans, List.forall_mem_cons.mpr ⟨hkind, heof⟩, ?_⟩
          exact ⟨Nat.le_refl _, ignored_nothing _ _ _, fun h => absurd h hunclosed, fun _ => hgaps⟩

/-- Tokens with ignored text between them come one after the other. -/
theorem ordered_of_gaps {source : Bytes} {ts : List Token} {spans : List Span}
    (h : List.Forall₂ (Token.Occupies source) ts spans) {start : Nat}
    (hgaps : Gaps source start (ts.zip spans)) :
    (∀ s ∈ spans, start ≤ s.start) ∧ spans.Pairwise fun s s' => s.stop ≤ s'.start := by
  induction h generalizing start with
  | nil => simp
  | @cons t s ts spans hts hall ih =>
    obtain ⟨hle, -, hlast, hrest⟩ := hgaps
    have hothers : (∀ s' ∈ spans, s.stop ≤ s'.start) ∧
        spans.Pairwise fun s s' => s.stop ≤ s'.start := by
      by_cases hunclosed : t.IsUnclosed
      · have hnil := (hlast hunclosed).1
        cases hall with
        | nil => simp
        | cons _ _ => cases hnil
      · exact ih (hrest hunclosed)
    refine ⟨List.forall_mem_cons.mpr ⟨hle, ?_⟩, List.pairwise_cons.mpr hothers⟩
    intro s' hs'
    have hnonempty := hts.nonempty
    have hnext := hothers.1 s' hs'
    omega

/-! ### The tokens of a source -/

theorem TokenStream.take_pending (s : TokenStream) :
    s.take (s.pending.length + 1) = s.pending ++ [eofAt s.finish 0] := by
  obtain ⟨pending, finish⟩ := s
  induction pending with
  | nil => rfl
  | cons t pending ih => exact congrArg (t :: ·) ih

/-- A source without NUL bytes is tiled by the tokens before its end, and by white space and
comments between them. -/
theorem tokens_tile_source (source : Bytes) (hnul : 0 ∉ source) :
    ∃ tokens spans last, (TokenStream.ofSource source).takeToEnd 0 = tokens ++ [last] ∧
      last.kind = .eof ∧ (∀ t ∈ tokens, t.kind ≠ .eof) ∧
      List.Forall₂ (Token.Occupies source) tokens spans ∧
      (spans.Pairwise fun s s' => s.stop ≤ s'.start) ∧ Gaps source 0 (tokens.zip spans) := by
  obtain ⟨spans, hspans, heof, hgaps⟩ := tile_rest [] source hnul (.inr ⟨nofun, .inl rfl⟩)
  refine ⟨(TokenStream.ofSource source).pending, spans,
    TokenStream.eofAt (TokenStream.ofSource source).finish 0, ?_, rfl, heof, hspans,
    (ordered_of_gaps hspans hgaps).2, hgaps⟩
  have hall : (TokenStream.ofSource source).pending.takeWhile (·.kind != .eof) =
      (TokenStream.ofSource source).pending := by
    rw [List.takeWhile_eq_self_iff]
    intro t ht
    simpa using heof t ht
  rw [TokenStream.takeToEnd, hall, Nat.add_zero]
  exact TokenStream.take_pending _

/-- A source with a word next to a number, a comment of each form, a byte that starts nothing, and
a comment that is never closed. -/
def untidy : Bytes := "a1 /* * / ** // */1b&&& //\x0b/*\n\tclassy#/*/ c"

theorem tokens_tile_untidy :
    ∃ tokens spans last, (TokenStream.ofSource untidy).takeToEnd 0 = tokens ++ [last] ∧
      last.kind = .eof ∧ (∀ t ∈ tokens, t.kind ≠ .eof) ∧
      List.Forall₂ (Token.Occupies untidy) tokens spans ∧
      (spans.Pairwise fun s s' => s.stop ≤ s'.start) ∧ Gaps untidy 0 (tokens.zip spans) :=
  tokens_tile_source untidy (by decide +kernel)

end MiniJava
