import Mathlib.Data.List.TakeWhile
import MiniJava.Proofs.Text.Byte
import MiniJava.Token.Stream

/-!
# What a text says, wherever it stands

The tokens of a text without their places.  Two texts that are put one after the other say what
they say alone, as long as no word and no comment runs from the first into the second.

* **`Token.unplaced`** — a token without its place.
* **`scan`** — the tokens of a text without their places; `map_unplaced_ofSource`.
* **`scan_append`** — a clean cut: the tokens of `a ++ b` are those of `a`, then those of `b`.
* **`Token.Spelled`** — the bytes of a token are such as its kind calls for; `spelled_of_mem_scan`:
  so they are in every source.
-/

namespace MiniJava

/-- The token without its place. -/
def Token.unplaced (t : Token) : Token := { t with line := 0, column := 0 }

@[simp] theorem Token.unplaced_kind (t : Token) : t.unplaced.kind = t.kind := rfl

@[simp] theorem Token.unplaced_literal (t : Token) : t.unplaced.literal = t.literal := rfl

@[simp] theorem Token.unplaced_unplaced (t : Token) : t.unplaced.unplaced = t.unplaced := rfl

/-- The token that a piece is, without a place. -/
def Piece.token? : Piece → Option Token
  | .gap _ => none
  | .token kind literal _ => some ⟨kind, literal, 0, 0⟩

/-- The tokens of a text without their places. -/
def scan (text : Bytes) : List Token := (pieces text).filterMap Piece.token?

theorem map_unplaced_locate (p : Position) (ps : List Piece) :
    (Piece.locate p ps).map Token.unplaced = ps.filterMap Piece.token? := by
  induction ps generalizing p with
  | nil => rfl
  | cons piece rest ih =>
    cases piece with
    | gap t => exact ih (p.after t)
    | token kind literal t => simp [Piece.locate, Piece.token?, Token.unplaced, ih]

/-- The stream of a source holds the tokens that a scan finds. -/
theorem map_unplaced_ofSource (source : Bytes) :
    (TokenStream.ofSource source).pending.map Token.unplaced = scan source :=
  map_unplaced_locate .start (pieces source)

/-! ### A scan, piece by piece -/

theorem length_nextPiece_lt (c : UInt8) (rest : Bytes) :
    (nextPiece c rest).2.length ≤ rest.length := by
  have tiled := congrArg List.length (nextPiece_text c rest)
  have nonempty := List.length_pos_iff.mpr (nextPiece_text_ne_nil c rest)
  simp only [List.length_append, List.length_cons] at tiled
  omega

/-- More room than there are bytes changes nothing. -/
theorem piecesWithin_eq_of_le {m n : Nat} {text : Bytes} (hm : text.length ≤ m)
    (hn : text.length ≤ n) : piecesWithin m text = piecesWithin n text := by
  induction m generalizing n text with
  | zero =>
    obtain rfl : text = [] := List.length_eq_zero_iff.mp (by omega)
    cases n <;> rfl
  | succ m ih =>
    cases text with
    | nil => cases n <;> rfl
    | cons c rest =>
      obtain ⟨n, rfl⟩ : ∃ n', n = n' + 1 := ⟨n - 1, by simp only [List.length_cons] at hn; omega⟩
      have hlt := length_nextPiece_lt c rest
      simp only [List.length_cons] at hm hn
      show _ :: piecesWithin m (nextPiece c rest).2 = _ :: piecesWithin n (nextPiece c rest).2
      rw [ih (n := n) (by omega) (by omega)]

theorem pieces_cons (c : UInt8) (rest : Bytes) :
    pieces (c :: rest) = (nextPiece c rest).1 :: pieces (nextPiece c rest).2 := by
  have hlt := length_nextPiece_lt c rest
  show (nextPiece c rest).1 :: piecesWithin rest.length (nextPiece c rest).2 = _
  rw [pieces, piecesWithin_eq_of_le hlt (Nat.le_refl _)]

/-- Every piece of a text is at the front of some end of the text. -/
theorem exists_nextPiece_of_mem {text : Bytes} {piece : Piece} (h : piece ∈ pieces text) :
    ∃ c rest, piece = (nextPiece c rest).1 := by
  induction hn : text.length using Nat.strong_induction_on generalizing text with
  | _ n ih =>
    cases text with
    | nil => cases h
    | cons c rest =>
      rw [pieces_cons] at h
      have hlt := length_nextPiece_lt c rest
      rw [List.length_cons] at hn
      cases h with
      | head => exact ⟨c, rest, rfl⟩
      | tail _ h => exact ih _ (by omega) h rfl

@[simp] theorem scan_nil : scan [] = [] := rfl

theorem scan_cons (c : UInt8) (rest : Bytes) :
    scan (c :: rest) = (nextPiece c rest).1.token?.toList ++ scan (nextPiece c rest).2 := by
  rw [scan, pieces_cons, List.filterMap_cons]
  cases (nextPiece c rest).1.token? <;> rfl

/-- White space in front says nothing. -/
theorem scan_dropWhile_isSpace (text : Bytes) : scan (text.dropWhile isSpace) = scan text := by
  cases text with
  | nil => rfl
  | cons c rest =>
    by_cases hc : isSpace c
    · rw [scan_cons c rest]
      simp [nextPiece, hc, Piece.token?]
    · simp [hc]

theorem scan_cons_space {c : UInt8} (hc : isSpace c) (rest : Bytes) :
    scan (c :: rest) = scan rest := by
  rw [← scan_dropWhile_isSpace (c :: rest), List.dropWhile_cons_of_pos hc,
    scan_dropWhile_isSpace rest]

/-! ### Clean cuts -/

/-- The text does not go on with a word or a number. -/
def Stops (text : Bytes) : Prop := ∀ c ∈ text.head?, isWordPart c = false

/-- Nothing of `a` can run on into `b`: no comment starts in `a`, and `a` ends neither inside an
operator nor inside a word that `b` goes on with. -/
structure CleanCut (a b : Bytes) : Prop where
  slash : '/'.toUInt8 ∉ a
  ampersand : a.getLast? ≠ some '&'.toUInt8
  word : Stops b ∨ ∀ c ∈ a.getLast?, isWordPart c = false

theorem getLast?_of_suffix {a a' : Bytes} (h : a' <:+ a) (hne : a' ≠ []) :
    a'.getLast? = a.getLast? := by
  obtain ⟨front, rfl⟩ := h
  rw [List.getLast?_append, List.getLast?_eq_some_getLast hne]
  rfl

theorem CleanCut.suffix {a a' b : Bytes} (h : CleanCut a b) (hs : a' <:+ a) : CleanCut a' b := by
  by_cases hne : a' = []
  · subst hne
    exact ⟨by simp, by simp, .inr (by simp)⟩
  · have hlast := getLast?_of_suffix hs hne
    exact ⟨fun hmem => h.slash (hs.subset hmem), hlast ▸ h.ampersand, hlast ▸ h.word⟩

/-- A run of bytes that ends with `a` is not longer in `a ++ b`. -/
theorem run_append {p : UInt8 → Bool} {a b : Bytes}
    (hb : a.dropWhile p = [] → ∀ c ∈ b.head?, p c = false) :
    (a ++ b).takeWhile p = a.takeWhile p ∧ (a ++ b).dropWhile p = a.dropWhile p ++ b := by
  induction a with
  | nil =>
    cases b with
    | nil => simp
    | cons c b =>
      have hc : p c = false := hb rfl c (by simp)
      simp [hc]
  | cons c a ih =>
    by_cases hc : p c
    · rw [List.dropWhile_cons_of_pos hc] at hb
      obtain ⟨htake, hdrop⟩ := ih hb
      simp [hc, htake, hdrop]
    · simp [hc]

/-- All of a run satisfies the predicate of the run, its last byte too. -/
theorem last_of_dropWhile_eq_nil {p : UInt8 → Bool} {c : UInt8} {a : Bytes}
    (h : (c :: a).dropWhile p = []) : ∃ d ∈ (c :: a).getLast?, p d := by
  refine ⟨_, List.getLast?_eq_some_getLast (List.cons_ne_nil c a), ?_⟩
  exact List.dropWhile_eq_nil_iff.mp h _ (List.getLast_mem _)

theorem isWordPart_of_isDigit {c : UInt8} (h : isDigit c) : isWordPart c := by
  simp [isWordPart, h]

/-- A clean cut ends every run of word bytes, and every run that is finer. -/
theorem CleanCut.run {p : UInt8 → Bool} {c : UInt8} {a b : Bytes} (h : CleanCut (c :: a) b)
    (hp : ∀ d, p d → isWordPart d) :
    (c :: a ++ b).takeWhile p = (c :: a).takeWhile p ∧
      (c :: a ++ b).dropWhile p = (c :: a).dropWhile p ++ b := by
  refine run_append fun hall d hd => ?_
  obtain ⟨last, hlast, hplast⟩ := last_of_dropWhile_eq_nil hall
  rcases h.word with hstop | hword
  · have hd := hstop d hd
    cases hpd : p d with
    | false => rfl
    | true => rw [hp d hpd] at hd; cases hd
  · have hfalse := hword last hlast
    rw [hp last hplast] at hfalse
    cases hfalse

/-- The token in front of a clean cut is the same whatever follows. -/
theorem nextToken_append {c : UInt8} {a b : Bytes} (h : CleanCut (c :: a) b) :
    nextToken c (a ++ b) = ((nextToken c a).1, (nextToken c a).2 ++ b) := by
  have hword := h.run (p := isWordPart) fun _ hd => hd
  have hdigit := h.run (p := isDigit) fun _ hd => isWordPart_of_isDigit hd
  simp only [List.cons_append] at hword hdigit
  unfold nextToken
  by_cases h0 : (c == 0) = true
  · simp only [h0, if_true]
  simp only [h0, hword, hdigit, Bool.false_eq_true, if_false]
  have hand : (c == '&' && (a ++ b).head? == some '&') = (c == '&' && a.head? == some '&') := by
    cases a with
    | nil =>
      have hc : (c == '&'.toUInt8) = false := by
        have hne := h.ampersand
        simp only [List.getLast?_singleton, ne_eq, Option.some.injEq] at hne
        exact beq_eq_false_iff_ne.mpr hne
      simp only [hc, Bool.false_and]
    | cons d a => rfl
  rw [hand]
  by_cases hpair : (c == '&' && a.head? == some '&') = true
  · rw [if_pos hpair, if_pos hpair]
    cases a with
    | nil => simp at hpair
    | cons d a => rfl
  · rw [if_neg hpair, if_neg hpair]
    cases TokenKind.ofSymbol? c with
    | some kind => rfl
    | none =>
      by_cases hstart : isWordStart c = true
      · simp only [hstart, if_true]
      by_cases hdig : isDigit c = true
      · simp only [hstart, hdig, if_true, Bool.false_eq_true, if_false]
      · simp only [hstart, hdig, Bool.false_eq_true, if_false]

theorem nextPiece_eq_nextToken {c : UInt8} {rest : Bytes} (hspace : isSpace c = false)
    (hslash : c ≠ '/'.toUInt8) : nextPiece c rest = nextToken c rest := by
  have hc : (c == '/'.toUInt8) = false := beq_eq_false_iff_ne.mpr hslash
  simp only [nextPiece, hspace, hc, Bool.false_and, Bool.false_eq_true, if_false]

/-- The tokens of two texts one after the other are those of the first, then those of the second,
when the cut between them is clean. -/
theorem scan_append {a b : Bytes} (h : CleanCut a b) : scan (a ++ b) = scan a ++ scan b := by
  induction hn : a.length using Nat.strong_induction_on generalizing a with
  | _ n ih =>
    cases a with
    | nil => rfl
    | cons c a =>
      simp only [List.length_cons] at hn
      by_cases hspace : isSpace c
      · rw [List.cons_append, scan_cons_space hspace, scan_cons_space hspace,
          ih a.length (by omega) (h.suffix (List.suffix_cons c a)) rfl]
      · have hslash : c ≠ '/'.toUInt8 := fun hc => h.slash (by simp [hc])
        rw [Bool.not_eq_true] at hspace
        have hlt := length_nextPiece_lt c a
        have hsuffix : (nextToken c a).2 <:+ c :: a := ⟨_, nextToken_text c a⟩
        rw [List.cons_append, scan_cons, scan_cons, nextPiece_eq_nextToken hspace hslash,
          nextPiece_eq_nextToken hspace hslash, nextToken_append h]
        rw [nextPiece_eq_nextToken hspace hslash] at hlt
        rw [ih _ (by omega) (h.suffix hsuffix) rfl, List.append_assoc]

/-! ### Words and numbers -/

/-- A word: a letter or an underscore, and letters, underscores and digits after it. -/
def IsWord (w : Bytes) : Prop := (∃ c ∈ w.head?, isWordStart c) ∧ ∀ c ∈ w, isWordPart c

/-- A name: a word that is not reserved. -/
def IsName (w : Bytes) : Prop := IsWord w ∧ TokenKind.ofWord w = .ident

/-- A numeral: at least one digit, and nothing else. -/
def IsNumeral (w : Bytes) : Prop := w ≠ [] ∧ ∀ c ∈ w, isDigit c

/-- A byte of a word is neither white space nor any of the bytes that the scan asks for first. -/
theorem isWordPart_spec : ∀ c : UInt8, isWordPart c →
    isSpace c = false ∧ c ≠ '/'.toUInt8 ∧ c ≠ '&'.toUInt8 ∧ c ≠ 0 ∧
      TokenKind.ofSymbol? c = none := by
  refine forall_byte ?_
  decide +kernel

theorem isWordStart_of_isDigit : ∀ c : UInt8, isDigit c → isWordStart c = false := by
  refine forall_byte ?_
  decide +kernel

theorem IsWord.ne_nil {w : Bytes} (h : IsWord w) : w ≠ [] := by
  rintro rfl
  obtain ⟨⟨c, hc, -⟩, -⟩ := h
  simp at hc

/-- Bytes of words are cut cleanly from what does not go on with one. -/
theorem cleanCut_of_isWordPart {w rest : Bytes} (h : ∀ c ∈ w, isWordPart c) (hrest : Stops rest) :
    CleanCut w rest where
  slash hmem := (isWordPart_spec _ (h _ hmem)).2.1 rfl
  ampersand hlast := (isWordPart_spec _ (h _ (List.mem_of_getLast? hlast))).2.2.1 rfl
  word := .inl hrest

theorem scan_word {w rest : Bytes} (h : IsWord w) (hrest : Stops rest) :
    scan (w ++ rest) = ⟨.ofWord w, w, 0, 0⟩ :: scan rest := by
  rw [scan_append (cleanCut_of_isWordPart h.2 hrest)]
  obtain ⟨⟨c, hc, hstart⟩, hpart⟩ := h
  obtain ⟨w, rfl⟩ := List.head?_eq_some_iff.mp hc
  obtain ⟨hspace, hslash, hand, hzero, hsymbol⟩ := isWordPart_spec _ (hpart c (by simp))
  have hall : (c :: w).takeWhile isWordPart = c :: w := List.takeWhile_eq_self_iff.mpr hpart
  have hnone : (c :: w).dropWhile isWordPart = [] := List.dropWhile_eq_nil_iff.mpr hpart
  rw [scan_cons, nextPiece_eq_nextToken hspace hslash]
  simp [nextToken, hand, hzero, hsymbol, hstart, hall, hnone, Piece.token?]

theorem scan_numeral {w rest : Bytes} (h : IsNumeral w) (hrest : Stops rest) :
    scan (w ++ rest) = ⟨.int, w, 0, 0⟩ :: scan rest := by
  obtain ⟨hne, hdigit⟩ := h
  rw [scan_append (cleanCut_of_isWordPart (fun c hc => isWordPart_of_isDigit (hdigit c hc)) hrest)]
  obtain ⟨c, w, rfl⟩ := List.exists_cons_of_ne_nil hne
  have hc := hdigit c (by simp)
  obtain ⟨hspace, hslash, hand, hzero, hsymbol⟩ := isWordPart_spec _ (isWordPart_of_isDigit hc)
  have hall : (c :: w).takeWhile isDigit = c :: w := List.takeWhile_eq_self_iff.mpr hdigit
  have hnone : (c :: w).dropWhile isDigit = [] := List.dropWhile_eq_nil_iff.mpr hdigit
  rw [scan_cons, nextPiece_eq_nextToken hspace hslash]
  simp [nextToken, hand, hzero, hsymbol, hc, isWordStart_of_isDigit c hc, hall, hnone, Piece.token?]

/-! ### Spelling -/

/-- The kinds that have only one spelling. -/
def TokenKind.spellings : List (TokenKind × String) :=
  [(assign, "="), (plus, "+"), (minus, "-"), (star, "*"), (bang, "!"), (less, "<"),
   (andAnd, "&&"), (comma, ","), (semicolon, ";"), (dot, "."), (lparen, "("), (rparen, ")"),
   (lbrace, "\x7b"), (rbrace, "\x7d"), (lbracket, "["), (rbracket, "]")]
    ++ reserved.map Prod.swap

/-- The spelling of a kind that has only one. -/
def TokenKind.spelling? (k : TokenKind) : Option Bytes := (spellings.lookup k).map utf8

/-- The bytes of the token are such as its kind calls for. -/
structure Token.Spelled (t : Token) : Prop where
  name : t.kind = .ident → IsName t.literal
  numeral : t.kind = .int → IsNumeral t.literal
  fixed : ∀ w ∈ t.kind.spelling?, t.literal = w

/-- The kind of a symbol has that spelling only. -/
theorem spelling?_of_ofSymbol? {c : UInt8} {k : TokenKind} (h : TokenKind.ofSymbol? c = some k) :
    k ≠ .ident ∧ k ≠ .int ∧ k.spelling? = some [c] := by
  have hall : ∀ c : UInt8,
      (TokenKind.ofSymbol? c).all fun k => k ≠ .ident ∧ k ≠ .int ∧ k.spelling? = some [c] :=
    forall_byte (by decide +kernel)
  have hk := hall c
  rw [h] at hk
  simpa using hk

/-- A word is a name, or it is the only spelling of its kind. -/
theorem ofWord_cases (w : Bytes) :
    TokenKind.ofWord w = .ident ∨
      TokenKind.ofWord w ≠ .int ∧ TokenKind.ofWord w ≠ .ident ∧
        (TokenKind.ofWord w).spelling? = some w := by
  unfold TokenKind.ofWord
  cases hfind : TokenKind.reserved.find? (utf8 ·.1 == w) with
  | none => exact .inl rfl
  | some entry =>
    obtain ⟨word, k⟩ := entry
    have hmem := List.mem_of_find?_eq_some hfind
    have hw : utf8 word = w := by simpa using List.find?_some hfind
    have hall : ∀ entry ∈ TokenKind.reserved,
        entry.2 ≠ .int ∧ entry.2 ≠ .ident ∧ entry.2.spelling? = some (utf8 entry.1) := by
      decide +kernel
    subst hw
    exact .inr (hall _ hmem)

/-- A kind with only one spelling, spelled so. -/
theorem spelled_of_spelling? {k : TokenKind} {w : Bytes} (h : k.spelling? = some w)
    (hident : k ≠ .ident) (hint : k ≠ .int) : (⟨k, w, 0, 0⟩ : Token).Spelled where
  name hk := absurd hk hident
  numeral hk := absurd hk hint
  fixed w' hw' := by
    rw [h] at hw'
    exact Option.some.inj hw'

/-- A kind that has neither a form nor a spelling. -/
theorem spelled_of_spelling?_eq_none {k : TokenKind} (w : Bytes) (h : k.spelling? = none)
    (hident : k ≠ .ident) (hint : k ≠ .int) : (⟨k, w, 0, 0⟩ : Token).Spelled where
  name hk := absurd hk hident
  numeral hk := absurd hk hint
  fixed w' hw' := by
    rw [h] at hw'
    cases hw'

theorem isWord_takeWhile {c : UInt8} (rest : Bytes) (h : isWordStart c) :
    IsWord ((c :: rest).takeWhile isWordPart) := by
  have hpart : isWordPart c := by simp [isWordPart, h]
  refine ⟨⟨c, by simp [hpart], h⟩, ?_⟩
  exact fun d hd => List.mem_takeWhile_imp hd

theorem isNumeral_takeWhile {c : UInt8} (rest : Bytes) (h : isDigit c) :
    IsNumeral ((c :: rest).takeWhile isDigit) := by
  refine ⟨by simp [h], ?_⟩
  exact fun d hd => List.mem_takeWhile_imp hd

/-- The token at the front of a text is spelled as its kind calls for. -/
theorem spelled_nextToken {c : UInt8} {rest : Bytes} {t : Token}
    (h : (nextToken c rest).1.token? = some t) : t.Spelled := by
  unfold nextToken at h
  split at h
  · obtain rfl := Option.some.inj h
    exact spelled_of_spelling?_eq_none _ (by decide) (by decide) (by decide)
  split at h
  · obtain rfl := Option.some.inj h
    exact spelled_of_spelling? (by decide) (by decide) (by decide)
  split at h
  · rename_i kind hsymbol
    obtain rfl := Option.some.inj h
    obtain ⟨hident, hint, hspelling⟩ := spelling?_of_ofSymbol? hsymbol
    exact spelled_of_spelling? hspelling hident hint
  split at h
  · rename_i hstart
    obtain rfl := Option.some.inj h
    have hword := isWord_takeWhile rest hstart
    rcases ofWord_cases ((c :: rest).takeWhile isWordPart) with hk | ⟨hint, hident, hspelling⟩
    · rw [hk]
      exact ⟨fun _ => ⟨hword, hk⟩, fun hint => (nomatch hint), fun w hw => (nomatch hw)⟩
    · exact spelled_of_spelling? hspelling hident hint
  split at h
  · rename_i hdigit
    obtain rfl := Option.some.inj h
    exact ⟨fun hident => (nomatch hident), fun _ => isNumeral_takeWhile rest hdigit,
      fun w hw => (nomatch hw)⟩
  · obtain rfl := Option.some.inj h
    exact spelled_of_spelling?_eq_none _ (by decide) (by decide) (by decide)

theorem spelled_nextPiece {c : UInt8} {rest : Bytes} {t : Token}
    (h : (nextPiece c rest).1.token? = some t) : t.Spelled := by
  unfold nextPiece at h
  split at h
  · cases h
  split at h
  · cases h
  split at h
  · unfold blockComment at h
    split at h
    · cases h
    · obtain rfl := Option.some.inj h
      exact spelled_of_spelling?_eq_none _ (by decide) (by decide) (by decide)
  · exact spelled_nextToken h

theorem spelled_of_mem_scan {text : Bytes} {t : Token} (h : t ∈ scan text) : t.Spelled := by
  induction hn : text.length using Nat.strong_induction_on generalizing text with
  | _ n ih =>
    cases text with
    | nil => cases h
    | cons c rest =>
      rw [scan_cons, List.mem_append] at h
      rcases h with hfront | hrest
      · exact spelled_nextPiece (Option.mem_toList.mp hfront)
      · have hlt := length_nextPiece_lt c rest
        simp only [List.length_cons] at hn
        exact ih _ (by omega) hrest rfl

/-- Every token of a source is spelled as its kind calls for. -/
theorem spelled_of_mem_ofSource {source : Bytes} {t : Token}
    (h : t ∈ (TokenStream.ofSource source).pending) : t.Spelled := by
  have hmem := List.mem_map_of_mem (f := Token.unplaced) h
  rw [map_unplaced_ofSource] at hmem
  obtain ⟨hname, hnumeral, hfixed⟩ := spelled_of_mem_scan hmem
  exact ⟨hname, hnumeral, hfixed⟩

end MiniJava
