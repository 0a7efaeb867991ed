import MiniJava.Diagnostic
import MiniJava.Proofs.Parse.Complaints
import MiniJava.Proofs.Text.Find
import MiniJava.Proofs.Text.Numeral
import MiniJava.Proofs.Token.Places

/-!
# The caret under a token

A place that is written in front of a message is read back, and what is shown of a diagnostic whose
place is that of a token is the line of the token with a caret under its first byte.

* **`lineBefore`**, **`lineFrom`** — the line that an offset is on, up to the offset and from it on.
* **`getElem?_linesOf`** — together they are the line with the number of the offset.
* **`Diagnostic.ofTagged_tag`** — a place in front of a message is read back.
* **`Diagnostic.shownAt`** — the line of an offset with a caret under it; `Diagnostic.format_at`: a
  diagnostic at the offset is shown so.
* **`parse_errors_shown`** — how the errors of a source are shown.
-/

namespace MiniJava

/-! ### The line of an offset -/

/-- What is in front of an offset on its line. -/
def lineBefore (source : Bytes) (offset : Nat) : Bytes :=
  ((source.take offset).reverse.takeWhile (· != '\n'.toUInt8)).reverse

/-- What is on the line of an offset from there on. -/
def lineFrom (source : Bytes) (offset : Nat) : Bytes :=
  (source.drop offset).takeWhile (· != '\n'.toUInt8)

theorem columnAt_eq (source : Bytes) (offset : Nat) :
    columnAt source offset = (lineBefore source offset).length + 1 := by
  rw [columnAt, lineBefore, List.length_reverse, Nat.add_comm]

section

variable {c : UInt8}

/-- The first part of a text that is split goes up to the first separator. -/
theorem getElem?_zero_splitOn (s : Bytes) : (s.splitOn c)[0]? = some (s.takeWhile (· != c)) := by
  cases hcut : s.cut c with
  | none =>
    have hnone := Bytes.cut_eq_none_iff.mp hcut
    rw [List.splitOn_eq_singleton hnone, Bytes.takeWhile_ne_of_not_mem hnone]
    rfl
  | some parts =>
    obtain ⟨first, rest⟩ := parts
    obtain ⟨rfl, hfirst⟩ := Bytes.cut_eq_some_iff.mp hcut
    rw [List.splitOn_append_cons_self_of_not_mem hfirst, Bytes.takeWhile_ne_append hfirst]
    rfl

/-- The part of a text that is split in which `before` ends: as many separators are in front of it
as there are in `before`. -/
theorem getElem?_count_splitOn (before rest : Bytes) :
    ((before ++ rest).splitOn c)[before.count c]? =
      some ((before.reverse.takeWhile (· != c)).reverse ++ rest.takeWhile (· != c)) := by
  induction hn : before.length using Nat.strong_induction_on generalizing before with
  | _ n ih =>
    cases hcut : before.cut c with
    | none =>
      have hnone := Bytes.cut_eq_none_iff.mp hcut
      rw [List.count_eq_zero.mpr hnone, getElem?_zero_splitOn,
        Bytes.takeWhile_ne_of_not_mem (s := before.reverse) (by simpa using hnone),
        List.reverse_reverse, List.takeWhile_append, Bytes.takeWhile_ne_of_not_mem hnone,
        if_pos rfl]
    | some parts =>
      obtain ⟨first, more⟩ := parts
      obtain ⟨rfl, hfirst⟩ := Bytes.cut_eq_some_iff.mp hcut
      have hcount : (first ++ c :: more).count c = more.count c + 1 := by
        rw [List.count_append, List.count_eq_zero.mpr hfirst, List.count_cons_self, Nat.zero_add]
      have hlast : (first ++ c :: more).reverse.takeWhile (· != c) =
          more.reverse.takeWhile (· != c) := by
        rw [List.reverse_append, List.reverse_cons, List.append_assoc, List.takeWhile_append]
        split
        · rename_i hall
          have hstop : ([c] ++ first.reverse).takeWhile (· != c) = [] :=
            List.takeWhile_cons_of_neg (by simp)
          rw [hstop, List.append_nil]
          exact ((List.takeWhile_prefix _).eq_of_length hall).symm
        · rfl
      have hshorter : more.length < n := by
        rw [← hn, List.length_append, List.length_cons]
        omega
      rw [hcount, hlast, List.append_assoc, List.cons_append,
        List.splitOn_append_cons_self_of_not_mem hfirst, List.getElem?_cons_succ]
      exact ih _ hshorter more rfl

end

/-- The line with the number of an offset is the one that the offset is on. -/
theorem getElem?_linesOf (source : Bytes) (offset : Nat) :
    (Diagnostic.linesOf source)[lineAt source offset - 1]? =
      some (lineBefore source offset ++ lineFrom source offset) := by
  have hpart := getElem?_count_splitOn (c := '\n'.toUInt8) (source.take offset) (source.drop offset)
  rw [List.take_append_drop] at hpart
  rw [lineAt, Nat.add_sub_cancel_left]
  exact hpart

/-! ### Places in front of messages -/

theorem not_mem_natural {c : UInt8} (hc : isDigit c = false) (n : Nat) : c ∉ natural n := by
  intro h
  rw [isDigit_of_mem_natural h] at hc
  cases hc

namespace Diagnostic

/-- The first colon with a space after it is the one behind the place. -/
theorem find?_tag (line column : Nat) (message : Bytes) :
    Bytes.find? ": " (Position.tag line column message) =
      some (natural line ++ utf8 ":" ++ natural column).length := by
  have hcolon : utf8 ": " = ':'.toUInt8 :: utf8 " " := rfl
  have htext : Position.tag line column message =
      natural line ++ (':'.toUInt8 :: (natural column ++ (utf8 ": " ++ message))) := by
    simp only [Position.tag, List.append_assoc]
    rfl
  -- behind the first colon there is a digit
  have hdigit : ¬ ':'.toUInt8 :: utf8 " " <+:
      ':'.toUInt8 :: (natural column ++ (utf8 ": " ++ message)) := by
    obtain ⟨d, ds, hds⟩ := List.exists_cons_of_ne_nil (natural_ne_nil column)
    have hd : isDigit d := isDigit_of_mem_natural (n := column) (by simp [hds])
    rw [hds, List.cons_prefix_cons]
    rintro ⟨-, hspace⟩
    obtain rfl : ' '.toUInt8 = d := (List.cons_prefix_cons.mp hspace).1
    exact absurd hd (by decide)
  have hhere : Bytes.find? (':'.toUInt8 :: utf8 " ") (utf8 ": " ++ message) = some 0 :=
    Bytes.find?_of_isPrefix (List.prefix_append _ message)
  generalize utf8 ": " ++ message = rest at htext hdigit hhere
  rw [htext, hcolon, Bytes.find?_append_of_not_mem (not_mem_natural (by decide) line),
    Bytes.find?_cons_of_not_isPrefix hdigit,
    Bytes.find?_append_of_not_mem (not_mem_natural (by decide) column), hhere]
  simp only [Option.map_some, List.length_append, Option.some.injEq]
  have hlength : (utf8 ":").length = 1 := rfl
  omega

/-- A place in front of a message is read back. -/
theorem ofTagged_tag {line column : Nat} (hline : line < 0x8000000000000000)
    (hcolumn : column < 0x8000000000000000) (message : Bytes) :
    ofTagged (Position.tag line column message) = ⟨message, [], line, column⟩ := by
  have htext : Position.tag line column message =
      (natural line ++ utf8 ":" ++ natural column) ++ (utf8 ": " ++ message) := by
    simp only [Position.tag, List.append_assoc]
    rfl
  have hplace : (Position.tag line column message).take
      (natural line ++ utf8 ":" ++ natural column).length =
        natural line ++ utf8 ":" ++ natural column := by
    rw [htext, List.take_left]
  have hmessage : (Position.tag line column message).drop
      ((natural line ++ utf8 ":" ++ natural column).length + 2) = message := by
    rw [htext, ← List.drop_drop, List.drop_left]
    rfl
  have hcut : Bytes.cut ':'.toUInt8 (natural line ++ utf8 ":" ++ natural column) =
      some (natural line, natural column) := by
    refine Bytes.cut_eq_some_iff.mpr ⟨?_, not_mem_natural (by decide) line⟩
    rw [List.append_assoc]
    rfl
  simp only [ofTagged, find?_tag, hplace, hmessage, hcut, Integer.plain?_natural hline,
    Integer.plain?_natural hcolumn]

/-! ### Carets -/

/-- Only what is behind the last byte that stays is dropped. -/
theorem dropEndWhile_append_cons {p : UInt8 → Bool} {c : UInt8} (hc : p c = false)
    (front rest : Bytes) :
    Bytes.dropEndWhile p (front ++ c :: rest) = front ++ c :: Bytes.dropEndWhile p rest := by
  rw [Bytes.dropEndWhile, Bytes.dropEndWhile, List.reverse_append, List.reverse_cons,
    List.append_assoc, List.dropWhile_append]
  split
  · rename_i hall
    rw [List.isEmpty_iff.mp hall]
    simp [hc]
  · simp

/-- A message about what is at an offset of a source, as it is shown: its place and its text, the
line of the offset without carriage returns at its end, and a caret.  The caret has as much in front
of it as the offset has on its line, namely the tabs that are there and a space for all else. -/
def shownAt (source : Bytes) (offset : Nat) (message : Bytes) : Bytes :=
  Position.tag (lineAt source offset) (columnAt source offset) message ++ "\n    " ++
    (lineBefore source offset ++ lineFrom source offset).dropEndWhile (· == '\r') ++ "\n    " ++
    ((lineBefore source offset).map fun (c : UInt8) => if c == '\t' then c else ' ') ++ "^"

/-- A diagnostic with the place of an offset where no white space is. -/
theorem format_at {source : Bytes} {offset : Nat} {c : UInt8} {rest : Bytes}
    (hdrop : source.drop offset = c :: rest) (hc : isSpace c = false) (message : Bytes) :
    format source ⟨message, [], lineAt source offset, columnAt source offset⟩ =
      shownAt source offset message := by
  have hline : 0 < (lineAt source offset : Int) := by
    rw [lineAt]
    omega
  have hnumber : ((lineAt source offset : Int) - 1).toNat = lineAt source offset - 1 := by omega
  have hcolumn : ((columnAt source offset : Int) - 1).toNat = (lineBefore source offset).length := by
    rw [columnAt_eq]
    omega
  -- the byte at the offset is none that is cut off the end of the line, so that the text in front
  -- of it is still there when the caret is put under it
  have hfrom : lineFrom source offset = c :: rest.takeWhile (· != '\n'.toUInt8) := by
    rw [lineFrom, hdrop, List.takeWhile_cons_of_pos]
    rw [bne_iff_ne]
    rintro rfl
    exact absurd hc (by decide)
  have hreturn : (c == '\r'.toUInt8) = false := by
    rw [beq_eq_false_iff_ne]
    rintro rfl
    exact absurd hc (by decide)
  have hcut := dropEndWhile_append_cons (p := (· == '\r'.toUInt8)) hreturn
    (lineBefore source offset) (rest.takeWhile (· != '\n'.toUInt8))
  simp only [format, shownAt, place, if_pos hline, if_neg (Int.not_le.mpr hline), hnumber,
    getElem?_linesOf, hfrom, hcut, padding, hcolumn, List.take_left]

end Diagnostic

/-! ### The errors of a source -/

/-- No token starts with white space. -/
theorem isSpace_of_nextPiece {c : UInt8} {rest : Bytes} {kind : TokenKind} {literal text : Bytes}
    (h : (nextPiece c rest).1 = .token kind literal text) : isSpace c = false := by
  unfold nextPiece at h
  split at h
  · cases h
  · rename_i hspace
    exact Bool.eq_false_iff.mpr hspace

theorem lineAt_le (source : Bytes) (offset : Nat) : lineAt source offset ≤ offset + 1 := by
  have hcount := (List.count_le_length (a := '\n'.toUInt8) (l := source.take offset)).trans
    (List.length_take_le offset source)
  rw [lineAt]
  omega

theorem columnAt_le (source : Bytes) (offset : Nat) : columnAt source offset ≤ offset + 1 := by
  have hbefore := ((List.takeWhile_prefix (p := (· != '\n'.toUInt8))
    (l := (source.take offset).reverse)).length_le.trans_eq List.length_reverse).trans
    (List.length_take_le offset source)
  rw [columnAt]
  omega

/-- An error about a token that starts at an offset is shown there. -/
theorem ParseError.About.shown {source : Bytes} (hsource : source.length < 0x8000000000000000)
    {e : ParseError} {t : Token} {offset : Nat} (h : e.About t) (ht : t.StartsAt source offset) :
    Diagnostic.ofTagged e.text = ⟨e.complaint.message, [], t.line, t.column⟩ ∧
      (Diagnostic.ofTagged e.text).format source =
        Diagnostic.shownAt source offset e.complaint.message := by
  have hinside := ht.lt_length
  have hline := lineAt_le source offset
  have hcolumn := columnAt_le source offset
  have hread : Diagnostic.ofTagged e.text = ⟨e.complaint.message, [], t.line, t.column⟩ := by
    rw [ParseError.text, h.line, h.column, ht.line, ht.column]
    exact Diagnostic.ofTagged_tag (by omega) (by omega) e.complaint.message
  obtain ⟨c, rest, text, hdrop, hpiece⟩ := ht.piece
  refine ⟨hread, ?_⟩
  rw [hread, ht.line, ht.column]
  exact Diagnostic.format_at hdrop (isSpace_of_nextPiece hpiece) e.complaint.message

/-- Every error of a source is about one of its tokens and names the place of no other.  Unless the
source ended, the place and the message are read back from the text of the error, and the token is
what is found above the caret when the error is shown.  The length of a source is a signed 64-bit
integer. -/
theorem parse_errors_shown {source : Bytes} (hsource : source.length < 0x8000000000000000)
    {e : ParseError} (he : e ∈ (Program.parse source).errors) :
    ∃ t, (TokenStream.ofSource source).Yields t ∧ e.About t ∧
      (∀ t', (TokenStream.ofSource source).Yields t' → t'.line = e.line → t'.column = e.column →
        t' = t) ∧
      (t.kind ≠ .eof →
        Diagnostic.ofTagged e.text = ⟨e.complaint.message, [], t.line, t.column⟩ ∧
          ∃ offset, t.StartsAt source offset ∧
            (Diagnostic.ofTagged e.text).format source =
              Diagnostic.shownAt source offset e.complaint.message) := by
  obtain ⟨t, ht, habout⟩ := Parse.about_of_mem_errors he
  refine ⟨t, ht, habout, fun t' ht' hline hcolumn => ?_, fun hkind => ?_⟩
  · exact ht'.unique ht (hline.trans habout.line) (hcolumn.trans habout.column)
  · rcases ht.mem_or_eof with hmem | ⟨n, rfl⟩
    · obtain ⟨offset, hoffset⟩ := startsAt_of_mem_ofSource hmem
      obtain ⟨hread, hshown⟩ := habout.shown hsource hoffset
      exact ⟨hread, offset, hoffset, hshown⟩
    · exact absurd rfl hkind

/-- A source in which a byte that starts no token stands behind a tab, on a line that ends in a
carriage return. -/
def strayColon : Bytes :=
  "class A\x7bpublic static void main(String[] a)\x7b\r\n\tSystem.:\r\n\x7d\x7d"

/-- The error at the colon, whose message has a colon in it, too. -/
def strayColonError : ParseError := ⟨2, 9, .expectedWord "out" ":"⟩

theorem parse_errors_shown_strayColon :
    strayColon.length < 0x8000000000000000 ∧ strayColonError ∈ (Program.parse strayColon).errors ∧
      Diagnostic.ofTagged strayColonError.text = ⟨strayColonError.complaint.message, [], 2, 9⟩ ∧
      ∃ offset, Token.StartsAt strayColon ⟨.illegal, ":", 2, 9⟩ offset ∧
        (Diagnostic.ofTagged strayColonError.text).format strayColon =
          Diagnostic.shownAt strayColon offset strayColonError.complaint.message := by
  have hlength : strayColon.length < 0x8000000000000000 := by decide +kernel
  have herror : strayColonError ∈ (Program.parse strayColon).errors := by decide +kernel
  have hcolon : (TokenStream.ofSource strayColon).Yields ⟨.illegal, ":", 2, 9⟩ :=
    ⟨16, by decide +kernel⟩
  obtain ⟨t, -, -, honly, hshown⟩ := parse_errors_shown hlength herror
  obtain rfl := honly _ hcolon rfl rfl
  exact ⟨hlength, herror, hshown TokenKind.noConfusion⟩

example : Diagnostic.shownAt strayColon 54 strayColonError.complaint.message =
    utf8 "2:9: expected \"out\", got \":\" instead\n    \tSystem.:\n    \t       ^" := by
  decide +kernel

end MiniJava
