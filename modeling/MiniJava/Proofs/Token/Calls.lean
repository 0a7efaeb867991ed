import Mathlib.Logic.Function.Iterate
import MiniJava.Proofs.Token.Scan

/-!
# Tokens on demand

A scanner yields one token for each call.  It skips the gaps in front of a token, and after the
last token it yields `eof` as often as it is called.  A call that finds bytes to read reads some
of them, so that after as many calls as there are bytes nothing is left.

* **`Scanner`**, **`Scanner.next`** — the bytes that were not read yet, and one call.
* **`Scanner.exists_read`** — a call reads bytes as long as there are any.
* **`Scanner.stream_next`** — the calls yield the tokens of the source, in order.
* **`nodup_ofSource`** — no token comes twice, for each stands behind the one before it.
-/

namespace MiniJava

/-- A scanner between two calls. -/
structure Scanner where
  /-- The bytes that were not read yet. -/
  rest : Bytes
  /-- The place of the first of them. -/
  place : Position

namespace Scanner

/-- The scanner at the front of a source. -/
def start (source : Bytes) : Scanner := ⟨source, .start⟩

/-- Skip gaps, and read the token after them.  Past the end of the source the token is `eof`, each
time one column to the right. -/
def read (place : Position) : Bytes → Token × Scanner
  | [] => (TokenStream.eofAt place 0, ⟨[], ⟨place.line, place.column + 1⟩⟩)
  | c :: rest =>
      match (nextPiece c rest).1 with
      | .gap text => read (place.after text) (nextPiece c rest).2
      | .token kind literal text =>
          (⟨kind, literal, place.line, place.column⟩, ⟨(nextPiece c rest).2, place.after text⟩)
termination_by text => text.length
decreasing_by exact Nat.lt_succ_of_le (length_nextPiece_lt c rest)

/-- One call: the next token, and the scanner after it. -/
def next (s : Scanner) : Token × Scanner := read s.place s.rest

/-- The scanner after `k` calls. -/
def calls (k : Nat) (s : Scanner) : Scanner := (fun s => s.next.2)^[k] s

/-- The tokens that calls yield. -/
def stream (s : Scanner) : TokenStream :=
  ⟨Piece.locate s.place (pieces s.rest), s.place.after s.rest⟩

theorem stream_start (source : Bytes) : (start source).stream = TokenStream.ofSource source := rfl

/-! ### What a call reads -/

/-- A call that finds bytes reads at least one, and no byte is skipped but those in front of what
is left. -/
theorem exists_read (s : Scanner) (h : s.rest ≠ []) :
    ∃ text, text ≠ [] ∧ s.rest = text ++ s.next.2.rest := by
  obtain ⟨rest, place⟩ := s
  show ∃ text, text ≠ [] ∧ rest = text ++ (read place rest).2.rest
  replace h : rest ≠ [] := h
  induction hlen : rest.length using Nat.strong_induction_on generalizing rest place with
  | _ n ih =>
    obtain ⟨c, rest, rfl⟩ := List.exists_cons_of_ne_nil h
    have htext := nextPiece_text c rest
    have hne := nextPiece_text_ne_nil c rest
    have hlt := length_nextPiece_lt c rest
    rw [List.length_cons] at hlen
    rw [read]
    cases hpiece : (nextPiece c rest).1 with
    | token kind literal text =>
      rw [hpiece] at htext hne
      exact ⟨text, hne, htext.symm⟩
    | gap text =>
      rw [hpiece] at htext hne
      by_cases hend : (nextPiece c rest).2 = []
      · rw [hend, List.append_nil] at htext
        refine ⟨text, hne, ?_⟩
        rw [hend]
        simpa [read, Piece.text] using htext.symm
      · obtain ⟨more, -, hmore⟩ := ih _ (by omega) (nextPiece c rest).2 (place.after text) hend rfl
        refine ⟨text ++ more, by simp [show text ≠ [] from hne], ?_⟩
        rw [List.append_assoc, ← hmore]
        exact htext.symm

/-- At the end of the source a call yields `eof`, and so does every later one. -/
theorem next_of_end (s : Scanner) (h : s.rest = []) :
    s.next.1.kind = .eof ∧ s.next.2.rest = [] := by
  unfold next
  rw [h, read]
  exact ⟨rfl, rfl⟩

/-! ### What the calls yield -/

/-- A call yields the first token of the source, and the calls after it yield the others. -/
theorem stream_next (s : Scanner) :
    s.stream.head = s.next.1 ∧ s.stream.advance = s.next.2.stream := by
  obtain ⟨rest, place⟩ := s
  show TokenStream.head ⟨Piece.locate place (pieces rest), place.after rest⟩ = (read place rest).1 ∧
    TokenStream.advance ⟨Piece.locate place (pieces rest), place.after rest⟩ =
      (read place rest).2.stream
  induction hlen : rest.length using Nat.strong_induction_on generalizing rest place with
  | _ n ih =>
    cases rest with
    | nil =>
      rw [read]
      exact ⟨rfl, rfl⟩
    | cons c rest =>
      have htext := nextPiece_text c rest
      have hlt := length_nextPiece_lt c rest
      rw [List.length_cons] at hlen
      rw [read, pieces_cons, ← htext, Position.after_append]
      cases hpiece : (nextPiece c rest).1 with
      | token kind literal text => exact ⟨rfl, rfl⟩
      | gap text => exact ih _ (by omega) (nextPiece c rest).2 (place.after text) rfl

theorem stream_calls (k : Nat) (s : Scanner) :
    (s.calls k).stream = TokenStream.advance^[k] s.stream := by
  induction k generalizing s with
  | zero => rfl
  | succ k ih =>
    rw [Function.iterate_succ_apply, (stream_next s).2, ← ih]
    rfl

end Scanner

/-! ### Places of tokens -/

/-- The place `p` comes before the place `q`. -/
def Position.Before (p q : Position) : Prop :=
  p.line < q.line ∨ p.line = q.line ∧ p.column < q.column

theorem Position.Before.trans {p q r : Position} (h : p.Before q) (h' : q.Before r) :
    p.Before r := by
  unfold Before at *
  omega

theorem Position.before_next (p : Position) (c : UInt8) : p.Before (p.next c) := by
  unfold next Before
  split
  · exact .inl (Nat.lt_succ_self _)
  · exact .inr ⟨rfl, Nat.lt_succ_self _⟩

theorem Position.before_after (p : Position) {text : Bytes} (h : text ≠ []) :
    p.Before (p.after text) := by
  induction text generalizing p with
  | nil => exact absurd rfl h
  | cons c text ih =>
    by_cases hnil : text = []
    · subst hnil
      exact p.before_next c
    · exact (p.before_next c).trans (ih (p.next c) hnil)

/-- The token stands at the place `p` or behind it. -/
def Token.StandsFrom (p : Position) (t : Token) : Prop :=
  ∃ q : Position, t.line = q.line ∧ t.column = q.column ∧ (q = p ∨ p.Before q)

theorem Token.StandsFrom.of_after {p : Position} {text : Bytes} {t : Token} (h : text ≠ [])
    (ht : t.StandsFrom (p.after text)) : t.StandsFrom p := by
  obtain ⟨q, hline, hcolumn, rfl | hq⟩ := ht
  · exact ⟨_, hline, hcolumn, .inr (p.before_after h)⟩
  · exact ⟨q, hline, hcolumn, .inr ((p.before_after h).trans hq)⟩

/-- The tokens of pieces that each have some text stand one behind the other. -/
theorem nodup_locate {ps : List Piece} (h : ∀ piece ∈ ps, piece.text ≠ []) (p : Position) :
    (Piece.locate p ps).Nodup ∧ ∀ t ∈ Piece.locate p ps, t.StandsFrom p := by
  induction ps generalizing p with
  | nil => exact ⟨List.nodup_nil, by simp [Piece.locate]⟩
  | cons piece ps ih =>
    obtain ⟨hpiece, hps⟩ := List.forall_mem_cons.mp h
    cases piece with
    | gap text =>
      obtain ⟨hnodup, hfrom⟩ := ih hps (p.after text)
      exact ⟨hnodup, fun t ht => (hfrom t ht).of_after hpiece⟩
    | token kind literal text =>
      obtain ⟨hnodup, hfrom⟩ := ih hps (p.after text)
      refine ⟨List.nodup_cons.mpr ⟨fun hmem => ?_, hnodup⟩, ?_⟩
      · obtain ⟨q, hline, hcolumn, hq⟩ := hfrom _ hmem
        have hbefore : p.Before q := by
          rcases hq with rfl | hq
          · exact p.before_after hpiece
          · exact (p.before_after hpiece).trans hq
        dsimp only at hline hcolumn
        unfold Position.Before at hbefore
        omega
      · exact List.forall_mem_cons.mpr
          ⟨⟨p, rfl, rfl, .inl rfl⟩, fun t ht => (hfrom t ht).of_after hpiece⟩

theorem text_ne_nil_of_mem_pieces {source : Bytes} {piece : Piece} (h : piece ∈ pieces source) :
    piece.text ≠ [] := by
  obtain ⟨c, rest, rfl⟩ := exists_nextPiece_of_mem h
  exact nextPiece_text_ne_nil c rest

/-- No two tokens of a source are the same. -/
theorem nodup_ofSource (source : Bytes) : (TokenStream.ofSource source).pending.Nodup :=
  (nodup_locate (fun _ => text_ne_nil_of_mem_pieces) .start).1

end MiniJava
