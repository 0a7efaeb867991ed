import MiniJava.Proofs.Token.Calls
import MiniJava.Proofs.Token.Tiling

/-!
# Where tokens stand

The place of a token says where it starts in the source, and so where its literal is found.  This
holds of all sources, also of those with NUL bytes in them.  Only the literals of illegal tokens,
which show what was found, need not be bytes of the source.

* **`PointsAt`** — a line and a column that lead to a text.
* **`Token.StandsAt`** — the literal of the token is at the offset that its place names.
* **`Token.StartsAt`** — the token is what a scan finds at that offset.
* **`isPlaced_of_mem_ofSource`** — every token of a source has a place.
* **`startsAt_of_mem_ofSource`** — every token of a source starts somewhere.
* **`TokenStream.Yields`** — the tokens of a stream, those after its end among them;
  `TokenStream.Yields.unique`: no two of them have the same place.
* **`standsAt_of_mem_ofSource`** — every token of a source that is not illegal stands somewhere.
-/

namespace MiniJava

/-- A line and a column, both counted from one, lead to a byte of the source, and the text stands
from there on. -/
structure PointsAt (source : Bytes) (line column : Int) (text : Bytes) : Prop where
  line_pos : 1 ≤ line
  column_pos : 1 ≤ column
  inside : ∃ offset < source.length,
    line = lineAt source offset ∧ column = columnAt source offset
  text : ∀ offset < source.length, line = lineAt source offset → column = columnAt source offset →
    text <+: source.drop offset

/-- The literal of the token is found in the source at the offset, and the place of the token is
that of the offset. -/
structure Token.StandsAt (source : Bytes) (t : Token) (offset : Nat) : Prop where
  inside : offset < source.length
  line : t.line = lineAt source offset
  column : t.column = columnAt source offset
  literal : t.literal <+: source.drop offset

/-- The scan of what is at the offset yields the token, and the place of the token is that of the
offset. -/
structure Token.StartsAt (source : Bytes) (t : Token) (offset : Nat) : Prop where
  line : t.line = lineAt source offset
  column : t.column = columnAt source offset
  piece : ∃ c rest text, source.drop offset = c :: rest ∧
    (nextPiece c rest).1 = .token t.kind t.literal text

theorem Token.StartsAt.lt_length {source : Bytes} {t : Token} {offset : Nat}
    (h : t.StartsAt source offset) : offset < source.length := by
  obtain ⟨c, rest, text, hdrop, -⟩ := h.piece
  have hlength := congrArg List.length hdrop
  rw [List.length_drop, List.length_cons] at hlength
  omega

/-! ### Lines and columns -/

/-- A place comes before those that are farther on in the source. -/
theorem before_of_lt {source : Bytes} {i j : Nat} (hij : i < j) (hj : j ≤ source.length) :
    lineAt source i < lineAt source j ∨
      lineAt source i = lineAt source j ∧ columnAt source i < columnAt source j := by
  have hplace : ∀ k ≤ source.length, (Position.start.after (source.take k)).line = lineAt source k ∧
      (Position.start.after (source.take k)).column = columnAt source k := by
    intro k hk
    have h := after_start_eq (source.take k) (source.drop k)
    rwa [List.take_append_drop, List.length_take_of_le hk] at h
  have hsplit : source.take j = source.take i ++ (source.drop i).take (j - i) := by
    rw [← List.take_add, Nat.add_sub_cancel' hij.le]
  have hne : (source.drop i).take (j - i) ≠ [] := by
    apply List.ne_nil_of_length_pos
    rw [List.length_take, List.length_drop]
    omega
  have hbefore := (Position.start.after (source.take i)).before_after hne
  rw [← Position.after_append, ← hsplit, Position.Before] at hbefore
  rwa [(hplace i (hij.le.trans hj)).1, (hplace i (hij.le.trans hj)).2, (hplace j hj).1,
    (hplace j hj).2] at hbefore

/-- Different offsets have different places. -/
theorem offset_unique {source : Bytes} {i j : Nat} (hi : i ≤ source.length)
    (hj : j ≤ source.length) (hline : lineAt source i = lineAt source j)
    (hcolumn : columnAt source i = columnAt source j) : i = j := by
  rcases Nat.lt_trichotomy i j with hlt | heq | hgt
  · have hbefore := before_of_lt hlt hj
    omega
  · exact heq
  · have hbefore := before_of_lt hgt hi
    omega

/-- A token that stands somewhere points at its literal. -/
theorem Token.StandsAt.pointsAt {source : Bytes} {t : Token} {offset : Nat}
    (h : t.StandsAt source offset) : PointsAt source t.line t.column t.literal where
  line_pos := by
    rw [h.line, lineAt]
    omega
  column_pos := by
    rw [h.column, columnAt]
    omega
  inside := ⟨offset, h.inside, h.line, h.column⟩
  text := by
    intro other hother hline hcolumn
    have hsame : other = offset := offset_unique hother.le h.inside.le
      (Int.ofNat_inj.mp (hline.symm.trans h.line))
      (Int.ofNat_inj.mp (hcolumn.symm.trans h.column))
    rw [hsame]
    exact h.literal

/-- Lines and columns that count from one do so after any text. -/
theorem Position.after_pos (s : Bytes) {p : Position} (hline : 0 < p.line) (hcolumn : 0 < p.column) :
    0 < (p.after s).line ∧ 0 < (p.after s).column := by
  induction s generalizing p with
  | nil => exact ⟨hline, hcolumn⟩
  | cons c s ih =>
    have hnext : 0 < (p.next c).line ∧ 0 < (p.next c).column := by
      unfold Position.next
      split
      · exact ⟨Nat.succ_pos _, Nat.one_pos⟩
      · exact ⟨hline, Nat.succ_pos _⟩
    exact ih hnext.1 hnext.2

theorem isPlaced_locate (ps : List Piece) {p : Position} (hline : 0 < p.line)
    (hcolumn : 0 < p.column) : ∀ t ∈ Piece.locate p ps, t.isPlaced := by
  induction ps generalizing p with
  | nil => exact nofun
  | cons piece ps ih =>
    cases piece with
    | gap text =>
      obtain ⟨hline', hcolumn'⟩ := Position.after_pos text hline hcolumn
      exact ih hline' hcolumn'
    | token kind literal text =>
      obtain ⟨hline', hcolumn'⟩ := Position.after_pos text hline hcolumn
      refine List.forall_mem_cons.mpr ⟨?_, ih hline' hcolumn'⟩
      simp only [Token.isPlaced, Bool.and_eq_true, decide_eq_true_eq]
      omega

/-- Every token of a source has a place. -/
theorem isPlaced_of_mem_ofSource {source : Bytes} {t : Token}
    (h : t ∈ (TokenStream.ofSource source).pending) : t.isPlaced :=
  isPlaced_locate (pieces source) Nat.one_pos Nat.one_pos t h

/-! ### Literals -/

/-- The literal of a token that is not illegal begins its bytes. -/
theorem literal_nextToken {c : UInt8} {rest : Bytes} {kind : TokenKind} {literal text : Bytes}
    (h : (nextToken c rest).1 = .token kind literal text) (hkind : kind ≠ .illegal) :
    literal <+: text := by
  unfold nextToken at h
  split at h
  · obtain ⟨-, rfl, rfl⟩ := Piece.token.inj h
    exact List.nil_prefix
  split at h
  · obtain ⟨-, rfl, rfl⟩ := Piece.token.inj h
    exact List.prefix_rfl
  split at h
  · obtain ⟨-, rfl, rfl⟩ := Piece.token.inj h
    exact List.prefix_rfl
  split at h
  · obtain ⟨-, rfl, rfl⟩ := Piece.token.inj h
    exact List.prefix_rfl
  split at h
  · obtain ⟨-, rfl, rfl⟩ := Piece.token.inj h
    exact List.prefix_rfl
  · exact absurd (Piece.token.inj h).1.symm hkind

theorem literal_nextPiece {c : UInt8} {rest : Bytes} {kind : TokenKind} {literal text : Bytes}
    (h : (nextPiece c rest).1 = .token kind literal text) (hkind : kind ≠ .illegal) :
    literal <+: text := by
  unfold nextPiece at h
  split at h
  · cases h
  split at h
  · cases h
  split at h
  · unfold blockComment at h
    split at h
    · cases h
    · exact absurd (Piece.token.inj h).1.symm hkind
  · exact literal_nextToken h hkind

/-! ### Places -/

/-- A token among the pieces of a text starts in it, behind the text before it. -/
theorem startsAt_of_mem_locate (before text : Bytes) {t : Token}
    (h : t ∈ Piece.locate (Position.start.after before) (pieces text)) :
    ∃ offset, t.StartsAt (before ++ text) offset := by
  induction hn : text.length using Nat.strong_induction_on generalizing before text with
  | _ n ih =>
    cases text with
    | nil => cases h
    | cons c rest =>
      rw [pieces_cons] at h
      have hsplit := nextPiece_text c rest
      have hlt := length_nextPiece_lt c rest
      rw [List.length_cons] at hn
      -- what is behind the first piece
      have hlater : ∀ front, front ++ (nextPiece c rest).2 = c :: rest →
          t ∈ Piece.locate (Position.start.after (before ++ front)) (pieces (nextPiece c rest).2) →
          ∃ offset, t.StartsAt (before ++ c :: rest) offset := by
        intro front hfront hmem
        obtain ⟨offset, hoffset⟩ := ih _ (by omega) (before ++ front) _ hmem rfl
        rw [List.append_assoc, hfront] at hoffset
        exact ⟨offset, hoffset⟩
      cases hpiece : (nextPiece c rest).1 with
      | gap front =>
        rw [hpiece] at h hsplit
        rw [Piece.locate, ← Position.after_append] at h
        exact hlater front hsplit h
      | token kind literal front =>
        rw [hpiece] at h hsplit
        rw [Piece.locate, ← Position.after_append] at h
        rcases List.mem_cons.mp h with rfl | h
        · have hplace := after_start_eq before (c :: rest)
          exact ⟨before.length, congrArg Nat.cast hplace.1, congrArg Nat.cast hplace.2,
            c, rest, front, List.drop_left, hpiece⟩
        · exact hlater front hsplit h

/-- Every token of a source starts where its place says. -/
theorem startsAt_of_mem_ofSource {source : Bytes} {t : Token}
    (h : t ∈ (TokenStream.ofSource source).pending) : ∃ offset, t.StartsAt source offset :=
  startsAt_of_mem_locate [] source h

/-- Only one token starts at a place. -/
theorem Token.StartsAt.unique {source : Bytes} {t t' : Token} {offset offset' : Nat}
    (h : t.StartsAt source offset) (h' : t'.StartsAt source offset') (hline : t.line = t'.line)
    (hcolumn : t.column = t'.column) : t = t' := by
  obtain rfl : offset = offset' := offset_unique h.lt_length.le h'.lt_length.le
    (Int.ofNat_inj.mp (h.line.symm.trans (hline.trans h'.line)))
    (Int.ofNat_inj.mp (h.column.symm.trans (hcolumn.trans h'.column)))
  obtain ⟨c, rest, text, hdrop, hpiece⟩ := h.piece
  obtain ⟨c', rest', text', hdrop', hpiece'⟩ := h'.piece
  obtain ⟨rfl, rfl⟩ := List.cons.inj (hdrop.symm.trans hdrop')
  obtain ⟨hkind, hliteral, -⟩ := Piece.token.inj (hpiece.symm.trans hpiece')
  obtain ⟨kind, literal, line, column⟩ := t
  obtain ⟨kind', literal', line', column'⟩ := t'
  exact Token.mk.injEq .. ▸ ⟨hkind, hliteral, hline, hcolumn⟩

/-- A token that is not illegal stands where it starts. -/
theorem Token.StartsAt.standsAt {source : Bytes} {t : Token} {offset : Nat}
    (h : t.StartsAt source offset) (hkind : t.kind ≠ .illegal) : t.StandsAt source offset where
  inside := h.lt_length
  line := h.line
  column := h.column
  literal := by
    obtain ⟨c, rest, text, hdrop, hpiece⟩ := h.piece
    have hsplit := nextPiece_text c rest
    rw [hpiece] at hsplit
    rw [hdrop, ← hsplit]
    exact (literal_nextPiece hpiece hkind).trans (List.prefix_append _ _)

/-- Every token of a source that is not illegal stands where its place says. -/
theorem standsAt_of_mem_ofSource {source : Bytes} {t : Token}
    (h : t ∈ (TokenStream.ofSource source).pending) (hkind : t.kind ≠ .illegal) :
    ∃ offset, t.StandsAt source offset := by
  obtain ⟨offset, hoffset⟩ := startsAt_of_mem_ofSource h
  exact ⟨offset, hoffset.standsAt hkind⟩

/-! ### Streams -/

/-- The stream yields the token when it is stepped on often enough. -/
def TokenStream.Yields (s : TokenStream) (t : Token) : Prop :=
  ∃ k, (TokenStream.advance^[k] s).head = t

namespace TokenStream

variable {s : TokenStream} {t t' : Token}

theorem yields_head (s : TokenStream) : s.Yields s.head := ⟨0, rfl⟩

theorem yields_second (s : TokenStream) : s.Yields s.second := by
  refine ⟨1, ?_⟩
  obtain ⟨_ | ⟨t, _ | ⟨u, rest⟩⟩, fin⟩ := s <;> rfl

/-- What a stream yields later on it yields. -/
theorem Yields.of_iterate {k : Nat} (h : (TokenStream.advance^[k] s).Yields t) : s.Yields t := by
  obtain ⟨j, hj⟩ := h
  exact ⟨j + k, (Function.iterate_add_apply _ j k s).symm ▸ hj⟩

/-- A stream yields its tokens, and `eof` after them. -/
theorem Yields.mem_or_eof (h : s.Yields t) : t ∈ s.pending ∨ ∃ n, t = eofAt s.finish n := by
  obtain ⟨k, rfl⟩ := h
  induction k generalizing s with
  | zero =>
    obtain ⟨_ | ⟨t, rest⟩, fin⟩ := s
    · exact .inr ⟨0, rfl⟩
    · exact .inl List.mem_cons_self
  | succ k ih =>
    rw [Function.iterate_succ_apply]
    obtain ⟨_ | ⟨t, rest⟩, fin⟩ := s
    · rcases ih (s := ⟨[], fin.line, fin.column + 1⟩) with hmem | ⟨n, hn⟩
      · cases hmem
      · refine .inr ⟨n + 1, hn.trans ?_⟩
        simp only [eofAt, Token.mk.injEq, true_and]
        omega
    · rcases ih (s := ⟨rest, fin⟩) with hmem | heof
      · exact .inl (List.mem_cons_of_mem t hmem)
      · exact .inr heof

/-- No two tokens that the stream of a source yields have the same place. -/
theorem Yields.unique {source : Bytes} (h : (ofSource source).Yields t)
    (h' : (ofSource source).Yields t') (hline : t.line = t'.line)
    (hcolumn : t.column = t'.column) : t = t' := by
  have hend := after_start_eq source []
  rw [List.append_nil] at hend
  -- the tokens after the end are behind all others
  have hbehind : ∀ {u u' : Token} {n : Nat}, u ∈ (ofSource source).pending →
      u' = eofAt (ofSource source).finish n → u.line = u'.line → u.column = u'.column → False := by
    rintro u _ n hu rfl hline hcolumn
    obtain ⟨offset, hoffset⟩ := startsAt_of_mem_ofSource hu
    have hbefore := before_of_lt hoffset.lt_length (Nat.le_refl _)
    have hfinish : (eofAt (ofSource source).finish n).line = lineAt source source.length ∧
        (eofAt (ofSource source).finish n).column = columnAt source source.length + n :=
      ⟨congrArg Nat.cast hend.1, by rw [← hend.2]; rfl⟩
    rw [hoffset.line, hfinish.1] at hline
    rw [hoffset.column, hfinish.2] at hcolumn
    omega
  rcases h.mem_or_eof with hmem | ⟨n, hn⟩ <;> rcases h'.mem_or_eof with hmem' | ⟨n', hn'⟩
  · obtain ⟨offset, hoffset⟩ := startsAt_of_mem_ofSource hmem
    obtain ⟨offset', hoffset'⟩ := startsAt_of_mem_ofSource hmem'
    exact hoffset.unique hoffset' hline hcolumn
  · exact (hbehind hmem hn' hline hcolumn).elim
  · exact (hbehind hmem' hn hline.symm hcolumn.symm).elim
  · rw [hn, hn'] at hcolumn ⊢
    have hsame : n = n' := by
      simp only [eofAt] at hcolumn
      omega
    rw [hsame]

end TokenStream

end MiniJava
