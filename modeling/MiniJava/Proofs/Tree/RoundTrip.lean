import MiniJava.Proofs.Parse.Places
import MiniJava.Proofs.Tree.Parsed
import MiniJava.Tree.Print

/-!
# Printing and reading back

The text of a tree that was read without complaint is read without complaint, as the same tree up
to places.

The text of a node is put together from fixed words and the texts of its parts.  Each of them says
the same tokens wherever it stands, on the one condition that a text that may end in a word must
not be followed by another one.

* **`Scans`**, **`Sealed`** — what a text says, with and without that condition.
* **`Expr.text_says`**, **`Stmt.text_says`**, **`Program.text_says`** — the text of a tree says a
  phrase of the grammar whose tree it is, up to places.
* **`parse_text`** — the round trip.
-/

namespace MiniJava

open Grammar

/-! ### Texts that say the same wherever they stand -/

/-- The text says `ts` in front of everything that does not go on with a word. -/
def Scans (text : Bytes) (ts : List Token) : Prop :=
  ∀ rest, Stops rest → scan (text ++ rest) = ts ++ scan rest

/-- The text says `ts` in front of everything. -/
def Sealed (text : Bytes) (ts : List Token) : Prop := ∀ rest, scan (text ++ rest) = ts ++ scan rest

/-- The text begins, and not with a byte that a word could go on with. -/
def opens (text : Bytes) : Bool := text.head?.any (!isWordPart ·)

/-- No comment starts in the text, and it does not end inside an operator. -/
def isPlain (text : Bytes) : Bool := !text.contains '/' && text.getLast?.all (· != '&'.toUInt8)

/-- The text does not end inside a word. -/
def closes (text : Bytes) : Bool := text.getLast?.all (!isWordPart ·)

theorem stops_append {text : Bytes} (h : opens text) (rest : Bytes) : Stops (text ++ rest) := by
  cases text with
  | nil => cases h
  | cons c text => simpa [Stops, opens] using h

theorem Sealed.scans {text : Bytes} {ts : List Token} (h : Sealed text ts) : Scans text ts :=
  fun rest _ => h rest

theorem sealed_nil : Sealed [] [] := fun _ => rfl

section Append

variable {a b : Bytes} {ts us : List Token}

theorem Sealed.append (ha : Sealed a ts) (hb : Sealed b us) : Sealed (a ++ b) (ts ++ us) := by
  intro rest
  rw [List.append_assoc, ha, hb, List.append_assoc]

theorem Sealed.append_scans (ha : Sealed a ts) (hb : Scans b us) : Scans (a ++ b) (ts ++ us) := by
  intro rest hrest
  rw [List.append_assoc, ha, hb rest hrest, List.append_assoc]

theorem Scans.append_sealed (ha : Scans a ts) (hopens : opens b) (hb : Sealed b us) :
    Sealed (a ++ b) (ts ++ us) := by
  intro rest
  rw [List.append_assoc, ha _ (stops_append hopens rest), hb, List.append_assoc]

theorem Scans.append (ha : Scans a ts) (hopens : opens b) (hb : Scans b us) :
    Scans (a ++ b) (ts ++ us) := by
  intro rest hrest
  rw [List.append_assoc, ha _ (stops_append hopens rest), hb rest hrest, List.append_assoc]

end Append

theorem cleanCut_of_isPlain {a b : Bytes} (hplain : isPlain a) (hword : Stops b ∨ closes a) :
    CleanCut a b := by
  simp only [isPlain, Bool.and_eq_true, Bool.not_eq_true', Option.all_eq_true, bne_iff_ne] at hplain
  obtain ⟨hslash, hampersand⟩ := hplain
  refine ⟨by simpa using hslash, fun h => hampersand _ h rfl, hword.imp id fun h c hc => ?_⟩
  simp only [closes, Option.all_eq_true] at h
  simpa using h c hc

/-- A fixed text that does not end inside a word. -/
theorem sealed_of_scan {a : Bytes} {ts : List Token} (h : isPlain a && closes a)
    (hscan : scan a = ts) : Sealed a ts := by
  simp only [Bool.and_eq_true] at h
  intro rest
  rw [scan_append (cleanCut_of_isPlain h.1 (.inr h.2)), hscan]

/-- A fixed text. -/
theorem scans_of_scan {a : Bytes} {ts : List Token} (h : isPlain a) (hscan : scan a = ts) :
    Scans a ts := by
  intro rest hrest
  rw [scan_append (cleanCut_of_isPlain h (.inl hrest)), hscan]

theorem sealed_blank : Sealed " " [] := sealed_of_scan (by decide) (by decide)

/-! ### Names, numerals and operators -/

/-- The token of a name. -/
def Token.ofName (w : Bytes) : Token := ⟨.ident, w, 0, 0⟩

theorem scans_name {w : Bytes} (h : IsName w) : Scans w [.ofName w] := by
  intro rest hrest
  rw [scan_word h.1 hrest, h.2]
  rfl

theorem Ident.Written.unplaced {x : Ident} (h : x.Written) :
    x.unplaced = ident (.ofName x.name) := by
  obtain ⟨hkind, hliteral, -⟩ := h
  simp only [Ident.unplaced, Token.unplaced, ident, Token.ofName, hkind, hliteral]

theorem Ident.Written.token_unplaced {x : Ident} (h : x.Written) :
    x.token.unplaced = .ofName x.name :=
  congrArg Ident.token h.unplaced

theorem Ident.Written.scans {x : Ident} (h : x.Written) : Scans x.name [.ofName x.name] :=
  scans_name h.name

theorem operator_stratum_lt {k : Nat} {kind : TokenKind} {op : BinaryOp} (h : Operator k kind op) :
    k < postfixStratum := by
  cases h <;> decide

theorem sealed_operator {k : Nat} {kind : TokenKind} {op : BinaryOp} (h : Operator k kind op) :
    Sealed op.symbol [.fixed kind] := by
  cases h with
  | and =>
    -- An ampersand alone would not be sealed; two of them are.
    intro rest
    show scan ('&'.toUInt8 :: '&'.toUInt8 :: rest) = _
    rw [scan_cons]
    rfl
  | less => exact sealed_of_scan (by decide) (by decide)
  | plus => exact sealed_of_scan (by decide) (by decide)
  | minus => exact sealed_of_scan (by decide) (by decide)
  | times => exact sealed_of_scan (by decide) (by decide)

theorem small_fixed_cons {k : TokenKind} {ts : List Token} (hk : k ≠ .int) :
    Small (.fixed k :: ts) ↔ Small ts := by
  rw [small_cons, and_iff_right]
  exact small_of_kinds (by simpa [kinds] using hk.symm)

theorem small_ofName_cons {w : Bytes} {ts : List Token} : Small (.ofName w :: ts) ↔ Small ts := by
  rw [small_cons, and_iff_right]
  exact small_of_kinds (by simp [kinds, Token.ofName])

theorem small_nil : Small [] := by simp [Grammar.Small]

/-! ### Expressions -/

/-- The text of the expression says a phrase of the tightest stratum whose tree it is. -/
def Expr.Says (e : Expr) : Prop :=
  ∃ ts, Scans e.text ts ∧ ExpAt postfixStratum ts e.unplaced ∧ Small ts

/-- The texts of the expressions say arguments. -/
def Expr.AllSay (es : List Expr) : Prop :=
  ∃ ts, Scans (Bytes.join ", " (Expr.texts es)) ts ∧ ArgsAt ts (Expr.unplacedAll es) ∧ Small ts

theorem sealed_lparen : Sealed "(" [.fixed .lparen] := sealed_of_scan (by decide) (by decide)

theorem sealed_rparen : Sealed ")" [.fixed .rparen] := sealed_of_scan (by decide) (by decide)

/-- A phrase in parentheses. -/
theorem expAt_parens {k : Nat} {ts : List Token} {e : Expr} (h : ExpAt k ts e) :
    ExpAt postfixStratum (.fixed .lparen :: ts ++ [.fixed .rparen]) e :=
  .paren rfl (h.loosen (Nat.zero_le k)) rfl

theorem Expr.Says.atom {e : Expr} {t : Token} (hscans : Scans e.text [t])
    (h : Atom t e.unplaced) (small : Small [t]) : e.Says :=
  ⟨[t], hscans, .atom h, small⟩

theorem says_unary {t : Token} {e : Expr} (ht : t.unplaced = .fixed .bang) (he : e.Says) :
    (Expr.unary t .not e).Says := by
  obtain ⟨ts, hscans, hexp, small⟩ := he
  have hbang : Sealed "!" [.fixed .bang] := sealed_of_scan (by decide) (by decide)
  refine ⟨_, (((sealed_lparen.append hbang).append_scans hscans).append_sealed (by decide)
    sealed_rparen).scans, ?_, ?_⟩
  · have hnot := ExpAt.not (t := .fixed .bang) rfl (hexp.loosen (j := prefixStratum) (by decide))
    simpa [Expr.unplaced, ht] using expAt_parens hnot
  · simpa [small_append, small_fixed_cons, small_nil] using small

theorem says_binary {t : Token} {op : BinaryOp} {k : Nat} {l r : Expr}
    (hop : Operator k t.kind op) (ht : t.unplaced = .fixed t.kind) (hl : l.Says) (hr : r.Says) :
    (Expr.binary t op l r).Says := by
  obtain ⟨ts, hscans, hexp, small⟩ := hl
  obtain ⟨us, hscans', hexp', small'⟩ := hr
  have hint : t.kind ≠ .int := by rintro hint; rw [hint] at hop; cases hop
  have hk : k + 1 ≤ postfixStratum := operator_stratum_lt hop
  refine ⟨_, (((((((sealed_lparen.append_scans hscans).append_sealed (by decide)
    sealed_blank).append (sealed_operator hop)).append sealed_blank).append_scans
    hscans').append_sealed (by decide) sealed_rparen)).scans, ?_, ?_⟩
  · have hbinary := ExpAt.binary (t := .fixed t.kind) (hexp.loosen (by omega)) hop
      (hexp'.loosen hk)
    simpa [Expr.unplaced, ht] using expAt_parens hbinary
  · simpa [small_append, small_fixed_cons, hint, small_nil] using ⟨small, small'⟩

theorem says_index {t : Token} {a i : Expr} (ht : t.unplaced = .fixed .lbracket) (ha : a.Says)
    (hi : i.Says) : (Expr.index t a i).Says := by
  obtain ⟨ts, hscans, hexp, small⟩ := ha
  obtain ⟨us, hscans', hexp', small'⟩ := hi
  have hopen : Sealed "[" [.fixed .lbracket] := sealed_of_scan (by decide) (by decide)
  have hclose : Sealed "])" [.fixed .rbracket, .fixed .rparen] :=
    sealed_of_scan (by decide) (by decide)
  refine ⟨_, (((((sealed_lparen.append_scans hscans).append_sealed (by decide)
    hopen).append_scans hscans').append_sealed (by decide) hclose)).scans, ?_, ?_⟩
  · have hindex := ExpAt.index (t := .fixed .lbracket) (u := .fixed .rbracket) hexp rfl
      (hexp'.loosen (Nat.zero_le _)) rfl
    simpa [Expr.unplaced, ht] using expAt_parens hindex
  · simpa [small_append, small_fixed_cons, small_nil] using ⟨small, small'⟩

theorem says_length {t : Token} {a : Expr} (ht : t.unplaced = .fixed .lengthWord) (ha : a.Says) :
    (Expr.length t a).Says := by
  obtain ⟨ts, hscans, hexp, small⟩ := ha
  have hlength : Scans ".length" [.fixed .dot, .fixed .lengthWord] :=
    scans_of_scan (by decide) (by decide)
  refine ⟨_, hscans.append (by decide) hlength, ?_, ?_⟩
  · have hphrase := ExpAt.length (t := .fixed .dot) (u := .fixed .lengthWord) hexp rfl
    simpa [Expr.unplaced, ht] using hphrase
  · simpa [small_append, small_fixed_cons, small_nil] using small

theorem says_call {recv : Expr} {m : Ident} {args : List Expr} (hrecv : recv.Says)
    (hm : m.Written) (hargs : Expr.AllSay args) : (Expr.call m.token recv m args).Says := by
  obtain ⟨ts, hscans, hexp, small⟩ := hrecv
  obtain ⟨us, hscans', hexps, small'⟩ := hargs
  have hdot : Sealed "." [.fixed .dot] := sealed_of_scan (by decide) (by decide)
  refine ⟨_, (((((hscans.append_sealed (by decide) hdot).append_scans hm.scans).append_sealed
    (by decide) sealed_lparen).append_scans hscans').append_sealed (by decide)
    sealed_rparen).scans, ?_, ?_⟩
  · have hcall := ExpAt.call (t := .fixed .dot) (m := .ofName m.name) (l := .fixed .lparen)
      (r := .fixed .rparen) hexp rfl hexps rfl
    simpa [Expr.unplaced, hm.unplaced, hm.token_unplaced] using hcall
  · simpa [small_append, small_fixed_cons, small_ofName_cons, small_nil] using ⟨small, small'⟩

theorem says_newArray {t : Token} {e : Expr} (ht : t.unplaced = .fixed .newWord) (he : e.Says) :
    (Expr.newArray t e).Says := by
  obtain ⟨ts, hscans, hexp, small⟩ := he
  have hopen : Sealed "new int[" [.fixed .newWord, .fixed .intWord, .fixed .lbracket] :=
    sealed_of_scan (by decide) (by decide)
  have hclose : Sealed "]" [.fixed .rbracket] := sealed_of_scan (by decide) (by decide)
  refine ⟨_, ((hopen.append_scans hscans).append_sealed (by decide) hclose).scans, ?_, ?_⟩
  · have hphrase := ExpAt.newArray (t := .fixed .newWord) (i := .fixed .intWord)
      (b := .fixed .lbracket) (u := .fixed .rbracket) rfl (hexp.loosen (Nat.zero_le _)) rfl
    simpa [Expr.unplaced, ht] using hphrase
  · simpa [small_append, small_fixed_cons, small_nil] using small

theorem says_newObject {t : Token} {c : Ident} (ht : t.unplaced = .fixed .newWord)
    (hc : c.Written) : (Expr.newObject t c).Says := by
  have hnew : Sealed "new " [.fixed .newWord] := sealed_of_scan (by decide) (by decide)
  have hclose : Sealed "()" [.fixed .lparen, .fixed .rparen] :=
    sealed_of_scan (by decide) (by decide)
  refine ⟨_, ((hnew.append_scans hc.scans).append_sealed (by decide) hclose).scans, ?_, ?_⟩
  · have hphrase := ExpAt.newObject (t := .fixed .newWord) (c := .ofName c.name)
      (l := .fixed .lparen) (r := .fixed .rparen) rfl
    simpa [Expr.unplaced, ht, hc.unplaced] using hphrase
  · simpa [small_append, small_fixed_cons, small_ofName_cons] using small_nil

theorem allSay_cons {e : Expr} {es : List Expr} (he : e.Says) (hes : Expr.AllSay es) :
    Expr.AllSay (e :: es) := by
  obtain ⟨ts, hscans, hexp, small⟩ := he
  have hexp := hexp.loosen (Nat.zero_le _)
  cases es with
  | nil =>
    exact ⟨ts ++ [], by simpa [Expr.texts, Bytes.join] using hscans, .some hexp .none,
      by simpa using small⟩
  | cons e' es =>
    obtain ⟨us, hscans', hexps, small'⟩ := hes
    have hcomma : Sealed ", " [.fixed .comma] := sealed_of_scan (by decide) (by decide)
    have hmore : MoreArgsAt (.fixed .comma :: us) (Expr.unplacedAll (e' :: es)) := by
      cases hexps with
      | some h hs => exact .some rfl h hs
    refine ⟨_, (hscans.append_sealed (by decide) hcomma).append_scans hscans', ?_, ?_⟩
    · simpa [Expr.unplacedAll] using ArgsAt.some hexp hmore
    · simpa [small_append, small_fixed_cons, small_nil] using ⟨small, small'⟩

mutual

/-- The text of an expression says it. -/
theorem Expr.text_says : ∀ e : Expr, e.Written → e.Says
  | .var x, h => .atom (Ident.Written.scans h)
      (by rw [Expr.unplaced, Ident.Written.unplaced h]; exact .var rfl)
      (small_ofName_cons.mpr small_nil)
  | .int t v, ⟨hkind, hnumeral, hvalue, hsmall⟩ => by
    have ht : t.unplaced = ⟨.int, t.literal, 0, 0⟩ := by rw [Token.unplaced, hkind]
    refine .atom (t := t.unplaced) ?_ ?_ (by simpa [Grammar.Small] using fun _ => hsmall)
    · intro rest hrest
      rw [ht]
      exact scan_numeral hnumeral hrest
    · rw [Expr.unplaced, hvalue]
      exact Atom.int (t := t.unplaced) hkind
  | .bool t true, h => by
    have hliteral : t.literal = utf8 "true" := (Token.mk.inj h).2.1
    refine .atom (t := .fixed .trueWord) ?_ ?_ ((small_fixed_cons (by decide)).mpr small_nil)
    · rw [Expr.text, hliteral]
      exact scans_of_scan (by decide) (by decide)
    · rw [Expr.unplaced, show t.unplaced = .fixed .trueWord from h]
      exact .true rfl
  | .bool t false, h => by
    have hliteral : t.literal = utf8 "false" := (Token.mk.inj h).2.1
    refine .atom (t := .fixed .falseWord) ?_ ?_ ((small_fixed_cons (by decide)).mpr small_nil)
    · rw [Expr.text, hliteral]
      exact scans_of_scan (by decide) (by decide)
    · rw [Expr.unplaced, show t.unplaced = .fixed .falseWord from h]
      exact .false rfl
  | .this t, h => by
    refine .atom (t := .fixed .thisWord) ?_ ?_ ((small_fixed_cons (by decide)).mpr small_nil)
    · rw [Expr.text]
      exact scans_of_scan (by decide) (by decide)
    · rw [Expr.unplaced, show t.unplaced = .fixed .thisWord from h]
      exact .this rfl
  | .unary t op e, ⟨ht, hop, he⟩ => by
    subst hop
    exact says_unary ht (e.text_says he)
  | .binary t op l r, ⟨⟨_, hop⟩, ht, hl, hr⟩ =>
    says_binary hop ht (l.text_says hl) (r.text_says hr)
  | .index t a i, ⟨ht, ha, hi⟩ => says_index ht (a.text_says ha) (i.text_says hi)
  | .length t a, ⟨ht, ha⟩ => says_length ht (a.text_says ha)
  | .call t recv m args, ⟨ht, hrecv, hm, hargs⟩ => by
    subst ht
    exact says_call (recv.text_says hrecv) hm (Expr.texts_say args hargs)
  | .newArray t e, ⟨ht, he⟩ => says_newArray ht (e.text_says he)
  | .newObject t c, ⟨ht, hc⟩ => says_newObject ht hc
  | .missing, h => False.elim h

theorem Expr.texts_say : ∀ es : List Expr, Expr.AllWritten es → Expr.AllSay es
  | [], _ => ⟨[], sealed_nil.scans, .none, small_nil⟩
  | e :: es, ⟨he, hes⟩ => allSay_cons (e.text_says he) (Expr.texts_say es hes)

end

/-! ### Statements -/

/-- The text of the statement says a phrase whose tree it is. -/
def Stmt.Says (s : Stmt) : Prop :=
  ∃ ts, Sealed s.text ts ∧ StmtOf (ExpAt 0) ts s.unplaced ∧ Small ts

theorem says_cond {t : Token} {c : Expr} {a b : Stmt} (ht : t.unplaced = .fixed .ifWord)
    (hc : c.Says) (ha : a.Says) (hb : b.Says) : (Stmt.cond t c a b).Says := by
  obtain ⟨cs, hscans, hexp, small⟩ := hc
  obtain ⟨as, hsealed, hstmt, small'⟩ := ha
  obtain ⟨bs, hsealed', hstmt', small''⟩ := hb
  have hif : Sealed "if (" [.fixed .ifWord, .fixed .lparen] :=
    sealed_of_scan (by decide) (by decide)
  have hthen : Sealed ") " [.fixed .rparen] := sealed_of_scan (by decide) (by decide)
  have helse : Sealed " else " [.fixed .elseWord] := sealed_of_scan (by decide) (by decide)
  refine ⟨_, ((((hif.append_scans hscans).append_sealed (by decide) hthen).append
    hsealed).append helse).append hsealed', ?_, ?_⟩
  · have hphrase := StmtOf.cond (t := .fixed .ifWord) (l := .fixed .lparen) (r := .fixed .rparen)
      (w := .fixed .elseWord) rfl (hexp.loosen (Nat.zero_le _)) rfl hstmt rfl hstmt'
    simpa [Stmt.unplaced, ht] using hphrase
  · simpa [small_append, small_fixed_cons, small_nil] using ⟨small, small', small''⟩

theorem says_loop {t : Token} {c : Expr} {b : Stmt} (ht : t.unplaced = .fixed .whileWord)
    (hc : c.Says) (hb : b.Says) : (Stmt.loop t c b).Says := by
  obtain ⟨cs, hscans, hexp, small⟩ := hc
  obtain ⟨bs, hsealed, hstmt, small'⟩ := hb
  have hwhile : Sealed "while (" [.fixed .whileWord, .fixed .lparen] :=
    sealed_of_scan (by decide) (by decide)
  have hdo : Sealed ") " [.fixed .rparen] := sealed_of_scan (by decide) (by decide)
  refine ⟨_, ((hwhile.append_scans hscans).append_sealed (by decide) hdo).append hsealed, ?_, ?_⟩
  · have hphrase := StmtOf.loop (t := .fixed .whileWord) (l := .fixed .lparen)
      (r := .fixed .rparen) rfl (hexp.loosen (Nat.zero_le _)) rfl hstmt
    simpa [Stmt.unplaced, ht] using hphrase
  · simpa [small_append, small_fixed_cons, small_nil] using ⟨small, small'⟩

theorem says_print {t : Token} {e : Expr} (ht : t.unplaced = .fixed .systemWord) (he : e.Says) :
    (Stmt.print t e).Says := by
  obtain ⟨ts, hscans, hexp, small⟩ := he
  have hopen : Sealed "System.out.println(" [.fixed .systemWord, .fixed .dot, .ofName "out",
      .fixed .dot, .ofName "println", .fixed .lparen] :=
    sealed_of_scan (by decide) (by decide)
  have hclose : Sealed ");" [.fixed .rparen, .fixed .semicolon] :=
    sealed_of_scan (by decide) (by decide)
  refine ⟨_, (hopen.append_scans hscans).append_sealed (by decide) hclose, ?_, ?_⟩
  · have hopens : Opens [.fixed .systemWord, .fixed .dot, .ofName "out", .fixed .dot,
        .ofName "println", .fixed .lparen] :=
      ⟨_, _, _, _, _, _, rfl, rfl, rfl, rfl⟩
    have hphrase := StmtOf.print (r := .fixed .rparen) (s := .fixed .semicolon) hopens
      (hexp.loosen (Nat.zero_le _)) rfl
    simpa [Stmt.unplaced, ht] using hphrase
  · simpa [small_append, small_fixed_cons, small_ofName_cons, small_nil] using small

theorem says_assign {x : Ident} {e : Expr} (hx : x.Written) (he : e.Says) :
    (Stmt.assign x.token x e).Says := by
  obtain ⟨ts, hscans, hexp, small⟩ := he
  have heq : Sealed " = " [.fixed .assign] := sealed_of_scan (by decide) (by decide)
  have hend : Sealed ";" [.fixed .semicolon] := sealed_of_scan (by decide) (by decide)
  refine ⟨_, ((hx.scans.append_sealed (by decide) heq).append_scans hscans).append_sealed
    (by decide) hend, ?_, ?_⟩
  · have hphrase := StmtOf.assign (x := .ofName x.name) (t := .fixed .assign)
      (s := .fixed .semicolon) rfl (hexp.loosen (Nat.zero_le _)) rfl
    simpa [Stmt.unplaced, hx.unplaced, hx.token_unplaced] using hphrase
  · simpa [small_append, small_fixed_cons, small_ofName_cons, small_nil] using small

theorem says_assignElem {x : Ident} {i e : Expr} (hx : x.Written) (hi : i.Says) (he : e.Says) :
    (Stmt.assignElem x.token x i e).Says := by
  obtain ⟨is, hscans, hexp, small⟩ := hi
  obtain ⟨ts, hscans', hexp', small'⟩ := he
  have hopen : Sealed "[" [.fixed .lbracket] := sealed_of_scan (by decide) (by decide)
  have heq : Sealed "] = " [.fixed .rbracket, .fixed .assign] :=
    sealed_of_scan (by decide) (by decide)
  have hend : Sealed ";" [.fixed .semicolon] := sealed_of_scan (by decide) (by decide)
  refine ⟨_, ((((hx.scans.append_sealed (by decide) hopen).append_scans hscans).append_sealed
    (by decide) heq).append_scans hscans').append_sealed (by decide) hend, ?_, ?_⟩
  · have hphrase := StmtOf.assignElem (x := .ofName x.name) (l := .fixed .lbracket)
      (r := .fixed .rbracket) (t := .fixed .assign) (s := .fixed .semicolon) rfl
      (hexp.loosen (Nat.zero_le _)) rfl (hexp'.loosen (Nat.zero_le _)) rfl
    simpa [Stmt.unplaced, hx.unplaced, hx.token_unplaced] using hphrase
  · simpa [small_append, small_fixed_cons, small_ofName_cons, small_nil] using ⟨small, small'⟩

/-- Statements with a blank after each of them. -/
def Stmt.AllSay (ss : List Stmt) : Prop :=
  ∃ ts, Sealed (spaced (Stmt.texts ss)) ts ∧ StmtsOf (ExpAt 0) ts (Stmt.unplacedAll ss) ∧ Small ts

theorem allSay_nil : Stmt.AllSay [] := ⟨[], sealed_nil, .none, small_nil⟩

theorem stmts_allSay_cons {s : Stmt} {ss : List Stmt} (hs : s.Says) (hss : Stmt.AllSay ss) :
    Stmt.AllSay (s :: ss) := by
  obtain ⟨ts, hsealed, hstmt, small⟩ := hs
  obtain ⟨us, hsealed', hstmts, small'⟩ := hss
  refine ⟨ts ++ us, ?_, .some hstmt hstmts, small_append.mpr ⟨small, small'⟩⟩
  simpa [Stmt.texts, spaced] using (hsealed.append sealed_blank).append hsealed'

/-- Blanks between items and one after them are blanks after each of them. -/
theorem join_blank_append (s : Bytes) (items : List Bytes) :
    Bytes.join " " (s :: items) ++ utf8 " " = spaced (s :: items) := by
  induction items generalizing s with
  | nil => simp [Bytes.join, spaced]
  | cons s' items ih =>
    rw [Bytes.join, List.append_assoc, ih s']
    · simp [spaced]
    · simp

theorem says_block {t : Token} {ss : List Stmt} (ht : t.unplaced = .fixed .lbrace)
    (hss : Stmt.AllSay ss) : (Stmt.block t ss).Says := by
  obtain ⟨ts, hsealed, hstmts, small⟩ := hss
  have hopen : Sealed "\x7b " [.fixed .lbrace] := sealed_of_scan (by decide) (by decide)
  have hclose : Sealed "\x7d" [.fixed .rbrace] := sealed_of_scan (by decide) (by decide)
  refine ⟨[.fixed .lbrace] ++ ts ++ [.fixed .rbrace], ?_, ?_, ?_⟩
  · have htext : (Stmt.block t ss).text =
        utf8 "\x7b " ++ spaced (Stmt.texts ss) ++ utf8 "\x7d" := by
      cases ss with
      | nil => rfl
      | cons s ss =>
        rw [Stmt.text, Stmt.texts, ← join_blank_append]
        simp only [List.append_assoc]
        rfl
    rw [htext]
    exact (hopen.append hsealed).append hclose
  · have hphrase := StmtOf.block (t := .fixed .lbrace) (u := .fixed .rbrace) rfl hstmts rfl
    simpa [Stmt.unplaced, ht] using hphrase
  · simpa [small_append, small_fixed_cons, small_nil] using small

mutual

/-- The text of a statement says it. -/
theorem Stmt.text_says : ∀ s : Stmt, s.Written → s.Says
  | .block t ss, ⟨ht, hss⟩ => says_block ht (Stmt.texts_say ss hss)
  | .cond t c a b, ⟨ht, hc, ha, hb⟩ =>
    says_cond ht (c.text_says hc) (a.text_says ha) (b.text_says hb)
  | .loop t c b, ⟨ht, hc, hb⟩ => says_loop ht (c.text_says hc) (b.text_says hb)
  | .print t e, ⟨ht, he⟩ => says_print ht (e.text_says he)
  | .assign t x e, ⟨ht, hx, he⟩ => by
    subst ht
    exact says_assign hx (e.text_says he)
  | .assignElem t x i e, ⟨ht, hx, hi, he⟩ => by
    subst ht
    exact says_assignElem hx (i.text_says hi) (e.text_says he)
  | .missing, h => False.elim h

theorem Stmt.texts_say : ∀ ss : List Stmt, Stmt.AllWritten ss → Stmt.AllSay ss
  | [], _ => allSay_nil
  | s :: ss, ⟨hs, hss⟩ => stmts_allSay_cons (s.text_says hs) (Stmt.texts_say ss hss)

end

/-! ### Declarations -/

theorem TypeRef.text_says {r : TypeRef} (h : r.Written) :
    ∃ ts, Scans r.type.text ts ∧ TypeOf ts r.unplaced ∧ Small ts := by
  cases h with
  | @int t ht =>
    have hscans : Scans "int" [.fixed .intWord] := scans_of_scan (by decide) (by decide)
    refine ⟨_, hscans, ?_, ?_⟩
    · rw [TypeRef.unplaced, ht]
      exact .int rfl
    · exact (small_fixed_cons (by decide)).mpr small_nil
  | @intArray t ht =>
    have hscans : Scans "int[]" [.fixed .intWord, .fixed .lbracket, .fixed .rbracket] :=
      scans_of_scan (by decide) (by decide)
    refine ⟨_, hscans, ?_, ?_⟩
    · rw [TypeRef.unplaced, ht]
      exact .intArray rfl
    · simpa [small_fixed_cons] using small_nil
  | @boolean t ht =>
    have hscans : Scans "boolean" [.fixed .booleanWord] := scans_of_scan (by decide) (by decide)
    refine ⟨_, hscans, ?_, ?_⟩
    · rw [TypeRef.unplaced, ht]
      exact .boolean rfl
    · exact (small_fixed_cons (by decide)).mpr small_nil
  | @object t hk hname =>
    refine ⟨[.ofName t.literal], scans_name hname, ?_, small_ofName_cons.mpr small_nil⟩
    have ht : t.unplaced = .ofName t.literal := by rw [Token.unplaced, hk, Token.ofName]
    rw [TypeRef.unplaced, ht]
    exact .object rfl

theorem VarDecl.text_says {d : VarDecl} (h : d.Written) :
    ∃ ts, Scans d.text ts ∧ TypedName ts d.unplaced ∧ Small ts := by
  obtain ⟨htoken, htype, hname⟩ := h
  obtain ⟨ts, hscans, hphrase, small⟩ := TypeRef.text_says htype
  refine ⟨_, (hscans.append_sealed (by decide) sealed_blank).append_scans hname.scans, ?_, ?_⟩
  · have hdecl := TypedName.mk (x := .ofName d.name.name) hphrase rfl
    rw [VarDecl.unplaced, htoken, hname.unplaced]
    simpa [TypeRef.unplaced] using hdecl
  · simpa [small_append, small_ofName_cons, small_nil] using small

theorem declarations_say {ds : List VarDecl} (h : ∀ d ∈ ds, d.Written) :
    ∃ ts, Sealed (declarations ds) ts ∧ Decls ts (ds.map VarDecl.unplaced) ∧ Small ts := by
  induction ds with
  | nil => exact ⟨[], sealed_nil, .none, small_nil⟩
  | cons d ds ih =>
    rw [List.forall_mem_cons] at h
    obtain ⟨ts, hscans, hphrase, small⟩ := VarDecl.text_says h.1
    obtain ⟨us, hsealed, hdecls, small'⟩ := ih h.2
    have hend : Sealed ";" [.fixed .semicolon] := sealed_of_scan (by decide) (by decide)
    refine ⟨_, ((hscans.append_sealed (by decide) hend).append sealed_blank).append hsealed, ?_, ?_⟩
    · simpa using Decls.some (t := .fixed .semicolon) hphrase rfl hdecls
    · simpa [small_append, small_fixed_cons, small_nil] using ⟨small, small'⟩

theorem params_say {ds : List VarDecl} (h : ∀ d ∈ ds, d.Written) :
    ∃ ts, Scans (Bytes.join ", " (ds.map VarDecl.text)) ts ∧
      Params ts (ds.map VarDecl.unplaced) ∧ Small ts := by
  induction ds with
  | nil => exact ⟨[], sealed_nil.scans, .none, small_nil⟩
  | cons d ds ih =>
    rw [List.forall_mem_cons] at h
    obtain ⟨ts, hscans, hphrase, small⟩ := VarDecl.text_says h.1
    obtain ⟨us, hscans', hparams, small'⟩ := ih h.2
    cases ds with
    | nil =>
      exact ⟨ts ++ [], by simpa [Bytes.join] using hscans, .some hphrase .none, by simpa using small⟩
    | cons d' ds =>
      have hcomma : Sealed ", " [.fixed .comma] := sealed_of_scan (by decide) (by decide)
      have hmore : MoreParams (.fixed .comma :: us) ((d' :: ds).map VarDecl.unplaced) := by
        cases hparams with
        | some h hs => exact .some rfl h hs
      refine ⟨_, (hscans.append_sealed (by decide) hcomma).append_scans hscans', ?_, ?_⟩
      · simpa using Params.some hphrase hmore
      · simpa [small_append, small_fixed_cons, small_nil] using ⟨small, small'⟩

/-! ### Methods, classes, programs -/

/-- A result that is there is printed. -/
theorem MethodDecl.text_eq {m : MethodDecl} (h : m.result.Written) :
    m.text = utf8 "public " ++ m.returns.type.text ++ utf8 " " ++ m.name.name ++ utf8 "("
      ++ Bytes.join ", " (m.params.map VarDecl.text) ++ utf8 ") \x7b " ++ declarations m.vars
      ++ spaced (Stmt.texts m.body) ++ (utf8 "return " ++ m.result.text ++ utf8 "; ")
      ++ utf8 "\x7d" := by
  unfold MethodDecl.text
  cases hresult : m.result with
  | missing => rw [hresult] at h; exact False.elim h
  | _ => rfl

theorem MethodDecl.text_says {m : MethodDecl} (h : m.Written) :
    ∃ ts, Sealed m.text ts ∧ MethodOf (ExpAt 0) ts m.unplaced ∧ Small ts := by
  obtain ⟨rs, hreturns, htype, small⟩ := TypeRef.text_says h.returns
  obtain ⟨ps, hparams, hps, small'⟩ := params_say h.params
  obtain ⟨ds, hvars, hds, small''⟩ := declarations_say h.vars
  obtain ⟨ss, hbody, hss, small₃⟩ := Stmt.texts_say m.body h.body
  obtain ⟨es, hresult, hes, small₄⟩ := m.result.text_says h.result
  have hpublic : Sealed "public " [.fixed .publicWord] := sealed_of_scan (by decide) (by decide)
  have hopen : Sealed ") \x7b " [.fixed .rparen, .fixed .lbrace] :=
    sealed_of_scan (by decide) (by decide)
  have hreturn : Sealed "return " [.fixed .returnWord] := sealed_of_scan (by decide) (by decide)
  have hend : Sealed "; " [.fixed .semicolon] := sealed_of_scan (by decide) (by decide)
  have hclose : Sealed "\x7d" [.fixed .rbrace] := sealed_of_scan (by decide) (by decide)
  have hhead := ((((hpublic.append_scans hreturns).append_sealed (by decide)
    sealed_blank).append_scans h.name.scans).append_sealed (by decide) sealed_lparen).append_scans
    hparams
  have htail := (hreturn.append_scans hresult).append_sealed (by decide) hend
  have hall := ((((hhead.append_sealed (by decide) hopen).append hvars).append hbody).append
    htail).append hclose
  rw [← MethodDecl.text_eq h.result] at hall
  refine ⟨_, hall, ?_, ?_⟩
  · have hphrase := MethodOf.mk (t := .fixed .publicWord) (m := .ofName m.name.name)
      (l := .fixed .lparen) (r := .fixed .rparen) (b := .fixed .lbrace) (w := .fixed .returnWord)
      (s := .fixed .semicolon) (c := .fixed .rbrace) rfl htype rfl hps rfl hds hss rfl
      (hes.loosen (Nat.zero_le _)) rfl
    simpa [MethodDecl.unplaced, h.token, h.name.unplaced] using hphrase
  · simpa [small_append, small_fixed_cons, small_ofName_cons, small_nil] using
      ⟨small, small', small'', small₃, small₄⟩

theorem methods_say {ms : List MethodDecl} (h : ∀ m ∈ ms, m.Written) :
    ∃ ts, Sealed (spaced (ms.map MethodDecl.text)) ts ∧
      MethodsOf (ExpAt 0) ts (ms.map MethodDecl.unplaced) ∧ Small ts := by
  induction ms with
  | nil => exact ⟨[], sealed_nil, .none, small_nil⟩
  | cons m ms ih =>
    rw [List.forall_mem_cons] at h
    obtain ⟨ts, hsealed, hphrase, small⟩ := MethodDecl.text_says h.1
    obtain ⟨us, hsealed', hmethods, small'⟩ := ih h.2
    refine ⟨ts ++ us, ?_, .some hphrase hmethods, small_append.mpr ⟨small, small'⟩⟩
    simpa [spaced] using (hsealed.append sealed_blank).append hsealed'

/-- What is printed of the class that is extended. -/
def extension : Option Ident → Bytes
  | some p => " extends " ++ p.name
  | none => []

theorem ClassDecl.text_eq (c : ClassDecl) :
    c.text = utf8 "class " ++ c.name.name ++ (extension c.parent ++ utf8 " \x7b ")
      ++ declarations c.fields ++ spaced (c.methods.map MethodDecl.text) ++ utf8 "\x7d" := by
  rw [← List.append_assoc _ (extension c.parent)]
  rfl

/-- The extended class and the brace after it; both are apart from the name in front. -/
theorem extension_says {parent : Option Ident} (h : ∀ p ∈ parent, p.Written) :
    opens (extension parent ++ utf8 " \x7b ") ∧
      ∃ ts, Sealed (extension parent ++ utf8 " \x7b ") (ts ++ [.fixed .lbrace]) ∧
        ParentOf ts (parent.map Ident.unplaced) ∧ Small ts := by
  have hopen : Sealed " \x7b " [.fixed .lbrace] := sealed_of_scan (by decide) (by decide)
  cases parent with
  | none => exact ⟨rfl, [], hopen, .none, small_nil⟩
  | some p =>
    have hp := h p rfl
    have hextends : Sealed " extends " [.fixed .extendsWord] :=
      sealed_of_scan (by decide) (by decide)
    refine ⟨rfl, [.fixed .extendsWord, .ofName p.name],
      (hextends.append_scans hp.scans).append_sealed (by decide) hopen, ?_, ?_⟩
    · rw [Option.map_some, hp.unplaced]
      exact .some rfl
    · simpa [small_fixed_cons, small_ofName_cons] using small_nil

theorem ClassDecl.text_says {c : ClassDecl} (h : c.Written) :
    ∃ ts, Sealed c.text ts ∧ ClassOf (ExpAt 0) ts c.unplaced ∧ Small ts := by
  obtain ⟨hopens, ps, hparent, hps, small⟩ := extension_says h.parent
  obtain ⟨fs, hfields, hfs, small'⟩ := declarations_say h.fields
  obtain ⟨ms, hmethods, hms, small''⟩ := methods_say h.methods
  have hclass : Sealed "class " [.fixed .classWord] := sealed_of_scan (by decide) (by decide)
  have hclose : Sealed "\x7d" [.fixed .rbrace] := sealed_of_scan (by decide) (by decide)
  have hall := ((((hclass.append_scans h.name.scans).append_sealed hopens hparent).append
    hfields).append hmethods).append hclose
  rw [← ClassDecl.text_eq] at hall
  refine ⟨_, hall, ?_, ?_⟩
  · have hphrase := ClassOf.mk (t := .fixed .classWord) (c := .ofName c.name.name)
      (b := .fixed .lbrace) (u := .fixed .rbrace) rfl hps rfl hfs hms rfl
    simpa [ClassDecl.unplaced, h.token, h.name.unplaced] using hphrase
  · simpa [small_append, small_fixed_cons, small_ofName_cons, small_nil] using
      ⟨small, small', small''⟩

theorem classes_say {cs : List ClassDecl} (h : ∀ c ∈ cs, c.Written) :
    ∃ ts, Sealed (cs.flatMap fun c => ("\n" ++ c.text : Bytes)) ts ∧
      ClassesOf (ExpAt 0) ts (cs.map ClassDecl.unplaced) ∧ Small ts := by
  induction cs with
  | nil => exact ⟨[], sealed_nil, .none, small_nil⟩
  | cons c cs ih =>
    rw [List.forall_mem_cons] at h
    obtain ⟨ts, hsealed, hphrase, small⟩ := ClassDecl.text_says h.1
    obtain ⟨us, hsealed', hclasses, small'⟩ := ih h.2
    have hline : Sealed "\n" [] := sealed_of_scan (by decide) (by decide)
    refine ⟨ts ++ us, ?_, .some hphrase hclasses, small_append.mpr ⟨small, small'⟩⟩
    simpa using (hline.append hsealed).append hsealed'

theorem MainClass.text_says {m : MainClass} (h : m.Written) :
    ∃ ts, Sealed m.text ts ∧ MainOf (ExpAt 0) ts m.unplaced ∧ Small ts := by
  obtain ⟨arg, harg, hwritten⟩ := h.arg
  obtain ⟨ds, hvars, hds, small⟩ := declarations_say h.vars
  obtain ⟨ss, hbody, hss, small'⟩ := Stmt.texts_say m.body h.body
  have hclass : Sealed "class " [.fixed .classWord] := sealed_of_scan (by decide) (by decide)
  have hmain : Sealed " \x7b public static void main(String[] " ([.lbrace, .publicWord,
      .staticWord, .voidWord, .mainWord, .lparen, .stringWord, .lbracket, .rbracket].map .fixed) :=
    sealed_of_scan (by decide) (by decide)
  have hopen : Sealed ") \x7b " [.fixed .rparen, .fixed .lbrace] :=
    sealed_of_scan (by decide) (by decide)
  have hclose : Sealed "\x7d \x7d" [.fixed .rbrace, .fixed .rbrace] :=
    sealed_of_scan (by decide) (by decide)
  have hall := ((((((hclass.append_scans h.name.scans).append_sealed (by decide)
    hmain).append_scans hwritten.scans).append_sealed (by decide) hopen).append hvars).append
    hbody).append hclose
  refine ⟨_, by rw [MainClass.text, harg]; exact hall, ?_, ?_⟩
  · have hphrase := @MainOf.mk (ExpAt 0) (.fixed .classWord) (.ofName m.name.name)
      (.ofName arg.name) ([.lbrace, .publicWord, .staticWord, .voidWord, .mainWord, .lparen,
        .stringWord, .lbracket, .rbracket].map .fixed) [.fixed .rparen, .fixed .lbrace] ds ss
      [.fixed .rbrace, .fixed .rbrace] _ _ rfl rfl rfl rfl hds hss rfl
    simpa [MainClass.unplaced, h.token, h.name.unplaced, harg, hwritten.unplaced] using hphrase
  · simpa [small_append, small_fixed_cons, small_ofName_cons, small_nil] using ⟨small, small'⟩

/-- The text of a program says it. -/
theorem Program.text_says {p : Program} (h : p.Written) :
    ∃ ts, Sealed p.text ts ∧ ProgramOf (ExpAt 0) ts p.unplaced ∧ Small ts := by
  obtain ⟨m, hmain, hwritten⟩ := h.main
  obtain ⟨ts, hsealed, hphrase, small⟩ := MainClass.text_says hwritten
  obtain ⟨us, hsealed', hclasses, small'⟩ := classes_say h.classes
  refine ⟨ts ++ us, ?_, ?_, small_append.mpr ⟨small, small'⟩⟩
  · rw [Program.text, hmain]
    exact hsealed.append hsealed'
  · rw [Program.unplaced, hmain]
    exact .mk hphrase hclasses

/-! ### The round trip -/

/-- A phrase is read alone as its tree. -/
theorem ofTokens_phrase {ts : List Token} {p : Program} (h : ProgramOf (ExpAt 0) ts p)
    (small : Small ts) (fin : Position) : Program.ofTokens ⟨ts, fin⟩ = ⟨p, []⟩ := by
  have hsentence : TokenStream.sentence ⟨ts, fin⟩ = ts := by
    have htake := @Parse.takeWhile_sentence ts [] (Parse.noEof_programOf h) rfl
    rwa [List.append_nil] at htake
  exact (Parse.ofTokens_eq_iff _ _).mpr (by rw [hsentence]; exact ⟨h, small⟩)

/-- The text of a program that was read without complaint is read without complaint, as a program
that differs from it in places only. -/
theorem parse_text (source : Bytes) (h : (Program.parse source).errors = []) :
    (Program.parse (Program.parse source).program.text).errors = [] ∧
      (Program.parse (Program.parse source).program.text).program.unplaced =
        (Program.parse source).program.unplaced := by
  obtain ⟨ts, hsealed, hphrase, small⟩ := Program.text_says (written_of_parse h)
  have hscan : scan (Program.parse source).program.text = ts := by
    simpa using hsealed []
  have hwords : (TokenStream.ofSource (Program.parse source).program.text).pending.map
      Token.unplaced = ts.map Token.unplaced := by
    rw [← hscan, ← map_unplaced_ofSource, List.map_map]
    rfl
  obtain ⟨hprogram, hcomplaints⟩ := @Parse.ofTokens_alike _ ⟨ts, .start⟩ hwords
  rw [ofTokens_phrase hphrase small .start] at hprogram hcomplaints
  exact ⟨List.map_eq_nil_iff.mp hcomplaints, hprogram.trans (Program.unplaced_unplaced _)⟩

/-- A sum of products loses its layout and gains parentheses, and nothing else. -/
theorem parse_text_sum_of_products :
    (Program.parse (Program.parse
      "class A\x7bpublic static void main(String[] a)\x7bSystem.out.println(1+2*3);\x7d\x7d"
      ).program.text).errors = [] :=
  (parse_text _ (by decide +kernel)).1

end MiniJava
