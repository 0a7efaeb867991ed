import Mathlib.Data.List.Nodup
import Mathlib.Data.List.Perm.Basic
import Mathlib.Data.List.TakeWhile
import MiniJava.Diagnostic
import MiniJava.Proofs.Text.Find

/-!
# The place of a fragment

A fragment of a source has a place if a single line says the same as the fragment, or else if it
occurs on a single line.  On that line it may still occur more than once: then the place is the
first of them.

* **`OnlyLine`** — the only line of a source that is of some kind.
* **`Occurs`** — a fragment stands on a line, at an offset.
* **`Unambiguous`** — a place that is the only one that can be meant.
* **`locate_spec`** — when a fragment has a place, which one, and when it is the only one.
-/

namespace MiniJava.Diagnostic

/-! ### The only line of some kind -/

/-- Of the lines of a source, counted from 0, the one with the number `n` is the only one such as
`P` asks for; it reads `text`. -/
structure OnlyLine (source : Bytes) (P : Bytes → Prop) (n : Nat) (text : Bytes) : Prop where
  line : (linesOf source)[n]? = some text
  holds : P text
  only : ∀ m other, (linesOf source)[m]? = some other → P other → m = n

/-- The line says the same as the fragment, up to blanks and tabs. -/
def SaysSame (fragment line : Bytes) : Prop := squeeze line = squeeze fragment

/-- The fragment stands in the source on line `n` at the offset `k`, both counted from 0. -/
def Occurs (source fragment : Bytes) (n k : Nat) : Prop :=
  ∃ text, (linesOf source)[n]? = some text ∧ fragment.OccursAt text k

/-! ### Lists with a single entry -/

section

variable {α β : Type} {l : List α} {f : α × Nat → Option β} {b : β}

/-- Of numbered entries, only one is picked: it is the only one that can be.  The number shows in
what is picked. -/
theorem filterMap_zipIdx_eq_singleton_iff
    (hnumber : ∀ p q c, f p = some c → f q = some c → p.2 = q.2) :
    l.zipIdx.filterMap f = [b] ↔ ∃ n x, l[n]? = some x ∧ f (x, n) = some b ∧
      ∀ m y, l[m]? = some y → (f (y, m)).isSome → m = n := by
  have hmem : ∀ c, c ∈ l.zipIdx.filterMap f ↔ ∃ n x, l[n]? = some x ∧ f (x, n) = some c := by
    intro c
    rw [List.mem_filterMap]
    constructor
    · rintro ⟨⟨x, n⟩, hx, hc⟩
      exact ⟨n, x, List.mem_zipIdx_iff_getElem?.mp hx, hc⟩
    · rintro ⟨n, x, hx, hc⟩
      exact ⟨(x, n), List.mem_zipIdx_iff_getElem?.mpr hx, hc⟩
  constructor
  · intro h
    obtain ⟨n, x, hx, hb⟩ := (hmem b).mp (by rw [h]; exact List.mem_singleton_self b)
    refine ⟨n, x, hx, hb, fun m y hy hsome => ?_⟩
    obtain ⟨c, hc⟩ := Option.isSome_iff_exists.mp hsome
    obtain rfl : c = b := List.mem_singleton.mp (h ▸ (hmem c).mpr ⟨m, y, hy, hc⟩)
    exact hnumber (y, m) (x, n) c hc hb
  · rintro ⟨n, x, hx, hb, honly⟩
    have hnumbers : (l.zipIdx.map Prod.snd).Nodup := by
      rw [List.zipIdx_map_snd]
      exact List.nodup_range'
    have hnodup : (l.zipIdx.filterMap f).Nodup := by
      refine List.pairwise_filterMap.mpr ((List.pairwise_map.mp hnumbers).imp ?_)
      rintro p q hne c hp d hq rfl
      exact hne (hnumber p q c hp hq)
    have hperm : (l.zipIdx.filterMap f).Perm [b] := by
      refine (List.perm_ext_iff_of_nodup hnodup (List.nodup_singleton b)).mpr fun c => ?_
      rw [hmem, List.mem_singleton]
      constructor
      · rintro ⟨m, y, hy, hc⟩
        obtain rfl := honly m y hy (by rw [hc]; rfl)
        obtain rfl := Option.some.inj (hx.symm.trans hy)
        exact Option.some.inj (hc.symm.trans hb)
      · rintro rfl
        exact ⟨n, x, hx, hb⟩
    exact List.perm_singleton.mp hperm

end

/-! ### Contexts without backquotes -/

theorem dropBlanks_suffix (wides : List Bytes) (skip : Nat) (s : Bytes) :
    Blank.dropBlanks wides skip s <:+ s := by
  induction s generalizing skip with
  | nil => cases skip <;> exact List.suffix_rfl
  | cons c s ih =>
    cases skip with
    | succ skip => exact (ih skip).trans (List.suffix_cons c s)
    | zero =>
      rw [Blank.dropBlanks]
      split
      · exact (ih _).trans (List.suffix_cons c s)
      · exact List.suffix_rfl

theorem mem_of_mem_trim {c : UInt8} {s : Bytes} (h : c ∈ s.trim) : c ∈ s := by
  rw [Bytes.trim, Bytes.trimEnd, List.mem_reverse] at h
  have hstart := List.mem_reverse.mp ((dropBlanks_suffix _ _ _).subset h)
  exact (dropBlanks_suffix _ _ _).subset hstart

theorem trimByte_eq_self {c : UInt8} {s : Bytes} (h : c ∉ s) : s.trimByte c = s := by
  have hkeep : ∀ t : Bytes, c ∉ t → t.dropWhile (· == c) = t := by
    intro t ht
    refine List.dropWhile_eq_self_iff.mpr fun hpos heq => ht ?_
    rw [← beq_iff_eq.mp heq]
    exact List.getElem_mem hpos
  rw [Bytes.trimByte, hkeep s h, Bytes.dropEndWhile, hkeep s.reverse (by simpa using h),
    List.reverse_reverse]

section

variable {source fragment context text : Bytes} {n line column : Nat}

/-- There are no backquotes around a context that has none in it. -/
theorem trimByte_trim (hplain : '\x60'.toUInt8 ∉ context) :
    context.trim.trimByte '\x60'.toUInt8 = context.trim :=
  trimByte_eq_self fun h => hplain (mem_of_mem_trim h)

/-- There is one line that says the same exactly if it is the only one. -/
theorem equalLines_eq_singleton_iff :
    equalLines source fragment = [(text, n)] ↔ OnlyLine source (SaysSame fragment) n text := by
  have hsame : ∀ line : Bytes, (squeeze line == squeeze fragment) = true ↔ SaysSame fragment line :=
    fun line => beq_iff_eq
  rw [equalLines, ← List.filterMap_eq_filter, filterMap_zipIdx_eq_singleton_iff]
  · simp only [Option.guard_eq_some_iff, Option.isSome_guard, hsame, Prod.mk.injEq]
    constructor
    · rintro ⟨m, other, hline, ⟨⟨rfl, rfl⟩, hholds⟩, honly⟩
      exact ⟨hline, hholds, honly⟩
    · rintro ⟨hline, hholds, honly⟩
      exact ⟨n, text, hline, ⟨⟨rfl, rfl⟩, hholds⟩, honly⟩
  · intro p q c hp hq
    rw [(Option.guard_eq_some_iff.mp hp).1, (Option.guard_eq_some_iff.mp hq).1]

/-- There is one place where a fragment first occurs in a line exactly if the fragment occurs on one
line only; the place is the first one there. -/
theorem occurrences_eq_singleton_iff (hne : fragment ≠ []) :
    occurrences source [fragment] = [(line, column)] ↔
      ∃ n k, line = n + 1 ∧ column = k + 1 ∧ Occurs source fragment n k ∧
        ∀ m j, Occurs source fragment m j → m = n ∧ k ≤ j := by
  have hfirst : occurrences source [fragment] = (linesOf source).zipIdx.filterMap fun p =>
      (Bytes.find? fragment p.1).map fun column => (p.2 + 1, column + 1) := by
    rw [occurrences, List.filterMap_eq_flatMap_toList]
    refine congrArg (List.flatMap · _) (funext fun ⟨text, n⟩ => ?_)
    simp only [List.filterMap_cons, List.filterMap_nil, List.isEmpty_eq_false_iff.mpr hne,
      Bool.false_eq_true, if_false]
    cases Bytes.find? fragment text <;> rfl
  rw [hfirst, filterMap_zipIdx_eq_singleton_iff]
  · simp only [Option.map_eq_some_iff, Option.isSome_map, Prod.mk.injEq]
    constructor
    · rintro ⟨n, text, htext, ⟨k, hk, rfl, rfl⟩, honly⟩
      obtain ⟨hoccurs, hleast⟩ := Bytes.find?_eq_some_iff.mp hk
      refine ⟨n, k, rfl, rfl, ⟨text, htext, hoccurs⟩, ?_⟩
      rintro m j ⟨other, hother, hj⟩
      obtain rfl : m = n := honly m other hother (Option.isSome_iff_ne_none.mpr fun hnone =>
        Bytes.find?_eq_none_iff.mp hnone j hj)
      obtain rfl := Option.some.inj (htext.symm.trans hother)
      exact ⟨rfl, Nat.le_of_not_lt fun hlt => hleast j hlt hj⟩
    · rintro ⟨n, k, rfl, rfl, ⟨text, htext, hoccurs⟩, honly⟩
      have hleast : ∀ j < k, ¬ fragment.OccursAt text j := fun j hlt hj =>
        absurd (honly n j ⟨text, htext, hj⟩).2 (Nat.not_le_of_lt hlt)
      refine ⟨n, text, htext, ⟨k, Bytes.find?_eq_some_iff.mpr ⟨hoccurs, hleast⟩, rfl, rfl⟩, ?_⟩
      intro m other hother hsome
      obtain ⟨j, hj⟩ := Option.isSome_iff_exists.mp hsome
      exact (honly m j ⟨other, hother, (Bytes.find?_eq_some_iff.mp hj).1⟩).1
  · intro p q c hp hq
    obtain ⟨k, -, rfl⟩ := Option.map_eq_some_iff.mp hp
    obtain ⟨j, -, hj⟩ := Option.map_eq_some_iff.mp hq
    exact Nat.succ.inj (congrArg Prod.fst hj).symm

/-! ### Fragments that have a place -/

/-- The only line that says the same as a context is its place. -/
theorem locate_of_onlyLine (hne : context.trim ≠ []) (hplain : '\x60'.toUInt8 ∉ context)
    (h : OnlyLine source (SaysSame context.trim) n text) :
    locate source context = some (n + 1, columnIn text context.trim + 1) := by
  simp only [locate, trimByte_trim hplain, List.isEmpty_eq_false_iff.mpr hne, Bool.false_eq_true,
    if_false, equalLines_eq_singleton_iff.mpr h]

/-- Without such a line, the place of a context is where it occurs. -/
theorem locate_of_not_onlyLine (hne : context.trim ≠ []) (hplain : '\x60'.toUInt8 ∉ context)
    (h : ∀ n text, ¬ OnlyLine source (SaysSame context.trim) n text) :
    locate source context = some (line, column) ↔
      occurrences source [context.trim] = [(line, column)] := by
  simp only [locate, trimByte_trim hplain, List.isEmpty_eq_false_iff.mpr hne, BEq.rfl,
    Bool.false_eq_true, if_false, if_true]
  split
  · rename_i text n heq
    exact absurd (equalLines_eq_singleton_iff.mp heq) (h n text)
  · split
    · rename_i place hplaces
      rw [hplaces, Option.some.injEq, List.singleton_inj]
    · rename_i hplaces
      exact ⟨nofun, fun heq => absurd heq (hplaces _)⟩

/-- The place is the only one that can be meant: its line is the only one that says the same as the
fragment, or the fragment occurs there and nowhere else. -/
def Unambiguous (source fragment : Bytes) (line column : Nat) : Prop :=
  (∃ n text, OnlyLine source (SaysSame fragment) n text ∧ line = n + 1) ∨
    ∃ n k, line = n + 1 ∧ column = k + 1 ∧ Occurs source fragment n k ∧
      ∀ m j, Occurs source fragment m j → m = n ∧ j = k

/-- Which contexts have a place, and which one.  If a single line says the same as the context, that
line is its place.  If none does or several do, the context has to occur on a single line, and its
place is the first one there.  So the place is the only one that can be meant unless the context
occurs on the same line again. -/
theorem locate_spec (hne : context.trim ≠ []) (hplain : '\x60'.toUInt8 ∉ context) :
    (locate source context = some (line, column) ↔
      (∃ n text, OnlyLine source (SaysSame context.trim) n text ∧ line = n + 1 ∧
        column = columnIn text context.trim + 1) ∨
      (∀ n text, ¬ OnlyLine source (SaysSame context.trim) n text) ∧
        ∃ n k, line = n + 1 ∧ column = k + 1 ∧ Occurs source context.trim n k ∧
          ∀ m j, Occurs source context.trim m j → m = n ∧ k ≤ j) ∧
    (locate source context = some (line, column) →
      (Unambiguous source context.trim line column ↔
        (∃ n text, OnlyLine source (SaysSame context.trim) n text) ∨
        ∀ n j, line = n + 1 → Occurs source context.trim n j → column = j + 1)) := by
  by_cases hsame : ∃ n text, OnlyLine source (SaysSame context.trim) n text
  · obtain ⟨n, text, honly⟩ := hsame
    rw [locate_of_onlyLine hne hplain honly, Option.some.injEq, Prod.mk.injEq]
    refine ⟨⟨?_, ?_⟩, ?_⟩
    · rintro ⟨rfl, rfl⟩
      exact .inl ⟨n, text, honly, rfl, rfl⟩
    · rintro (⟨m, other, hother, rfl, rfl⟩ | ⟨hnone, -⟩)
      · obtain rfl := honly.only m other hother.line hother.holds
        obtain rfl := Option.some.inj (honly.line.symm.trans hother.line)
        exact ⟨rfl, rfl⟩
      · exact absurd honly (hnone n text)
    · rintro ⟨rfl, -⟩
      exact ⟨fun _ => .inl ⟨n, text, honly⟩, fun _ => .inl ⟨n, text, honly, rfl⟩⟩
  · have hnone : ∀ n text, ¬ OnlyLine source (SaysSame context.trim) n text :=
      fun n text h => hsame ⟨n, text, h⟩
    rw [locate_of_not_onlyLine hne hplain hnone, occurrences_eq_singleton_iff hne]
    refine ⟨⟨fun h => .inr ⟨hnone, h⟩, ?_⟩, ?_⟩
    · rintro (⟨n, text, honly, -⟩ | ⟨-, h⟩)
      · exact absurd honly (hnone n text)
      · exact h
    · rintro ⟨n, k, rfl, rfl, hoccurs, hline⟩
      constructor
      · rintro (⟨m, text, honly, -⟩ | ⟨m, i, hm, hi, -, honce⟩)
        · exact absurd honly (hnone m text)
        · refine .inr fun _ j _ hj => ?_
          rw [hi, (honce _ j hj).2]
      · rintro (⟨m, text, honly⟩ | honce)
        · exact absurd honly (hnone m text)
        · refine .inr ⟨n, k, rfl, rfl, hoccurs, fun m j hj => ?_⟩
          obtain rfl := (hline m j hj).1
          exact ⟨rfl, (Nat.succ.inj (honce m j rfl hj)).symm⟩

end

/-- A source with a fragment that occurs on one line only. -/
def calling : Bytes := "int x;\nx = 1;\n y(x);\n"

theorem locate_spec_calling :
    locate calling " y( " = some (3, 2) ∧ Occurs calling "y(" 2 1 ∧
      ∀ m j, Occurs calling "y(" m j → m = 2 ∧ 1 ≤ j := by
  have htrim : Bytes.trim " y( " = "y(" := by decide
  have hplace : locate calling " y( " = some (3, 2) := by decide +kernel
  rcases (@locate_spec calling " y( " 3 2 (by decide) (by decide)).1.mp hplace with
    ⟨n, text, honly, hn, -⟩ | ⟨-, n, k, hn, hk, hoccurs, hline⟩
  · obtain rfl : n = 2 := by omega
    have hsame := honly.holds
    obtain rfl : utf8 " y(x);" = text := Option.some.inj honly.line
    exact absurd hsame (by unfold SaysSame; decide)
  · obtain rfl : n = 2 := by omega
    obtain rfl : k = 1 := by omega
    rw [htrim] at hoccurs hline
    exact ⟨hplace, hoccurs, hline⟩

/-- A source with a fragment that occurs twice on its only line. -/
def assigning : Bytes := "x = x;"

/-- A fragment that occurs twice on a line is given the first of its two places. -/
theorem located_twice :
    Bytes.trim "x" ≠ [] ∧ '\x60'.toUInt8 ∉ utf8 "x" ∧ locate assigning "x" = some (1, 1) ∧
      ¬ Unambiguous assigning (Bytes.trim "x") 1 1 := by
  refine ⟨by decide, by decide, by decide +kernel, ?_⟩
  rintro (⟨n, text, honly, hn⟩ | ⟨n, k, hn, hk, -, honce⟩)
  · obtain rfl : n = 0 := by omega
    have hsame := honly.holds
    obtain rfl : assigning = text := Option.some.inj honly.line
    exact absurd hsame (by unfold SaysSame; decide)
  · have hagain : Occurs assigning (Bytes.trim "x") 0 4 :=
      ⟨assigning, rfl, by decide, by decide⟩
    have := (honce 0 4 hagain).2
    omega

end MiniJava.Diagnostic
