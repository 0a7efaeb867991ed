import Mathlib.Data.List.TakeWhile
import MiniJava.Text.Bytes

/-!
# Looking for fragments and bytes

* **`Bytes.OccursAt`** — the fragment stands in a text at an offset.
* **`Bytes.find?_eq_some_iff`** — the offset that is found is the first at which the fragment
  stands; `Bytes.find?_eq_none_iff`: nothing is found only if it stands nowhere.
* **`Bytes.find?_append_of_not_mem`** — a text that lacks the first byte of the fragment is passed
  over.
* **`Bytes.takeWhile_ne_append`** — the part of a text in front of the first byte of a kind.
-/

namespace MiniJava.Bytes

/-- The fragment stands in the text, from the offset `n` on. -/
def OccursAt (fragment s : Bytes) (n : Nat) : Prop := n ≤ s.length ∧ fragment <+: s.drop n

section

variable {fragment s : Bytes} {c : UInt8} {n : Nat}

@[simp] theorem occursAt_zero : OccursAt fragment s 0 ↔ fragment <+: s := by
  simp [OccursAt]

@[simp] theorem occursAt_nil_succ : ¬ OccursAt fragment [] (n + 1) := by
  simp [OccursAt]

@[simp] theorem occursAt_cons_succ : OccursAt fragment (c :: s) (n + 1) ↔ OccursAt fragment s n := by
  simp [OccursAt]

theorem find?_of_isPrefix (h : fragment <+: s) : find? fragment s = some 0 := by
  cases s with
  | nil =>
    rw [List.prefix_nil.mp h]
    rfl
  | cons c s => rw [find?, if_pos (List.isPrefixOf_iff_prefix.mpr h)]

theorem find?_cons_of_not_isPrefix (h : ¬ fragment <+: c :: s) :
    find? fragment (c :: s) = (find? fragment s).map (· + 1) := by
  rw [find?, if_neg (mt List.isPrefixOf_iff_prefix.mp h)]

/-- The offset that is found is the first one at which the fragment stands. -/
theorem find?_eq_some_iff :
    find? fragment s = some n ↔
      OccursAt fragment s n ∧ ∀ m < n, ¬ OccursAt fragment s m := by
  induction s generalizing n with
  | nil => cases n <;> simp [find?]
  | cons c s ih =>
    by_cases hfront : fragment <+: c :: s
    · rw [find?_of_isPrefix hfront]
      cases n with
      | zero => simp [hfront]
      | succ n =>
        constructor
        · rintro ⟨⟩
        · rintro ⟨-, hfirst⟩
          exact absurd (occursAt_zero.mpr hfront) (hfirst 0 (Nat.succ_pos n))
    · rw [find?_cons_of_not_isPrefix hfront]
      cases n with
      | zero => simp [hfront]
      | succ n =>
        simp only [Option.map_eq_some_iff, Nat.add_right_cancel_iff, exists_eq_right, ih,
          occursAt_cons_succ]
        refine and_congr_right fun _ => ⟨fun hfirst m hm => ?_, fun hfirst m hm => ?_⟩
        · cases m with
          | zero => simpa using hfront
          | succ m => simpa using hfirst m (Nat.lt_of_succ_lt_succ hm)
        · simpa using hfirst (m + 1) (Nat.succ_lt_succ hm)

/-- Nothing is found only if the fragment stands nowhere. -/
theorem find?_eq_none_iff : find? fragment s = none ↔ ∀ n, ¬ OccursAt fragment s n := by
  constructor
  · intro h n hn
    -- the first of the offsets at which it stands would have been found
    induction n using Nat.strongRecOn with
    | ind n ih =>
      have hfound := find?_eq_some_iff.mpr ⟨hn, fun m hm hmn => ih m hm hmn⟩
      rw [h] at hfound
      cases hfound
  · intro h
    cases hfind : find? fragment s with
    | none => rfl
    | some n => exact absurd (find?_eq_some_iff.mp hfind).1 (h n)

/-- A fragment is not found in front of its first byte. -/
theorem find?_append_of_not_mem {front : Bytes} (h : c ∉ front) (rest : Bytes) :
    find? (c :: fragment) (front ++ rest) =
      (find? (c :: fragment) rest).map (· + front.length) := by
  induction front with
  | nil => simp
  | cons d front ih =>
    rw [List.mem_cons, not_or] at h
    have hfront : ¬ c :: fragment <+: d :: (front ++ rest) := fun hprefix =>
      h.1 (List.cons_prefix_cons.mp hprefix).1
    rw [List.cons_append, find?_cons_of_not_isPrefix hfront, ih h.2, Option.map_map]
    exact congrArg (Option.map · _) (funext fun n => by simp [Nat.add_assoc])

/-! ### Up to a byte -/

/-- A text goes on to its end if it lacks the byte to stop at. -/
theorem takeWhile_ne_of_not_mem (h : c ∉ s) : s.takeWhile (· != c) = s := by
  refine List.takeWhile_eq_self_iff.mpr fun d hd => ?_
  simp only [bne_iff_ne, ne_eq]
  rintro rfl
  exact h hd

/-- What is in front of the first byte to stop at. -/
theorem takeWhile_ne_append (h : c ∉ s) (rest : Bytes) :
    (s ++ c :: rest).takeWhile (· != c) = s := by
  have hstop : (c :: rest).takeWhile (· != c) = [] := List.takeWhile_cons_of_neg (by simp)
  rw [List.takeWhile_append, takeWhile_ne_of_not_mem h, if_pos rfl, hstop, List.append_nil]

end

end MiniJava.Bytes
