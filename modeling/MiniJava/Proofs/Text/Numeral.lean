import Mathlib.Data.Nat.Init
import MiniJava.Assembly.Operand

/-!
# Numbers that are written and read back

* **`natural_eq`** — the digits of a number are those of its tenth and one more.
* **`length_natural_le`** — how many digits a number has at most.
* **`Integer.plain?_natural`** — a number below 2^63 in base ten is read as what it is.
* **`Immediate.read?_decimal`** — a 32-bit number in base ten is read as what it is;
  `Immediate.of_read?_decimal`: no number is read as another one.
-/

namespace MiniJava

/-! ### Digits -/

theorem digitsOnto_append (base fuel n : Nat) (acc : Bytes) :
    digitsOnto base fuel n acc = digitsOnto base fuel n [] ++ acc := by
  induction fuel generalizing n acc with
  | zero => rfl
  | succ fuel ih =>
    simp only [digitsOnto]
    split
    · rfl
    · rw [ih _ (_ :: acc), ih _ [_], List.append_assoc]
      rfl

/-- More fuel than the number needs changes nothing. -/
theorem digitsOnto_fuel {base : Nat} (hbase : 1 < base) {fuel fuel' n : Nat} (acc : Bytes)
    (h : n < fuel) (h' : n < fuel') : digitsOnto base fuel n acc = digitsOnto base fuel' n acc := by
  induction fuel generalizing fuel' n acc with
  | zero => omega
  | succ fuel ih =>
    obtain ⟨fuel', rfl⟩ : ∃ k, fuel' = k + 1 := ⟨fuel' - 1, by omega⟩
    simp only [digitsOnto]
    split
    · rfl
    · rename_i hdiv
      have hlt : n / base < n := Nat.div_lt_self (by
        rcases Nat.eq_zero_or_pos n with rfl | hn
        · simp at hdiv
        · exact hn) hbase
      exact ih _ (by omega) (by omega)

/-- The digits of a number are those of its tenth, and one more. -/
theorem natural_eq (n : Nat) :
    natural n = (if n < 10 then [] else natural (n / 10)) ++ [digitByte (n % 10)] := by
  have hstep : natural n = if n / 10 = 0 then [digitByte (n % 10)]
      else digitsOnto 10 n (n / 10) [digitByte (n % 10)] := rfl
  rw [hstep]
  by_cases hn : n < 10
  · rw [if_pos (by omega), if_pos hn, List.nil_append]
  · have hfuel : digitsOnto 10 n (n / 10) [] = natural (n / 10) :=
      digitsOnto_fuel (by decide) [] (by omega) (by omega)
    rw [if_neg (by omega), if_neg hn, digitsOnto_append, hfuel]

theorem natural_ne_nil (n : Nat) : natural n ≠ [] := by
  rw [natural_eq]
  simp

theorem toNat_digitByte {d : Nat} (h : d < 10) : (digitByte d).toNat = 48 + d := by
  rw [digitByte, if_pos h, UInt8.toNat_ofNat']
  omega

theorem isDigit_digitByte {d : Nat} (h : d < 10) : isDigit (digitByte d) := by
  have hd := toNat_digitByte h
  simp only [isDigit, Bool.and_eq_true, decide_eq_true_eq, UInt8.le_iff_toNat_le, hd]
  exact ⟨by simp, by simp; omega⟩

/-- A number is written in digits only. -/
theorem isDigit_of_mem_natural {n : Nat} {c : UInt8} (h : c ∈ natural n) : isDigit c := by
  induction n using Nat.strong_induction_on with
  | _ n ih =>
    rw [natural_eq, List.mem_append, List.mem_singleton] at h
    rcases h with hfront | rfl
    · split at hfront
      · cases hfront
      · exact ih _ (by omega) hfront
    · exact isDigit_digitByte (Nat.mod_lt _ (by decide))

/-- A number other than zero does not start with a zero. -/
theorem head?_natural {n : Nat} (h : n ≠ 0) : (natural n).head? ≠ some '0'.toUInt8 := by
  induction n using Nat.strong_induction_on with
  | _ n ih =>
    rw [natural_eq]
    by_cases hn : n < 10
    · rw [if_pos hn]
      simp only [List.nil_append, List.head?_cons, ne_eq, Option.some.injEq]
      intro heq
      have hd := congrArg UInt8.toNat heq
      rw [toNat_digitByte (Nat.mod_lt _ (by decide))] at hd
      have hzero : ('0'.toUInt8).toNat = 48 := rfl
      omega
    · have htenth := ih (n / 10) (by omega) (by omega)
      obtain ⟨c, ds, hc⟩ := List.exists_cons_of_ne_nil (natural_ne_nil (n / 10))
      rw [hc] at htenth
      rw [if_neg hn, hc]
      exact htenth

theorem length_natural_le {k n : Nat} (h : n < Nat.pow 10 (k + 1)) : (natural n).length ≤ k + 1 := by
  induction k generalizing n with
  | zero =>
    have hn : n < 10 := h
    rw [natural_eq, if_pos hn]
    simp
  | succ k ih =>
    rw [natural_eq]
    split
    · simp
    · have hdiv : n / 10 < Nat.pow 10 (k + 1) := by
        rw [Nat.div_lt_iff_lt_mul (by decide)]
        exact h
      have hlen := ih hdiv
      simp only [List.length_append, List.length_singleton]
      omega

/-- Different numbers are written differently. -/
theorem natural_injective {m n : Nat} (h : natural m = natural n) : m = n := by
  induction m using Nat.strong_induction_on generalizing n with
  | _ m ih =>
    rw [natural_eq m, natural_eq n] at h
    obtain ⟨hfront, hlast⟩ := List.append_inj' h rfl
    have hdigit : m % 10 = n % 10 := by
      have hd := congrArg UInt8.toNat (List.cons.inj hlast).1
      rw [toNat_digitByte (Nat.mod_lt _ (by decide)),
        toNat_digitByte (Nat.mod_lt _ (by decide))] at hd
      omega
    by_cases hm : m < 10 <;> by_cases hn : n < 10
    · omega
    · rw [if_pos hm, if_neg hn] at hfront
      exact absurd hfront.symm (natural_ne_nil _)
    · rw [if_neg hm, if_pos hn] at hfront
      exact absurd hfront (natural_ne_nil _)
    · rw [if_neg hm, if_neg hn] at hfront
      have := ih (m / 10) (by omega) hfront
      omega

/-! ### Reading -/

namespace Integer

theorem digitValue?_digitByte {d : Nat} (h : d < 10) : digitValue? (digitByte d) = some d := by
  rw [digitValue?, if_pos (isDigit_digitByte h), toNat_digitByte h]
  simp

theorem not_underscore_of_isDigit {c : UInt8} (h : isDigit c) : (c == '_'.toUInt8) = false := by
  rw [beq_eq_false_iff_ne]
  rintro rfl
  exact absurd h (by decide)

/-- One more digit at the end. -/
theorem magnitude_append_digit {gaps : Bool} {ds : Bytes} {acc v d : Nat} (hd : d < 10)
    (hv : magnitude 10 gaps acc ds = .ok v) (hfit : v * 10 + d ≤ wordMax) :
    magnitude 10 gaps acc (ds ++ [digitByte d]) = .ok (v * 10 + d) := by
  have hgap := not_underscore_of_isDigit (isDigit_digitByte hd)
  induction ds generalizing acc with
  | nil =>
    obtain rfl : acc = v := by simpa [magnitude] using hv
    simp only [List.nil_append, magnitude, hgap, Bool.and_false, Bool.false_eq_true, if_false,
      digitValue?_digitByte hd]
    rw [if_neg (by omega), if_neg (by omega)]
  | cons c ds ih =>
    simp only [List.cons_append, magnitude] at hv ⊢
    split
    · rename_i hc
      rw [if_pos hc] at hv
      exact ih hv
    · rename_i hc
      rw [if_neg hc] at hv
      cases hdigit : digitValue? c with
      | none => rw [hdigit] at hv; cases hv
      | some e =>
        rw [hdigit] at hv
        simp only at hv ⊢
        split at hv
        · cases hv
        split at hv
        · cases hv
        rename_i hbase hword
        rw [if_neg hbase, if_neg hword]
        exact ih hv

/-- Digits that are read were read up to the last of them. -/
theorem of_magnitude_append_digit {gaps : Bool} {ds : Bytes} {acc v d : Nat} (hd : d < 10)
    (h : magnitude 10 gaps acc (ds ++ [digitByte d]) = .ok v) :
    ∃ u, magnitude 10 gaps acc ds = .ok u ∧ v = u * 10 + d := by
  have hgap := not_underscore_of_isDigit (isDigit_digitByte hd)
  induction ds generalizing acc with
  | nil =>
    simp only [List.nil_append, magnitude, hgap, Bool.and_false, Bool.false_eq_true, if_false,
      digitValue?_digitByte hd] at h
    rw [if_neg (by omega)] at h
    split at h
    · cases h
    · exact ⟨acc, rfl, (Except.ok.inj h).symm⟩
  | cons c ds ih =>
    simp only [List.cons_append, magnitude] at h ⊢
    split at h
    · rename_i hc
      rw [if_pos hc]
      exact ih h
    · rename_i hc
      rw [if_neg hc]
      cases hdigit : digitValue? c with
      | none =>
        rw [hdigit] at h
        cases h
      | some e =>
        rw [hdigit] at h
        simp only at h ⊢
        split at h
        · cases h
        split at h
        · cases h
        rename_i hbase hword
        rw [if_neg hbase, if_neg hword]
        exact ih h

/-- A number is read as what it is or not at all. -/
theorem eq_of_magnitude_natural {gaps : Bool} {n v : Nat}
    (h : magnitude 10 gaps 0 (natural n) = .ok v) : v = n := by
  induction n using Nat.strong_induction_on generalizing v with
  | _ n ih =>
    rw [natural_eq] at h
    obtain ⟨u, hu, rfl⟩ := of_magnitude_append_digit (Nat.mod_lt _ (by decide)) h
    by_cases hn : n < 10
    · rw [if_pos hn] at hu
      obtain rfl : 0 = u := Except.ok.inj hu
      omega
    · rw [if_neg hn] at hu
      have hfront := ih (n / 10) (by omega) hu
      omega

theorem magnitude_natural {gaps : Bool} {n : Nat} (h : n ≤ wordMax) :
    magnitude 10 gaps 0 (natural n) = .ok n := by
  induction n using Nat.strong_induction_on with
  | _ n ih =>
    have hsum : n / 10 * 10 + n % 10 = n := by omega
    rw [natural_eq]
    by_cases hn : n < 10
    · rw [if_pos hn, magnitude_append_digit (v := 0) (Nat.mod_lt _ (by decide)) rfl (by omega)]
      exact congrArg Except.ok (by omega)
    · rw [if_neg hn, magnitude_append_digit (v := n / 10) (Nat.mod_lt _ (by decide))
        (ih _ (by omega) (by omega)) (by omega), hsum]

theorem gapsAreInner_of_isDigit {ds : Bytes} (h : ∀ c ∈ ds, isDigit c) (after : Bool) :
    gapsAreInner after ds = true := by
  induction ds generalizing after with
  | nil => rfl
  | cons c ds ih =>
    rw [List.forall_mem_cons] at h
    simp only [gapsAreInner, not_underscore_of_isDigit h.1, Bool.false_eq_true, if_false]
    exact ih h.2 true

/-- A number other than zero announces no base. -/
theorem announcedBase_natural {n : Nat} (h : n ≠ 0) :
    announcedBase (natural n) = (10, natural n, false) := by
  have hhead := head?_natural h
  generalize natural n = ds at hhead
  rcases ds with _ | ⟨z, ds⟩
  · rfl
  have hz : (z == '0'.toUInt8) = false := by
    rw [beq_eq_false_iff_ne]
    rintro rfl
    exact hhead rfl
  rcases ds with _ | ⟨mark, _ | ⟨d, ds⟩⟩ <;> simp [announcedBase, hz]

theorem sign_natural (n : Nat) : sign (natural n) = (false, natural n) := by
  obtain ⟨c, ds, hc⟩ := List.exists_cons_of_ne_nil (natural_ne_nil n)
  have hdigit := isDigit_of_mem_natural (n := n) (c := c) (by simp [hc])
  have hminus : (c == '-'.toUInt8) = false := by
    rw [beq_eq_false_iff_ne]; rintro rfl; exact absurd hdigit (by decide)
  have hplus : (c == '+'.toUInt8) = false := by
    rw [beq_eq_false_iff_ne]; rintro rfl; exact absurd hdigit (by decide)
  simp [hc, sign, hminus, hplus]

/-- A number other than zero is read as its digits say, with the sign in front of them. -/
theorem literal_of_sign {s : Bytes} {negative : Bool} {n : Nat} (hn : n ≠ 0)
    (hsign : sign s = (negative, natural n)) :
    literal s = (magnitude 10 true 0 (natural n)).bind (signed negative) := by
  have hempty : (natural n).isEmpty = false := by simp [natural_ne_nil]
  have hgaps : gapsAreInner false (natural n) = true :=
    gapsAreInner_of_isDigit (fun c hc => isDigit_of_mem_natural hc) false
  simp only [literal, hsign, hempty, announcedBase_natural hn]
  simp [hgaps, bind]

/-- A number without a sign in front, read as a literal. -/
theorem literal_natural {n : Nat} (h : n < 0x8000000000000000) :
    literal (natural n) = .ok (n : Int) := by
  by_cases hn : n = 0
  · subst hn
    rfl
  have hmagnitude : magnitude 10 true 0 (natural n) = .ok n :=
    magnitude_natural (by simp only [wordMax]; omega)
  rw [literal_of_sign hn (sign_natural n), hmagnitude]
  exact if_pos h

/-- A number with a minus sign in front, read as a literal. -/
theorem literal_minus_natural {n : Nat} (hn : n ≠ 0) (h : n ≤ 0x8000000000000000) :
    literal ('-'.toUInt8 :: natural n) = .ok (-(n : Int)) := by
  have hmagnitude : magnitude 10 true 0 (natural n) = .ok n :=
    magnitude_natural (by simp only [wordMax]; omega)
  rw [literal_of_sign hn rfl, hmagnitude]
  exact if_pos h

theorem literal_decimal {n : Int} (hlow : -0x8000000000000000 ≤ n) (hhigh : n < 0x8000000000000000) :
    literal (decimal n) = .ok n := by
  cases n with
  | ofNat n => exact literal_natural (by simp only [Int.ofNat_eq_natCast] at hhigh; omega)
  | negSucc n =>
    rw [decimal, literal_minus_natural (by omega) (by omega)]
    rfl

/-- A number below 2^63, read in base ten. -/
theorem plain?_natural {n : Nat} (h : n < 0x8000000000000000) :
    plain? (natural n) = some (n : Int) := by
  have hempty : (natural n).isEmpty = false := by simp [natural_ne_nil]
  have hmagnitude : magnitude 10 false 0 (natural n) = .ok n :=
    magnitude_natural (by simp only [wordMax]; omega)
  have hread : plain (natural n) = .ok (n : Int) := by
    simp only [plain, sign_natural, hempty, hmagnitude]
    exact if_pos h
  rw [plain?, hread]
  rfl

/-- A number in base ten is read as what it is or not at all. -/
theorem eq_of_literal_decimal {n v : Int} (h : literal (decimal n) = .ok v) : v = n := by
  by_cases hzero : n = 0
  · subst hzero
    exact (Except.ok.inj h).symm
  cases n with
  | ofNat n =>
    rw [decimal, literal_of_sign (by rintro rfl; exact hzero rfl) (sign_natural n)] at h
    cases hm : magnitude 10 true 0 (natural n) with
    | error e =>
      rw [hm] at h
      cases h
    | ok u =>
      obtain rfl := eq_of_magnitude_natural hm
      rw [hm] at h
      simp only [Except.bind, signed, Bool.false_eq_true, if_false] at h
      split at h
      · exact (Except.ok.inj h).symm
      · cases h
  | negSucc n =>
    rw [decimal, literal_of_sign (Nat.succ_ne_zero n) rfl] at h
    cases hm : magnitude 10 true 0 (natural (n + 1)) with
    | error e =>
      rw [hm] at h
      cases h
    | ok u =>
      obtain rfl := eq_of_magnitude_natural hm
      rw [hm] at h
      simp only [Except.bind, signed, if_true] at h
      split at h
      · exact (Except.ok.inj h).symm
      · cases h

end Integer

/-- A signed 32-bit number in base ten is read as what it is. -/
theorem Immediate.read?_decimal {n : Int} (hlow : -0x80000000 ≤ n) (hhigh : n < 0x80000000) :
    Immediate.read? (decimal n) = some n := by
  rw [read?, read, Integer.literal_decimal (by omega) (by omega)]
  simp only [toSigned]
  rw [if_pos (by omega), if_neg (by omega)]
  rfl

/-- A number in base ten is read as the signed number of its 32 bits, if it has no more. -/
theorem Immediate.of_read?_decimal {n v : Int} (h : Immediate.read? (decimal n) = some v) :
    (-0x80000000 ≤ n ∧ n < 0x100000000) ∧ v = Immediate.toSigned n := by
  unfold read? read at h
  cases hl : Integer.literal (decimal n) with
  | error e =>
    rw [hl] at h
    cases h
  | ok m =>
    obtain rfl := Integer.eq_of_literal_decimal hl
    rw [hl] at h
    simp only at h
    split at h
    · rename_i hrange
      exact ⟨hrange, (Option.some.inj h).symm⟩
    · cases h

end MiniJava
