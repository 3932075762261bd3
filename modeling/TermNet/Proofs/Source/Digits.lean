import Mathlib.Data.Nat.Digits.Defs
import TermNet.Source.Number
import TermNet.Proofs.Source.Words

namespace TermNet.Source

open TermNet.Text

/-!
# Numbers as they are printed

* `scanNumber?_digits` — digits are scanned as a number where a separator follows;
* `scanNumber?_eq_none` — only what begins with a digit is a number;
* `wholeNumber?_toString` — the value of a printed number is read back.
-/

/-- The value of a decimal digit is read off its character. -/
theorem digitValue?_of_isDigit {c : Char} (h : c.isDigit = true) :
    digitValue? c = some (c.toNat - 48) := by
  have hrange : '0' ≤ c ∧ c ≤ '9' := by simpa [Char.isDigit, Char.le_def] using h
  rw [digitValue?, if_pos (by simpa using hrange)]
  rfl

/-- The value of a decimal digit is less than ten. -/
theorem digit_lt_ten {c : Char} (h : c.isDigit = true) : c.toNat - 48 < 10 := by
  simp only [Char.isDigit, Bool.and_eq_true, decide_eq_true_eq, ge_iff_le,
    UInt32.le_iff_toNat_le] at h
  have hle : c.toNat ≤ 57 := h.2
  omega

/-- A digit whose value is less than ten is a decimal one. -/
theorem isDigit_of_digitValue?_lt {c : Char} {value : Nat} (h : digitValue? c = some value)
    (hlt : value < 10) : c.isDigit = true := by
  unfold digitValue? at h
  split at h
  · rename_i hrange
    simpa [Char.isDigit, Char.le_def] using hrange
  · split at h
    · have := Option.some.inj h
      omega
    · split at h
      · have := Option.some.inj h
        omega
      · cases h

/-! ### Scanning -/

/-- What stands behind a number does not go on with it. -/
theorem not_digit_of_separator : ∀ c ∈ separators, isDigitOrGap c = false ∧ c.isDigit = false ∧
    digitValue? c = none ∧ isIdentifierStart c = false ∧ c ≠ '.' ∧ c ≠ 'e' ∧ c ≠ 'E' ∧ c ≠ '_' :=
  List.all_iff_forall_prop.mp (by decide)

/-- Decimal digits have no mark of another base in front. -/
theorem numberBase_digits {ds rest : List Char} (hds : ∀ c ∈ ds, c.isDigit = true)
    (hne : ds ≠ []) (hrest : Separated rest) : numberBase (ds ++ rest) = (10, [], ds ++ rest) := by
  -- the letters of a base are no digits, and no separators
  have hsecond : ∀ c ∈ ['x', 'o', 'b'], c.isDigit = false ∧ c ∉ separators :=
    List.all_iff_forall_prop.mp (by decide)
  have hnot : ∀ c more, ds ++ rest = '0' :: c :: more → c ∉ ['x', 'o', 'b'] := by
    intro c more heq hc
    match ds, hne with
    | [d], _ =>
      have htail : rest = c :: more := by simpa using (List.cons.inj heq).2
      exact (hsecond c hc).2 (hrest c (by rw [htail]; rfl))
    | d :: d' :: ds, _ =>
      have hd := hds d' (by simp)
      rw [(List.cons.inj (List.cons.inj heq).2).1, (hsecond c hc).1] at hd
      cases hd
  unfold numberBase
  split
  · rename_i more heq
    exact absurd (by simp) (hnot 'x' more heq)
  · rename_i more heq
    exact absurd (by simp) (hnot 'o' more heq)
  · rename_i more heq
    exact absurd (by simp) (hnot 'b' more heq)
  · rfl

/-- Decimal digits are scanned up to a separator. -/
theorem scanDigits?_digits {ds rest : List Char} (hds : ∀ c ∈ ds, c.isDigit = true)
    (hrest : Separated rest) (empty : Bool) (hne : empty = true → ds ≠ []) :
    scanDigits? 10 empty (ds ++ rest) = some (ds, rest) := by
  induction ds generalizing empty with
  | nil =>
    have hfull : empty = false := by
      cases empty with
      | false => rfl
      | true => exact absurd rfl (hne rfl)
    cases rest with
    | nil => rw [hfull]; rfl
    | cons c rest =>
      obtain ⟨-, -, hvalue, -, -, -, -, hgap⟩ := not_digit_of_separator c (hrest c rfl)
      simp [scanDigits?, hfull, hvalue, hgap]
  | cons c ds ih =>
    have hc := hds c List.mem_cons_self
    have hgap : c ≠ '_' := by
      rintro rfl
      exact absurd hc (by decide)
    have hmore := ih (fun d hd => hds d (List.mem_cons_of_mem c hd)) false nofun
    rw [List.cons_append, scanDigits?]
    simp [hgap, digitValue?_of_isDigit hc, digit_lt_ten hc, hmore]

/-- Decimal digits are the digits of a whole number. -/
theorem scanWholeDigits?_digits {ds rest : List Char} (hds : ∀ c ∈ ds, c.isDigit = true)
    (hne : ds ≠ []) (hrest : Separated rest) : scanWholeDigits? (ds ++ rest) = some (ds, rest) := by
  rw [scanWholeDigits?, numberBase_digits hds hne hrest]
  simp [scanDigits?_digits hds hrest true fun _ => hne]

/-- Decimal digits with a separator behind them are no number with a point. -/
theorem scanFloatDigits?_digits {ds rest : List Char} (hds : ∀ c ∈ ds, c.isDigit = true)
    (hrest : Separated rest) : scanFloatDigits? (ds ++ rest) = none := by
  have htail : ∀ whole, scanFloatTail? false whole rest = none := by
    intro whole
    cases rest with
    | nil => rfl
    | cons c rest =>
      obtain ⟨-, -, -, -, -, hlower, hupper, -⟩ := not_digit_of_separator c (hrest c rfl)
      simp [scanFloatTail?, hlower, hupper]
  cases ds with
  | nil =>
    cases rest with
    | nil => rfl
    | cons c rest =>
      obtain ⟨-, hdigit, -⟩ := not_digit_of_separator c (hrest c rfl)
      simp [scanFloatDigits?, hdigit]
  | cons d ds =>
    -- The digits end at the separator, which is neither a point nor an exponent.
    have hgaps : ∀ c ∈ ds, isDigitOrGap c = true := fun c hc => by
      rw [isDigitOrGap, hds c (List.mem_cons_of_mem d hc), Bool.true_or]
    have hdrop : rest.dropWhile isDigitOrGap = rest := by
      cases rest with
      | nil => rfl
      | cons c rest =>
        simp [(not_digit_of_separator c (hrest c rfl)).1]
    rw [List.cons_append, scanFloatDigits?, if_pos (hds d List.mem_cons_self)]
    dsimp only
    rw [List.dropWhile_append_of_pos hgaps, hdrop]
    split
    · exact absurd (hrest '.' rfl) (by decide)
    · exact htail _

/-- **Digits are scanned as a number** where a separator follows. -/
theorem scanNumber?_digits {ds rest : List Char} (hds : ∀ c ∈ ds, c.isDigit = true)
    (hne : ds ≠ []) (hrest : Separated rest) : scanNumber? (ds ++ rest) = some (ds, rest) := by
  have hsuffix : withSuffix ds rest = (ds, rest) := by
    cases rest with
    | nil => rfl
    | cons c rest =>
      obtain ⟨-, -, -, hstart, -⟩ := not_digit_of_separator c (hrest c rfl)
      simp [withSuffix, scanPlainWord?, hstart]
  have hend : rest.head?.any isIdentifierRest = false := by
    cases rest with
    | nil => rfl
    | cons c rest => exact (not_mem_literalChars_of_separator c (hrest c rfl)).1
  simp [scanNumber?, scanNumberWith?, scanFloatDigits?_digits hds hrest,
    scanWholeDigits?_digits hds hne hrest, hsuffix, hend]

/-- Only what begins with a digit is a number. -/
theorem scanNumber?_eq_none {c : Char} (h : c.isDigit = false) (rest : List Char) :
    scanNumber? (c :: rest) = none := by
  have hzero : c ≠ '0' := by
    rintro rfl
    exact absurd h (by decide)
  have hbase : numberBase (c :: rest) = (10, [], c :: rest) := by
    unfold numberBase
    split <;> first | rfl | (rename_i heq; exact absurd (List.cons.inj heq).1 hzero)
  have hdigits : scanDigits? 10 true (c :: rest) = none := by
    rw [scanDigits?]
    -- A number may not begin with an underscore.
    by_cases hgap : c = '_'
    · simp [hgap]
    · simp only [hgap, if_false]
      split
      · rename_i value hvalue
        have hlarge : ¬ value < 10 := fun hlt => by
          rw [isDigit_of_digitValue?_lt hvalue hlt] at h
          cases h
        simp [hlarge, h]
      · rfl
  simp [scanNumber?, scanNumberWith?, scanFloatDigits?, scanWholeDigits?, hbase, hdigits, h]

/-! ### Values -/

/-- The value of decimal digits is read, with nothing left that could be a suffix. -/
theorem ofDigits?_digits {ds : List Char} (hds : ∀ c ∈ ds, c.isDigit = true) (value : Nat)
    (digits : Bool) (hne : digits = false → ds ≠ []) :
    WholeNumber.ofDigits? 10 value digits ds = some ⟨Nat.ofDigitChars 10 ds value, []⟩ := by
  induction ds generalizing value digits with
  | nil =>
    cases digits with
    | true => rfl
    | false => exact absurd rfl (hne rfl)
  | cons c ds ih =>
    have hc := hds c List.mem_cons_self
    have hgap : c ≠ '_' ∧ c ≠ 'e' ∧ c ≠ 'E' := by
      refine ⟨?_, ?_, ?_⟩ <;> (rintro rfl; exact absurd hc (by decide))
    have hmore := ih (fun d hd => hds d (List.mem_cons_of_mem c hd)) (value * 10 + (c.toNat - 48))
      true nofun
    rw [WholeNumber.ofDigits?, Nat.ofDigitChars_cons]
    simp [hgap, digitValue?_of_isDigit hc, digit_lt_ten hc, hmore, Nat.mul_comm]

/-- **The value of a printed number** is read back. -/
theorem wholeNumber?_toString (n : Nat) : wholeNumber? (toString n) = some n := by
  have hds : ∀ c ∈ Nat.toDigits 10 n, c.isDigit = true := fun c hc =>
    Nat.isDigit_of_mem_toDigits (by decide) (by decide) hc
  have hbase := numberBase_digits hds Nat.toDigits_ne_nil separated_nil
  rw [List.append_nil] at hbase
  have hhead : (Nat.toDigits 10 n).head?.any Char.isDigit = true := by
    cases hdigits : Nat.toDigits 10 n with
    | nil => exact absurd hdigits Nat.toDigits_ne_nil
    | cons c rest => exact hds c (hdigits ▸ List.mem_cons_self)
  have htext : (toString n).toList = Nat.toDigits 10 n := by simp
  rw [wholeNumber?, WholeNumber.ofLiteral?, htext, hbase]
  simp [hhead, ofDigits?_digits hds 0 false fun _ => Nat.toDigits_ne_nil]

end TermNet.Source
