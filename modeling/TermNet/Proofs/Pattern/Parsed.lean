import TermNet.Proofs.Pattern.Over
import TermNet.Proofs.Pattern.ReadingBack
import TermNet.Proofs.Source.Operands

namespace TermNet

open Source

/-!
# What a pattern that is read is made of

* `PatternTerm.Parsed` — the names of a pattern are words that may stand in a path, and its
  operations are flat and in order;
* `PatternTerm.Parsed.build`, `PatternTerm.parsed_ofName`, `Wildcard.Parsed.withMinCount`, … — the
  steps of which reading consists.
-/

/-! ### What is known of a pattern that is read -/

/-- The name of the symbol may stand in a path. -/
def Symbol.Parsed (s : Symbol) : Prop := IsSegment s.name

/-- The name of the head may stand in a path, and does not make a wildcard of its arguments. -/
def Head.Parsed (head : Head) : Prop :=
  IsSegment head.name ∧ (head.kind = .plain → head.name ∉ ["Optional", "Sym", "Seq"])

/-- A term as it may stand in a pattern that is read. -/
def Term.Parsed (t : Term) : Prop := t.Over (· ≠ Int64.minValue) Symbol.Parsed Head.Parsed

/-- A wildcard as it may stand in a pattern that is read. -/
structure Wildcard.Parsed (w : Wildcard) : Prop where
  name_ne : w.name ≠ some ""
  word : IsWord w.word.toList
  underscore : w.isFixed = true → (w.name.getD "").toList.getLast? ≠ some '_'
  count : w.minCount ≤ PatternTerm.largestInteger
  default : ∀ t, w.default = some t → t.Parsed ∧ t.Canonical

/-- A pattern that is read, as far as its names and the order of its arguments go. -/
structure PatternTerm.Parsed (p : PatternTerm) : Prop where
  names : p.Over (· ≠ Int64.minValue) Symbol.Parsed Head.Parsed Wildcard.Parsed
  flattened : p.Flattened
  arranged : p.Arranged

namespace PatternTerm

/-- An integer may be any but the least one, which has no literal. -/
theorem Parsed.integer {value : Int64} (h : value ≠ Int64.minValue) : (integer value).Parsed :=
  ⟨.integer h, .atom _, .atom _⟩

/-- A symbol may have any name that may stand in a path. -/
theorem Parsed.symbol {s : Symbol} (h : IsSegment s.name) : (atom (.symbol s)).Parsed :=
  ⟨.symbol h, .atom _, .atom _⟩

/-- A tree that is one wildcard. -/
theorem Parsed.wildcard {w : Wildcard} (h : w.Parsed) : (wildcard w).Parsed :=
  ⟨.wildcard h, .wildcard _, .wildcard _⟩

/-- **Operations** on what is read. -/
theorem Parsed.build {head : Head} (h : head.Parsed) {args : List PatternTerm}
    (hargs : ∀ p ∈ args, p.Parsed) : (build head args).Parsed where
  names := .build h fun p hp => (hargs p hp).names
  flattened := .build head fun p hp => (hargs p hp).flattened
  arranged := .build head fun p hp => (hargs p hp).arranged

/-- A wildcard that is read among other trees. -/
theorem Parsed.of_wildcard {w : Wildcard} (h : (PatternTerm.wildcard w).Parsed) : w.Parsed := by
  cases h.names with
  | wildcard h => exact h

/-- No integer that is read is the least one. -/
theorem Parsed.ne_minValue {p : PatternTerm} (h : p.Parsed) {value : Int64}
    (hvalue : p.integer? = some value) : value ≠ Int64.minValue := by
  cases h.names with
  | integer hne =>
    cases hvalue
    exact hne
  | symbol hs => cases hvalue
  | wildcard hw => cases hvalue
  | node hhead hargs => cases hvalue

/-! ### Numbers, sums and products -/

/-- A literal without a sign is not the least integer. -/
theorem ofNat_ne_minValue {n : Nat} (h : n ≤ largestInteger) : Int64.ofNat n ≠ Int64.minValue := by
  intro heq
  have hvalue := congrArg Int64.toInt heq
  have hlt : n < 2 ^ 63 := by
    rw [largestInteger] at h
    omega
  rw [Int64.toInt_ofNat_of_lt hlt, Int64.toInt_minValue] at hvalue
  omega

/-- Negating an integer does not give the least one. -/
theorem neg_ne_minValue {value : Int64} (h : value ≠ Int64.minValue) : -value ≠ Int64.minValue := by
  intro heq
  have hvalue : value = - Int64.minValue := by rw [← heq, Int64.neg_neg]
  exact h (hvalue.trans (by decide))

/-- A product is built of its factors. -/
theorem parsed_product {args : List PatternTerm} (h : ∀ p ∈ args, p.Parsed) :
    (product args).Parsed :=
  .build ⟨by decide +kernel, by decide⟩ h

/-- A sum is built of its summands. -/
theorem parsed_sum {args : List PatternTerm} (h : ∀ p ∈ args, p.Parsed) : (sum args).Parsed :=
  .build ⟨by decide +kernel, by decide⟩ h

/-- Both operands of an operation. -/
theorem parsed_pair {p q : PatternTerm} (hp : p.Parsed) (hq : q.Parsed) : ∀ r ∈ [p, q], r.Parsed :=
  List.forall_mem_cons.mpr ⟨hp, List.forall_mem_singleton.mpr hq⟩

/-- A negative operand is a product with minus one. -/
theorem Parsed.negative {p : PatternTerm} (h : p.Parsed) :
    (product [PatternTerm.integer (-1), p]).Parsed :=
  parsed_product (parsed_pair (.integer (by decide)) h)

/-- **Negating** a literal changes its sign, and anything else becomes a product. -/
theorem Parsed.negate {p : PatternTerm} (h : p.Parsed) : p.negate.Parsed := by
  unfold PatternTerm.negate
  split
  · rename_i value hvalue
    exact .integer (neg_ne_minValue (h.ne_minValue hvalue))
  · exact h.negative

/-- **What the operators give:** sums, products, powers and differences. -/
theorem parsed_of_ofBinary {tokens : List Token} {operator : BinaryOperator} {l r p : PatternTerm}
    (hl : l.Parsed) (hr : r.Parsed) (h : ofBinary tokens operator l r = .ok p) : p.Parsed := by
  unfold ofBinary at h
  split at h <;> cases h
  · exact parsed_sum (parsed_pair hl hr)
  · exact parsed_sum (parsed_pair hl hr.negative)
  · exact parsed_product (parsed_pair hl hr)

/-! ### Names -/

/-- The text in front of the underscores of a wildcard is its name, or empty. -/
theorem getD_wildcardName? (cs : List Char) : (wildcardName? cs).getD "" = String.ofList cs := by
  unfold wildcardName?
  split
  · rename_i h
    rw [List.isEmpty_iff.mp h]
    rfl
  · rfl

/-- No wildcard has an empty name. -/
theorem wildcardName?_ne (cs : List Char) : wildcardName? cs ≠ some "" := by
  unfold wildcardName?
  cases cs <;> simp

/-- A wildcard for a run, whose name is in front of underscores. -/
theorem parsed_sequence {cs : List Char} {n : Nat}
    (hword : IsWord (Wildcard.sequence (wildcardName? cs) n).word.toList)
    (hn : n ≤ largestInteger) : (Wildcard.sequence (wildcardName? cs) n).Parsed where
  name_ne := wildcardName?_ne cs
  word := hword
  underscore hfixed := by cases hfixed
  count := hn
  default t ht := by cases ht

/-- A wildcard for one argument, whose name is in front of one underscore. -/
theorem parsed_fixed {cs : List Char}
    (hword : IsWord (Wildcard.fixed (wildcardName? cs)).word.toList)
    (hlast : cs.getLast? ≠ some '_') : (Wildcard.fixed (wildcardName? cs)).Parsed where
  name_ne := wildcardName?_ne cs
  word := hword
  underscore _ := by
    show ((wildcardName? cs).getD "").toList.getLast? ≠ some '_'
    rw [getD_wildcardName?, String.toList_ofList]
    exact hlast
  count := by
    show 1 ≤ largestInteger
    decide
  default t ht := by cases ht

/-- The underscore alone. -/
theorem parsed_blank : (wildcard (.fixed none)).Parsed :=
  .wildcard (@parsed_fixed [] (by decide +kernel) (by decide))

/-- **A name** is a symbol or a wildcard. -/
theorem parsed_ofName {name : String} (h : IsSegment name) : (ofName name).Parsed := by
  have hword := h.1
  rw [← List.reverse_reverse name.toList] at hword
  unfold ofName
  split
  · rename_i rest hrev
    rw [hrev] at hword
    refine .wildcard (parsed_sequence ?_ (Nat.zero_le _))
    simpa [Wildcard.sequence, Wildcard.word, getD_wildcardName?] using hword
  · rename_i rest hmore hrev
    rw [hrev] at hword
    refine .wildcard (parsed_sequence ?_ (by decide))
    simpa [Wildcard.sequence, Wildcard.word, getD_wildcardName?] using hword
  · rename_i rest hany hmore hrev
    rw [hrev] at hword
    refine .wildcard (parsed_fixed ?_ fun hlast => ?_)
    · simpa [Wildcard.fixed, Wildcard.word, getD_wildcardName?] using hword
    · -- one more underscore would have made it a sequence
      rw [List.getLast?_reverse] at hlast
      obtain ⟨more, rfl⟩ := List.head?_eq_some_iff.mp hlast
      exact hmore more rfl
  · exact .symbol h

/-- A path is a symbol or a wildcard, and its names are words. -/
theorem parsed_of_ofPath {tokens : List Token} {path : Path} {p : PatternTerm} (hpath : path.Sound)
    (h : ofPath tokens path = .ok p) : p.Parsed := by
  unfold ofPath at h
  split at h
  · rename_i name hnames
    cases h
    exact parsed_ofName (hpath name (by rw [hnames]; simp))
  · rename_i kind name hnames
    split at h
    · cases h
      exact .symbol (hpath name (by rw [hnames]; simp))
    · cases h
  · cases h

end PatternTerm

/-! ### Wildcards -/

namespace Wildcard

variable {w : Wildcard}

/-- A wildcard may get a default that has been read. -/
theorem Parsed.withDefault (h : w.Parsed) {t : Term} (ht : t.Parsed) (hcanonical : t.Canonical) :
    (w.withDefault t).Parsed where
  name_ne := h.name_ne
  word := h.word
  underscore := h.underscore
  count := h.count
  default s hs := by
    cases hs
    exact ⟨ht, hcanonical⟩

/-- A wildcard of a fixed number of arguments takes one. -/
theorem exists_of_isFixed (h : w.isFixed = true) : ∃ kind, w.extent = .one kind := by
  unfold isFixed at h
  split at h
  · exact ⟨_, ‹_›⟩
  · cases h

/-- Any other wildcard takes a run. -/
theorem exists_of_not_isFixed (h : ¬ w.isFixed = true) : ∃ n, w.extent = .run n := by
  unfold isFixed at h
  split at h
  · exact absurd rfl h
  · exact ⟨_, ‹_›⟩

/-- A fixed wildcard may take symbols of any kind. -/
theorem Parsed.one (h : w.Parsed) (hfixed : w.isFixed = true) (kind : Option SymbolKind) :
    Parsed { w with extent := .one kind } where
  name_ne := h.name_ne
  word := by
    have hword := h.word
    obtain ⟨before, hextent⟩ := exists_of_isFixed hfixed
    rw [Wildcard.word, hextent] at hword
    exact hword
  underscore _ := h.underscore hfixed
  count := by
    show 1 ≤ PatternTerm.largestInteger
    decide
  default := h.default

/-- A wildcard may be restricted to a kind of symbols. -/
theorem Parsed.withSymbolKind (h : w.Parsed) {kind : SymbolKind} {restricted : Wildcard}
    (hrestricted : w.withSymbolKind kind = .ok restricted) : restricted.Parsed := by
  unfold Wildcard.withSymbolKind at hrestricted
  split at hrestricted
  · cases hrestricted
    exact h.one ‹_› _
  · cases hrestricted

/-- The words of runs differ in an underscore. -/
theorem Parsed.run (h : w.Parsed) {m n : Nat} (hextent : w.extent = .run m)
    (hn : n ≤ PatternTerm.largestInteger) : Parsed { w with extent := .run n } where
  name_ne := h.name_ne
  word := by
    have hword := h.word
    have hlonger : (w.name.getD "").toList ++ ['_', '_', '_'] =
        ((w.name.getD "").toList ++ ['_', '_']) ++ ['_'] := by simp
    rw [Wildcard.word, hextent] at hword
    -- the number of underscores may change, but the words do so together
    have hboth : IsWord ((w.name.getD "").toList ++ ['_', '_']) ∧
        IsWord ((w.name.getD "").toList ++ ['_', '_', '_']) := by
      cases m with
      | zero =>
        have hany : IsWord ((w.name.getD "").toList ++ ['_', '_', '_']) := by simpa using hword
        exact ⟨isWord_of_underscores hany, hany⟩
      | succ m =>
        have hsome : IsWord ((w.name.getD "").toList ++ ['_', '_']) := by simpa using hword
        exact ⟨hsome, hlonger ▸ hsome.append_underscore⟩
    cases n with
    | zero => simpa [Wildcard.word] using hboth.2
    | succ n => simpa [Wildcard.word] using hboth.1
  underscore := nofun
  count := hn
  default := h.default

/-- **A wildcard may get another least number of arguments,** which is not negative. -/
theorem Parsed.withMinCount (h : w.Parsed) {count : Int64} {counted : Wildcard}
    (hcounted : w.withMinCount count.toInt = .ok counted) : counted.Parsed := by
  unfold Wildcard.withMinCount make at hcounted
  split at hcounted
  · cases hcounted
  split at hcounted
  · split at hcounted
    · cases hcounted
      exact h.one ‹_› _
    · cases hcounted
  · rename_i hfixed
    split at hcounted
    · cases hcounted
    · cases hcounted
      obtain ⟨n, hextent⟩ := exists_of_not_isFixed hfixed
      have hlt := count.toInt_lt
      refine h.run hextent ?_
      rw [PatternTerm.largestInteger]
      omega

end Wildcard

end TermNet
