import TermNet.Proofs.Pattern.Called
import TermNet.Proofs.Pattern.Over
import TermNet.Proofs.Pattern.ReadingBack

namespace TermNet

open Source

/-!
# Printed terms and patterns parse back

Sums and products are printed infix, with parentheses where reading would regroup them; everything
else is printed as a call.  A text is read as the canonical form of the term that it shows, so the
text of a canonical term is read as that term.

* `Term.Readable.canonical` — canonical forms of readable terms are readable;
* `printed_terms_parse_back` — reading the text of a canonical term gives the term, and the text
  tells it from every other one.

What cannot be read back is the least integer, whose amount is too large for an integer without
its sign, and names that stand for something else: a plain symbol with an underscore at its end is
read as a wildcard, and calls of `Optional`, `Sym` and `Seq` make wildcards of their arguments.

A pattern that is read has names that are words, flat operations, and their arguments in order.
What its text may still lose is what a name stands for, because plain names are printed without
their kind and every wildcard as a word with underscores.

* `PatternTerm.Faithful` — trees in whose texts every name is seen for what it is;
* `PatternTerm.Parsed.readable` — faithful patterns that are read may be read again;
* `printed_patterns_parse_back` — reading the text of such a pattern gives the pattern;
* `underscores_are_lost` — patterns that are read, and not from their own texts.
-/

namespace Term

/-- A term is readable if its integers, symbols and heads are. -/
theorem readable_iff_over {t : Term} :
    t.Readable ↔ t.Over (· ≠ Int64.minValue) Symbol.Readable Head.Readable := by
  constructor
  · intro h
    induction h with
    | integer h => exact .integer h
    | symbol h => exact .symbol h
    | node h _ ih => exact .node h ih
  · intro h
    induction h with
    | integer h => exact .integer h
    | symbol h => exact .symbol h
    | node h _ ih => exact .node h ih

/-- Operations of readable terms are readable. -/
theorem Readable.build {head : Head} (h : head.Readable) {args : List Term}
    (hargs : ∀ t ∈ args, Readable t) : (build head args).Readable :=
  readable_iff_over.mpr (.build h fun t ht => readable_iff_over.mp (hargs t ht))

/-- The canonical form of a readable term is readable. -/
theorem Readable.canonical {t : Term} (h : t.Readable) : t.canonical.Readable := by
  induction h with
  | integer h => exact .integer h
  | symbol h => exact .symbol h
  | node h hargs ih =>
    rw [canonical_node]
    refine .build h fun s hs => ?_
    obtain ⟨t, ht, rfl⟩ := List.mem_map.mp hs
    exact ih t ht

end Term

/-- **Printed terms parse back:** the text of a canonical term is read as that term, if its names
    are words that are read as what they are.  So no other such term has the same text. -/
theorem printed_terms_parse_back {t : Term} (hcanonical : t.Canonical) (hreadable : t.Readable) :
    Term.parse t.text = .ok t ∧
      ∀ s : Term, s.Canonical → s.Readable → s.text = t.text → s = t := by
  have hparse : ∀ s : Term, s.Canonical → s.Readable → Term.parse s.text = .ok s := by
    intro s hs hreadable
    rw [hreadable.parse_text, hs.canonical_eq_self]
  refine ⟨hparse t hcanonical hreadable, fun s hs hsreadable htext => ?_⟩
  have hs := hparse s hs hsreadable
  rw [htext, hparse t hcanonical hreadable] at hs
  exact (Except.ok.inj hs).symm

/-- Sums in products, products in sums, a negative factor, sums of fewer than two summands, and
    names with a kind in front. -/
theorem printed_terms_parse_back_nested :
    let t := (Term.node .sum [
      .node .product [.integer (-2), .symbol ⟨"x", .plain⟩,
        .node .sum [.symbol ⟨"d", .dummy⟩, .integer 3]],
      .node ⟨"g", .associativeCommutative⟩ [.node .sum [], .node .product [.integer 5]]]).canonical
    t.Canonical ∧ t.Readable ∧ Term.parse t.text = .ok t := by
  intro t
  have hreadable : t.Readable := by
    have hsum : Head.sum.Readable := by decide +kernel
    have hproduct : Head.product.Readable := by decide +kernel
    refine Term.Readable.canonical (.node hsum ?_)
    simp only [List.forall_mem_cons, List.not_mem_nil, false_imp_iff, implies_true, and_true]
    refine ⟨.node hproduct ?_, .node (by decide +kernel) ?_⟩
    · simp only [List.forall_mem_cons, List.not_mem_nil, false_imp_iff, implies_true, and_true]
      refine ⟨.integer (by decide), .symbol (by decide +kernel), .node hsum ?_⟩
      simp only [List.forall_mem_cons, List.not_mem_nil, false_imp_iff, implies_true, and_true]
      exact ⟨.symbol (by decide +kernel), .integer (by decide)⟩
    · simp only [List.forall_mem_cons, List.not_mem_nil, false_imp_iff, implies_true, and_true]
      exact ⟨.node hsum (by simp), .node hproduct (by simpa using .integer (by decide))⟩
  have hcanonical := Term.canonical_canonical
  exact ⟨hcanonical _, hreadable, (printed_terms_parse_back (hcanonical _) hreadable).1⟩

/-! ### Patterns -/

/-! ### Texts that show what names stand for -/

/-- A symbol whose text is a name and no wildcard.  Only the names of plain symbols are printed
    alone, where an underscore at the end makes a wildcard and `try` is no name. -/
def Symbol.Faithful (s : Symbol) : Prop :=
  s.kind = .plain → s.name ≠ "try" ∧ s.name.toList.getLast? ≠ some '_'

/-- A head whose text may be called, which `try` may not. -/
def Head.Faithful (head : Head) : Prop := head.kind = .plain → head.name ≠ "try"

instance (s : Symbol) : Decidable s.Faithful := inferInstanceAs (Decidable (_ → _ ∧ _))

instance (head : Head) : Decidable head.Faithful := inferInstanceAs (Decidable (_ → _))

/-- A term in whose text every name is seen for what it is. -/
def Term.Faithful (t : Term) : Prop := t.Over (fun _ => True) Symbol.Faithful Head.Faithful

/-- A wildcard whose word shows the name.  Among three underscores or more, that of a name cannot
    be told from those that count; only a minimum of 0 takes all that are left. -/
structure Wildcard.Faithful (w : Wildcard) : Prop where
  underscore : ∀ n, w.extent = .run (n + 1) → (w.name.getD "").toList.getLast? ≠ some '_'
  default : ∀ t, w.default = some t → t.Faithful

/-- A tree in whose text every name is seen for what it is. -/
def PatternTerm.Faithful (p : PatternTerm) : Prop :=
  p.Over (fun _ => True) Symbol.Faithful Head.Faithful Wildcard.Faithful

/-! ### Reading once more -/

/-- A word that may follow `::` is a path by itself, unless it is `try`. -/
theorem isName_of_isSegment {w : String} (h : IsSegment w) (hne : w ≠ "try") : IsName w :=
  ⟨h.1, h.2.imp_right fun h => h.imp_right fun h => h.resolve_left hne⟩

/-- A symbol that has been read is readable if its text shows what it stands for. -/
theorem Symbol.Parsed.readable {s : Symbol} (h : s.Parsed) (hfaithful : s.Faithful) :
    s.Readable := by
  obtain ⟨name, kind⟩ := s
  cases kind with
  | plain =>
    obtain ⟨hne, hlast⟩ := hfaithful rfl
    exact ⟨isName_of_isSegment h hne, hlast⟩
  | _ => exact h

/-- A head that has been read is readable if its text shows what it stands for. -/
theorem Head.Parsed.readable {head : Head} (h : head.Parsed) (hfaithful : head.Faithful) :
    head.Readable := by
  obtain ⟨name, kind⟩ := head
  cases kind with
  | plain => exact ⟨isName_of_isSegment h.1 (hfaithful rfl), h.2 rfl⟩
  | _ => exact h.1

/-- A term that has been read is readable if the texts of its names show what they stand for. -/
theorem Term.Parsed.readable {t : Term} (h : t.Parsed) (hfaithful : t.Faithful) : t.Readable := by
  unfold Term.Parsed at h
  induction h with
  | integer h => exact .integer h
  | symbol h =>
    cases hfaithful with
    | symbol hfaithful => exact .symbol (h.readable hfaithful)
  | node h _ ih =>
    cases hfaithful with
    | node hfaithful hargs =>
      exact .node (h.readable hfaithful) fun t ht => ih t ht (hargs t ht)

/-- A wildcard that has been read is readable if the texts of its kind and its default show what
    they stand for. -/
theorem Wildcard.Parsed.readable {w : Wildcard} (h : w.Parsed) (hfaithful : w.Faithful) :
    w.Readable where
  name_ne := h.name_ne
  word := h.word
  underscore := by
    cases hextent : w.extent with
    | one kind => exact .inr (h.underscore (by rw [isFixed, hextent]))
    | run n =>
      cases n with
      | zero => exact .inl rfl
      | succ n => exact .inr (hfaithful.underscore n hextent)
  count := h.count
  default t ht := by
    obtain ⟨hparsed, hcanonical⟩ := h.default t ht
    exact ⟨hparsed.readable (hfaithful.default t ht), hcanonical⟩

/-- **Faithful patterns that are read** may be read again. -/
theorem PatternTerm.Parsed.readable {p : PatternTerm} (h : p.Parsed) (hfaithful : p.Faithful) :
    p.Readable := by
  have hnames := h.names
  clear h
  induction hnames with
  | integer h => exact .integer h
  | symbol h =>
    cases hfaithful with
    | symbol hfaithful => exact .symbol (h.readable hfaithful)
  | wildcard h =>
    cases hfaithful with
    | wildcard hfaithful => exact .wildcard (h.readable hfaithful)
  | node h _ ih =>
    cases hfaithful with
    | node hfaithful hargs =>
      exact .node (h.readable hfaithful) fun p hp => ih p hp (hargs p hp)

/-- **Printed patterns parse back:** whatever text a pattern is read from, its own text is read as
    the same pattern, if every name in it is seen for what it is. -/
theorem printed_patterns_parse_back {text : String} {p : PatternTerm}
    (h : PatternTerm.parse text = .ok p) (hfaithful : p.Faithful) :
    PatternTerm.parse p.text = .ok p := by
  have hparsed := PatternTerm.parsed_of_parse h
  have hcanonical := PatternTerm.canonical_eq_self hparsed.flattened hparsed.arranged
  rw [(hparsed.readable hfaithful).parse_text, hcanonical]

/-- Nested wildcards that are printed in another nesting, and a sum that is printed in order. -/
theorem printed_patterns_parse_back_nested :
    let symbols : Wildcard := ⟨some "x", .one (some .dummy), some (.integer (-2))⟩
    let operation : PatternTerm :=
      .build ⟨"f", .plain⟩ [.wildcard symbols, .wildcard (.sequence (some "y") 3)]
    let p := PatternTerm.build .sum [operation, .symbol "a"]
    PatternTerm.parse "f(Sym(Optional(x_, -2), Dummy), Seq(y__, 3)) + a" = .ok p ∧ p.Faithful ∧
      PatternTerm.parse p.text = .ok p := by
  intro symbols operation p
  have hname : ∀ w ∈ ["x_", "y__", "a", "f", "Sym", "Seq", "Optional", "Dummy"], IsName w := by
    decide +kernel
  have hspelled : ∀ w ∈ ["x_", "y__", "a", "Dummy"], Spelled .sum (.name w) := fun w hw =>
    (Spelled.path (.name (hname w (by revert w; decide)))).castToSum
  let optional : Spelling := .call (.name "Optional") [.name "x_", .negated (.number 2)]
  let sym : Spelling := .call (.name "Sym") [optional, .name "Dummy"]
  let seq : Spelling := .call (.name "Seq") [.name "y__", .number 3]
  let sum : Spelling := .plus (.call (.name "f") [sym, seq]) (.name "a")
  have hsum : sum.Means p := by
    have hx : (Spelling.name "x_").Means (.wildcard (.fixed (some "x"))) := rfl
    have hy : (Spelling.name "y__").Means (.wildcard (.sequence (some "y") 1)) := rfl
    have htwo := PatternTerm.means_negated (PatternTerm.means_number (n := 2) (by decide))
    have hoptional := PatternTerm.means_optional (t := .integer (-2)) hx htwo rfl
    have hsym := PatternTerm.means_sym hoptional rfl .dummy
    have hseq := PatternTerm.means_seq hy rfl (n := 3) (by decide)
    have hhead : Head.Readable ⟨"f", .plain⟩ := by decide +kernel
    exact PatternTerm.means_plus (PatternTerm.means_call hhead (.cons hsym (.cons hseq .nil)))
      (PatternTerm.means_name "a")
  -- How the text is grouped, and what its groups mean, are shown apart.
  have hgrouped : Spelled .sum sum := by
    have hoptional : Spelled .sum optional := (Spelled.call_pair (.name (hname _ (by simp)))
      (hspelled _ (by simp)) (Spelled.negative 2).castToSum).castToSum
    have hsym : Spelled .sum sym := (Spelled.call_pair (.name (hname _ (by simp))) hoptional
      (hspelled _ (by simp))).castToSum
    have hseq : Spelled .sum seq := (Spelled.call_pair (.name (hname _ (by simp)))
      (hspelled _ (by simp)) (Spelled.number 3).castToSum).castToSum
    have hcall : Spelled .cast (.call (.name "f") [sym, seq]) :=
      .call_pair (.name (hname _ (by simp))) hsym hseq
    have ha : Spelled .cast (.name "a") := .path (.name (hname _ (by simp)))
    exact @Spelled.sum (.call (.name "f") [sym, seq]) [.name "a"]
      (by simp [hcall.toProduct, ha.toProduct])
  have hparse : PatternTerm.parse "f(Sym(Optional(x_, -2), Dummy), Seq(y__, 3)) + a" = .ok p :=
    hsum.parse_eq hgrouped rfl
  have hfaithful : p.Faithful := by
    have hsymbols : symbols.Faithful := ⟨nofun, fun t ht => Option.some.inj ht ▸ .integer trivial⟩
    have hrun : (Wildcard.sequence (some "y") 3).Faithful := ⟨fun _ _ => by decide, nofun⟩
    have hoperation : operation.Faithful := .build (by decide)
      (by simp [PatternTerm.Over.wildcard hsymbols, PatternTerm.Over.wildcard hrun])
    have ha : (PatternTerm.symbol "a").Faithful := .symbol (by decide)
    refine .build (by decide) (List.forall_mem_cons.mpr ⟨hoperation, ?_⟩)
    exact List.forall_mem_singleton.mpr ha
  exact ⟨hparse, hfaithful, printed_patterns_parse_back hparse hfaithful⟩

/-- **Underscores are lost.**  A run named `x_` is printed with the underscores of one named `x`,
    and a plain symbol named `x_` as the wildcard `x`. -/
theorem underscores_are_lost :
    let run : PatternTerm := .wildcard (.sequence (some "x_") 2)
    let other : PatternTerm := .wildcard (.sequence (some "x") 2)
    let symbol : PatternTerm := .atom (.symbol ⟨"x_", .plain⟩)
    let fixed : PatternTerm := .wildcard (.fixed (some "x"))
    (PatternTerm.parse "Seq(x____, 2)" = .ok run ∧ PatternTerm.parse run.text = .ok other ∧
        other ≠ run) ∧
      PatternTerm.parse "Plain::x_" = .ok symbol ∧ PatternTerm.parse symbol.text = .ok fixed ∧
        fixed ≠ symbol := by
  intro run other symbol fixed
  have hname : ∀ w ∈ ["x____", "x___", "x_", "Seq", "Plain"], IsName w := by decide +kernel
  have hseq : ∀ w ∈ ["x____", "x___"],
      Spelled .sum (.call (.name "Seq") [.name w, .number 2]) := by
    intro w hw
    have hw : Spelled .cast (.name w) := .path (.name (hname w (by revert w; decide)))
    have hcall : Spelled .cast (.call (.name "Seq") [.name w, .number 2]) :=
      .call_pair (.name (hname _ (by simp))) hw.castToSum (Spelled.number 2).castToSum
    exact hcall.castToSum
  have hany : (Spelling.name "x____").Means (.wildcard (.sequence (some "x_") 0)) := rfl
  have hfewer : (Spelling.name "x___").Means (.wildcard (.sequence (some "x") 0)) := rfl
  have hfixed : (Spelling.name "x_").Means (.wildcard (.fixed (some "x"))) := rfl
  have hqualified : Spelled .cast (.qualified "Plain" "x_") :=
    .path (.qualified (hname _ (by simp)) (hname _ (by simp)).isSegment)
  have hword : Spelled .cast (.name "x_") := .path (.name (hname _ (by simp)))
  refine ⟨⟨?_, ?_, by decide⟩, ?_, ?_, by decide⟩
  · exact (PatternTerm.means_seq hany rfl (by decide)).parse_eq (hseq _ (by simp)) rfl
  · have htext : run.text.toList =
        (Spelling.call (.name "Seq") [.name "x___", .number 2]).chars := by
      decide +kernel
    exact (PatternTerm.means_seq hfewer rfl (by decide)).parse_eq (hseq _ (by simp)) htext
  · exact (PatternTerm.means_qualified .plain "x_").parse_eq hqualified.castToSum rfl
  · exact hfixed.parse_eq hword.castToSum rfl

end TermNet
