import TermNet.Proofs.Pattern.Spelling
import TermNet.Proofs.Source.Digits
import TermNet.Proofs.Source.Reading

namespace TermNet

open Source

/-!
# Reading back what is written

* `Spelling.Means` — the pattern that a spelling stands for;
* `means_spelling` — an operation stands for what is built from its arguments;
* `PatternTerm.means_spellingWith` — the spelling of a tree stands for its canonical form;
* `PatternTerm.parse_text`, `Term.parse_text` — what the texts of trees and terms are read as.
-/

/-- A spelling stands for a pattern. -/
def Source.Spelling.Means (s : Spelling) (p : PatternTerm) : Prop :=
  PatternTerm.ofAttributed [] s.expression = .ok p

namespace PatternTerm

/-! ### Leaves -/

/-- A number stands for the integer that it is, if it has 64 bits. -/
theorem means_number {n : Nat} (h : n ≤ largestInteger) :
    (Spelling.number n).Means (integer (Int64.ofNat n)) := by
  simp only [Spelling.Means, Spelling.number, ofAttributed, wholeNumber?_toString, if_pos h]

/-- A minus sign negates what stands behind it. -/
theorem means_negated {s : Spelling} {p : PatternTerm} (h : s.Means p) :
    (Spelling.negated s).Means p.negate := by
  rw [Spelling.Means, Spelling.negated, ofAttributed, h]
  rfl

/-- **Integers are read back,** but for the least one, whose amount is too large. -/
theorem means_integerSpelling {value : Int64} (h : value ≠ Int64.minValue) :
    (integerSpelling value).Means (integer value) := by
  have hlower := value.le_toInt
  have hupper := value.toInt_lt
  unfold integerSpelling
  split
  · rename_i n hn
    have hvalue : Int64.ofNat n = value := by
      rw [← Int64.ofInt_eq_ofNat, ← Int64.ofInt_toInt value, hn]
      rfl
    rw [← hvalue]
    refine means_number ?_
    rw [hn] at hupper
    simp only [Int.ofNat_eq_natCast, largestInteger] at *
    omega
  · rename_i n hn
    have hvalue : -Int64.ofNat (n + 1) = value := by
      rw [← Int64.ofInt_eq_ofNat, Int64.neg_ofInt, ← Int64.ofInt_toInt value, hn]
      rfl
    -- The amount of the least integer is the only one that does not fit.
    have hne : value.toInt ≠ -2 ^ 63 := fun heq =>
      h (Int64.toInt_inj.mp (heq.trans Int64.toInt_minValue.symm))
    rw [← hvalue]
    refine means_negated (means_number ?_)
    rw [hn] at hlower hne
    simp only [largestInteger] at *
    omega

/-- A name stands for a symbol or a wildcard, as its underscores say. -/
theorem means_name (w : String) : (Spelling.name w).Means (ofName w) := rfl

/-- A name behind the kind of a symbol stands for a symbol of that kind. -/
theorem means_qualified (kind : SymbolKind) (w : String) :
    (Spelling.qualified kind.name w).Means (atom (.symbol ⟨w, kind⟩)) := by
  rw [Spelling.Means, Spelling.qualified, ofAttributed, ofPath]
  simp only [Path.names, List.nil_append, List.map_cons, List.map_nil, SymbolKind.ofName?_name]

/-- A name without an underscore at its end is a symbol. -/
theorem ofName_of_getLast? {w : String} (h : w.toList.getLast? ≠ some '_') :
    ofName w = symbol w := by
  rw [← List.head?_reverse] at h
  unfold ofName
  split
  all_goals first | rfl | (rename_i hreverse; exact absurd (by rw [hreverse]; rfl) h)

/-- **Symbols are read back.** -/
theorem means_symbol {s : Symbol} (h : s.Readable) : s.spelling.Means (atom (.symbol s)) := by
  obtain ⟨name, kind⟩ := s
  cases kind with
  | plain =>
    have hname : ofName name = symbol name := ofName_of_getLast? h.2
    exact (means_name name).trans (congrArg _ hname)
  | dummy => exact means_qualified .dummy name
  | constant => exact means_qualified .constant name

/-- Parentheses change nothing. -/
theorem means_paren {s : Spelling} {p : PatternTerm} (h : s.Means p) :
    (Spelling.paren s).Means p := by
  rw [Spelling.Means, Spelling.paren, ofAttributed]
  exact h

/-! ### Operations -/

/-- A plus sign stands for the sum that is built of both sides. -/
theorem means_plus {l r : Spelling} {p q : PatternTerm} (hl : l.Means p) (hr : r.Means q) :
    (l.plus r).Means (build .sum [p, q]) := by
  rw [Spelling.Means] at hl hr
  simp only [Spelling.Means, Spelling.plus, ofAttributed, hl, hr]
  rfl

/-- A sign of multiplication stands for the product that is built of both sides. -/
theorem means_times {l r : Spelling} {p q : PatternTerm} (hl : l.Means p) (hr : r.Means q) :
    (l.times r).Means (build .product [p, q]) := by
  rw [Spelling.Means] at hl hr
  simp only [Spelling.Means, Spelling.times, ofAttributed, hl, hr]
  rfl

/-- Operands joined from left to right stand for what is built step by step. -/
theorem means_foldl {operation : Spelling → Spelling → Spelling} {head : Head}
    (hoperation : ∀ {l r : Spelling} {p q : PatternTerm}, l.Means p → r.Means q →
      (operation l r).Means (build head [p, q]))
    {first : Spelling} {rest : List Spelling} {p : PatternTerm} {qs : List PatternTerm}
    (hfirst : first.Means p) (hrest : List.Forall₂ Spelling.Means rest qs) :
    (rest.foldl operation first).Means (qs.foldl (fun p q => build head [p, q]) p) := by
  induction hrest generalizing first p with
  | nil => exact hfirst
  | cons hnext _ ih => exact ih (hoperation hfirst hnext)

/-- **Sums and products** stand for what is built from their arguments at once. -/
theorem means_joined {operation : Spelling → Spelling → Spelling} {head : Head}
    (hassoc : head.isAssociative = true)
    (hoperation : ∀ {l r : Spelling} {p q : PatternTerm}, l.Means p → r.Means q →
      (operation l r).Means (build head [p, q]))
    {first second : Spelling} {rest : List Spelling} {qs : List PatternTerm}
    (h : List.Forall₂ Spelling.Means (first :: second :: rest) qs) :
    ((second :: rest).foldl operation first).Means (build head qs) := by
  obtain _ | ⟨hfirst, _ | ⟨hsecond, hrest⟩⟩ := h
  have hfold := means_foldl hoperation (hoperation hfirst hsecond) hrest
  rw [foldl_build hassoc] at hfold
  exact hfold

/-- A call stands for what is read from its path and its arguments. -/
theorem means_call_iff {f : Spelling} {path : Path} (hf : f.expression = .path path)
    {args : List Spelling} {p : PatternTerm} :
    (Spelling.call f args).Means p ↔
      ofCall (Spelling.call f args).expression.tokens path
        (argumentsOf (args.map Spelling.expression)) =
        .ok p := by
  rw [Spelling.Means, Spelling.call, ofAttributed, hf]
  rfl

/-- What is called with a readable head is the operation with that head. -/
theorem ofCall_path {head : Head} (h : head.Readable) :
    ∃ path, head.path.expression = .path path ∧
      ∀ tokens args, ofCall tokens path args = ofOperation head args := by
  obtain ⟨name, kind⟩ := head
  cases kind with
  | plain =>
    refine ⟨_, rfl, fun tokens args => ?_⟩
    have hname : name ≠ "Optional" ∧ name ≠ "Sym" ∧ name ≠ "Seq" := by
      simpa [Head.Readable] using h.2
    simp [ofCall, Path.names, hname]
  | _ => exact ⟨_, rfl, fun _ _ => rfl⟩

/-- Arguments stand for patterns, one by one. -/
theorem mapM_pattern {args : List Spelling} {qs : List PatternTerm}
    (h : List.Forall₂ Spelling.Means args qs) :
    (argumentsOf (args.map Spelling.expression)).mapM Argument.pattern = .ok qs := by
  induction h with
  | nil => rfl
  | cons hfirst _ ih =>
    rw [List.map_cons, argumentsOf, List.mapM_cons, ih, hfirst]
    rfl

/-- **A call** whose path is that of a head stands for the operation that is built. -/
theorem means_call {head : Head} (h : head.Readable) {args : List Spelling} {qs : List PatternTerm}
    (hargs : List.Forall₂ Spelling.Means args qs) :
    (Spelling.call head.path args).Means (build head qs) := by
  obtain ⟨path, hpath, hcall⟩ := ofCall_path h
  rw [means_call_iff hpath, hcall, ofOperation, mapM_pattern hargs]
  rfl

/-- An operand stands for the same pattern with or without parentheses. -/
theorem means_operand {outer : Head} {arg : Option Head × Spelling} {q : PatternTerm}
    (h : arg.2.Means q) : (outer.operand arg).Means q := by
  unfold Head.operand
  split
  · exact means_paren h
  · exact h

/-- **Operations stand for** what is built from their arguments. -/
theorem means_spelling {head : Head} (h : head.Readable) {args : List (Option Head × Spelling)}
    {qs : List PatternTerm} (hargs : List.Forall₂ (fun arg q => arg.2.Means q) args qs) :
    (head.spelling args).Means (build head qs) := by
  have hcall : (Spelling.call head.path (args.map Prod.snd)).Means (build head qs) :=
    means_call h (List.forall₂_map_left_iff.mpr hargs)
  have hoperands : List.Forall₂ Spelling.Means (args.map head.operand) qs :=
    List.forall₂_map_left_iff.mpr (hargs.imp fun _ _ => means_operand)
  unfold Head.spelling
  split
  · split
    · rename_i hsum
      subst hsum
      exact means_joined rfl means_plus hoperands
    · split
      · rename_i hproduct
        subst hproduct
        exact means_joined rfl means_times hoperands
      · exact hcall
  · exact hcall

/-! ### Wildcards -/

end PatternTerm

namespace Wildcard

/-- What a wildcard takes as far as its word shows it. -/
def shownExtent (w : Wildcard) : Extent :=
  match w.extent with
  | .one _ => .one none
  | .run 0 => .run 0
  | .run _ => .run 1

/-- The wildcard that the word of a wildcard stands for. -/
def shown (w : Wildcard) : Wildcard := ⟨w.name, w.shownExtent, none⟩

end Wildcard

namespace PatternTerm

/-- A name that is not empty is read back from the text in front of underscores. -/
theorem wildcardName?_getD {name : Option String} (h : name ≠ some "") :
    wildcardName? (name.getD "").toList = name := by
  cases name with
  | none => rfl
  | some name =>
    have hne : name.toList ≠ [] := fun hnil => h (by rw [String.toList_eq_nil_iff.mp hnil])
    simp [wildcardName?, hne]

/-- Three underscores are a wildcard for any number of arguments. -/
theorem ofName_any (name : String) :
    ofName (name ++ "___") = wildcard (.sequence (wildcardName? name.toList) 0) := by
  simp [ofName]

/-- One underscore is a wildcard for one argument, and two are one for some arguments. -/
theorem ofName_underscores {name : String} (h : name.toList.getLast? ≠ some '_') :
    ofName (name ++ "_") = wildcard (.fixed (wildcardName? name.toList)) ∧
      ofName (name ++ "__") = wildcard (.sequence (wildcardName? name.toList) 1) := by
  rw [← List.head?_reverse] at h
  cases hreverse : name.toList.reverse with
  | nil => simp [ofName, List.reverse_eq_nil_iff.mp hreverse]
  | cons c rest =>
    have hc : c ≠ '_' := by simpa [hreverse] using h
    have hname : (c :: rest).reverse = name.toList := by rw [← hreverse, List.reverse_reverse]
    simp [ofName, hc, ← hname]

/-- **The word of a wildcard** shows its name, and what it takes as far as a word can. -/
theorem ofName_word {w : Wildcard} (h : w.Readable) : ofName w.word = wildcard w.shown := by
  have hname := wildcardName?_getD h.name_ne
  have hunderscore := h.underscore
  obtain ⟨name, extent, default⟩ := w
  match extent with
  | .one _ => exact (ofName_underscores (by simpa using hunderscore)).1.trans (by rw [hname]; rfl)
  | .run 0 => exact (ofName_any _).trans (by rw [hname]; rfl)
  | .run (n + 1) =>
    exact (ofName_underscores (by simpa using hunderscore)).2.trans (by rw [hname]; rfl)

/-- A wildcard without anything else is read from its word. -/
theorem means_wordSpelling {w : Wildcard} (h : w.Readable) :
    w.wordSpelling.Means (wildcard w.shown) := by
  rw [← ofName_word h]
  unfold Wildcard.wordSpelling
  split
  · rename_i hword
    rw [hword]
    rfl
  · exact means_name _

/-- A wildcard for one argument may be restricted to a kind of symbols. -/
theorem ofSym_eq (tokens : List Token) {first second : Argument} {w : Wildcard} {kind : SymbolKind}
    (h : first.pattern = .ok (wildcard w)) (hfixed : w.isFixed = true)
    (hkind : second.expression.name?.bind SymbolKind.ofName? = some kind) :
    ofSym tokens [first, second] = .ok (wildcard { w with extent := .one (some kind) }) := by
  have hrestricted : w.withSymbolKind kind = .ok { w with extent := .one (some kind) } := by
    simp [Wildcard.withSymbolKind, hfixed]
  simp only [ofSym, hkind, Argument.wildcard, h, wildcard?]
  exact congrArg (fun made => made.map wildcard) hrestricted

/-- The spelling of such a restriction stands for the restricted wildcard. -/
theorem means_sym {s : Spelling} {w : Wildcard} (h : s.Means (wildcard w))
    (hfixed : w.isFixed = true) (kind : SymbolKind) :
    (Spelling.call (.name "Sym") [s, .name kind.name]).Means
      (wildcard { w with extent := .one (some kind) }) := by
  rw [means_call_iff rfl]
  exact ofSym_eq (Spelling.call (.name "Sym") [s, .name kind.name]).expression.tokens h hfixed
    (SymbolKind.ofName?_name kind)

/-- A wildcard for a run may get another number of arguments that it takes at least. -/
theorem ofSeq_eq (tokens : List Token) {first second : Argument} {w : Wildcard} {m n : Nat}
    (h : first.pattern = .ok (wildcard w)) (hextent : w.extent = .run m)
    (hcount : second.pattern = .ok (integer (Int64.ofNat n))) (hn : n ≤ largestInteger) :
    ofSeq tokens [first, second] = .ok (wildcard { w with extent := .run n }) := by
  have hvalue : (Int64.ofNat n).toInt = n :=
    Int64.toInt_ofNat_of_lt (by simp only [largestInteger] at hn; omega)
  have hnegative : ¬ (n : Int) < 0 := by omega
  have hmake : w.withMinCount (Int64.ofNat n).toInt = .ok { w with extent := .run n } := by
    simp [Wildcard.withMinCount, Wildcard.make, Wildcard.isFixed, Wildcard.symbolKind, hextent,
      hvalue, hnegative]
  simp only [ofSeq, hcount, integer, integer?, Term.integer?, Argument.wildcard, h, wildcard?]
  exact congrArg (fun made => made.map wildcard) hmake

/-- The spelling with that number stands for the wildcard with that number. -/
theorem means_seq {s : Spelling} {w : Wildcard} (h : s.Means (wildcard w)) {m : Nat}
    (hextent : w.extent = .run m) {n : Nat} (hn : n ≤ largestInteger) :
    (Spelling.call (.name "Seq") [s, .number n]).Means (wildcard { w with extent := .run n }) := by
  rw [means_call_iff rfl]
  exact ofSeq_eq _ h hextent (means_number hn) hn

/-- A wildcard may get a default that is a term. -/
theorem ofOptional_eq (tokens : List Token) {first second : Argument} {w : Wildcard}
    {q : PatternTerm} {t : Term} (hfirst : first.pattern = .ok (wildcard w))
    (h : second.pattern = .ok q) (ht : q.toTerm? = some t) :
    ofOptional tokens [first, second] = .ok (wildcard (w.withDefault t)) := by
  have hwildcard : first.wildcard = .ok w := by
    rw [Argument.wildcard, hfirst]
    rfl
  simp only [ofOptional, hwildcard, h, bind, Except.bind, ht]
  rfl

/-- The spelling with a default stands for the wildcard with that default. -/
theorem means_optional {base s : Spelling} {w : Wildcard} {q : PatternTerm} {t : Term}
    (hbase : base.Means (wildcard w)) (h : s.Means q) (ht : q.toTerm? = some t) :
    (Spelling.call (.name "Optional") [base, s]).Means (wildcard (w.withDefault t)) := by
  rw [means_call_iff rfl]
  exact ofOptional_eq (Spelling.call (.name "Optional") [base, s]).expression.tokens hbase h ht

/-- A wildcard without its default. -/
theorem means_base {w : Wildcard} (h : w.Readable) :
    w.base.Means (wildcard { w with default := none }) := by
  have hword := means_wordSpelling h
  have hcount := h.count
  obtain ⟨name, extent, default⟩ := w
  match extent with
  | .one none | .run 0 | .run 1 => exact hword
  | .one (some kind) => exact means_sym hword rfl kind
  | .run (n + 2) => exact means_seq hword rfl hcount

/-! ### Trees -/

variable {spell : Term → Spelling}

/-- **The spelling of a tree stands for its canonical form.** -/
theorem means_spellingWith {p : PatternTerm} (h : p.Readable)
    (hspell : ∀ w ∈ p.wildcards, ∀ t, w.default = some t →
      ∃ q, (spell t).Means q ∧ q.toTerm? = some t) :
    (p.spellingWith spell).Means p.canonical := by
  induction h with
  | integer h => exact means_integerSpelling h
  | symbol h => exact means_symbol h
  | @wildcard w h =>
    rw [spellingWith, canonical_wildcard]
    cases hdefault : w.default with
    | none =>
      have hbase := means_base h
      rw [← hdefault] at hbase
      exact hbase
    | some t =>
      obtain ⟨q, hq, ht⟩ := hspell w (by simp [wildcards]) t hdefault
      have hoptional := means_optional (means_base h) hq ht
      rw [Wildcard.withDefault, ← hdefault] at hoptional
      exact hoptional
  | @node head args h hargs ih =>
    rw [spellingWith, argumentsWith_eq, canonical_node]
    refine means_spelling h (List.forall₂_map_left_iff.mpr (List.forall₂_map_right_iff.mpr ?_))
    refine List.forall₂_same.mpr fun p hp => ih p hp fun w hw => hspell w ?_
    rw [wildcards, mem_wildcardsAll]
    exact ⟨p, hp, hw⟩

/-! ### Terms -/

/-- Terms have the same texts as trees. -/
theorem texts_ofTerms {ts : List Term} (h : ∀ t ∈ ts, (ofTerm t).text = t.text) :
    texts (ofTerms ts) = Term.texts ts := by
  induction ts with
  | nil => rfl
  | cons t ts ih =>
    rw [ofTerms, texts, Term.texts, h t List.mem_cons_self,
      ih fun s hs => h s (List.mem_cons_of_mem t hs)]

/-- Operands have the same texts as trees, with the same parentheses. -/
theorem operandTexts_ofTerms (outer : Head) {ts : List Term}
    (h : ∀ t ∈ ts, (ofTerm t).text = t.text) :
    operandTexts outer (ofTerms ts) = Term.operandTexts outer ts := by
  induction ts with
  | nil => rfl
  | cons t ts ih =>
    have hfirst := h t List.mem_cons_self
    have hrest := ih fun s hs => h s (List.mem_cons_of_mem t hs)
    cases t with
    | integer value => exact congrArg _ hrest
    | symbol s => exact congrArg _ hrest
    | node head args =>
      rw [ofTerm] at hfirst
      rw [ofTerms, ofTerm, operandTexts, Term.operandTexts, hrest, hfirst]

/-- A term has the text of the tree that it is. -/
theorem text_ofTerm (t : Term) : (ofTerm t).text = t.text := by
  induction t using Term.inductionOn with
  | integer value => rfl
  | symbol s => rfl
  | node head args ih =>
    have htexts := texts_ofTerms ih
    have hoperands := operandTexts_ofTerms head ih
    rw [ofTerm]
    unfold text Term.text
    rw [htexts, hoperands]
    cases args with
    | nil => cases head.infix? <;> rfl
    | cons first rest =>
      cases rest with
      | nil => cases head.infix? <;> rfl
      | cons second rest => cases head.infix? <;> rfl

/-- A term whose names can be read is a tree whose names can be read. -/
theorem readable_ofTerm {t : Term} (h : t.Readable) : (ofTerm t).Readable := by
  induction h with
  | integer h => exact .integer h
  | symbol h => exact .symbol h
  | node h hargs ih =>
    rw [ofTerm, ofTerms_eq]
    refine .node h fun p hp => ?_
    obtain ⟨t, ht, rfl⟩ := List.mem_map.mp hp
    exact ih t ht

end PatternTerm

namespace Term

/-- Terms that are built are canonical forms. -/
theorem Canonical.canonical_eq_self {t : Term} (h : t.Canonical) : t.canonical = t := by
  induction t using Term.inductionOn with
  | integer value => rfl
  | symbol s => rfl
  | node head args ih =>
    have hargs : args.map canonical = args :=
      (List.map_congr_left fun t ht => ih t ht (h.args t ht)).trans (List.map_id _)
    rw [canonical_node, hargs, h.build_args]

/-- The characters of the spelling of a term are its text. -/
theorem toList_text (t : Term) : t.text.toList = t.spelling.chars := by
  rw [← PatternTerm.text_ofTerm]
  induction t using Term.inductionOn with
  | integer value => exact toList_toString_int value
  | symbol s => exact s.toList_text
  | node head args ih =>
    refine PatternTerm.toList_text_node fun p hp => ?_
    rw [PatternTerm.ofTerms_eq] at hp
    obtain ⟨t, ht, rfl⟩ := List.mem_map.mp hp
    exact ih t ht

/-- The spelling of a term is one that is grouped as a reader groups it. -/
theorem Readable.spelled {t : Term} (h : t.Readable) : Spelled .sum t.spelling :=
  (PatternTerm.bindsAs_spellingWith (PatternTerm.readable_ofTerm h)
    (by simp [PatternTerm.wildcards_ofTerm])).1

/-- The spelling of a term stands for the term in canonical form. -/
theorem Readable.means_spelling {t : Term} (h : t.Readable) :
    t.spelling.Means (PatternTerm.ofTerm t).canonical :=
  PatternTerm.means_spellingWith (PatternTerm.readable_ofTerm h)
    (by simp [PatternTerm.wildcards_ofTerm])

end Term

/-- A text that is spelled is read as what its spelling stands for. -/
theorem Source.Spelling.Means.parse_eq {s : Spelling} {p : PatternTerm} {text : String}
    (h : s.Means p) (hs : Spelled .sum s) (htext : text.toList = s.chars) :
    PatternTerm.parse text = .ok p := by
  rw [PatternTerm.parse, ← String.ofList_toList (s := text), htext, hs.ofText?_eq]
  exact h

/-- The wildcards of a tree can be read if the tree can. -/
theorem PatternTerm.Readable.of_mem_wildcards {p : PatternTerm} (h : p.Readable) {w : Wildcard}
    (hw : w ∈ p.wildcards) : w.Readable := by
  induction h with
  | integer h => simp [PatternTerm.wildcards] at hw
  | symbol h => simp [PatternTerm.wildcards] at hw
  | wildcard h => exact List.mem_singleton.mp hw ▸ h
  | node h hargs ih =>
    obtain ⟨p, hp, hw⟩ := mem_wildcardsAll.mp hw
    exact ih p hp hw

/-- **The text of a tree** is read as the canonical form of the tree. -/
theorem PatternTerm.Readable.parse_text {p : PatternTerm} (h : p.Readable) :
    PatternTerm.parse p.text = .ok p.canonical := by
  have hdefault : ∀ w ∈ p.wildcards, ∀ t, w.default = some t → t.Readable ∧ t.Canonical :=
    fun w hw => (h.of_mem_wildcards hw).default
  have hmeans : p.spelling.Means p.canonical := by
    refine PatternTerm.means_spellingWith h fun w hw t ht => ?_
    obtain ⟨hreadable, hcanonical⟩ := hdefault w hw t ht
    refine ⟨_, hreadable.means_spelling, ?_⟩
    rw [PatternTerm.toTerm?_canonical_ofTerm, hcanonical.canonical_eq_self]
  refine hmeans.parse_eq ?_ ?_
  · exact (PatternTerm.bindsAs_spellingWith h fun w hw t ht => (hdefault w hw t ht).1.spelled).1
  · exact PatternTerm.toList_text h fun w _ t _ => t.toList_text

/-- **The text of a term** is read as the canonical form of the term. -/
theorem Term.Readable.parse_text {t : Term} (h : t.Readable) :
    Term.parse t.text = .ok t.canonical := by
  rw [Term.parse, h.means_spelling.parse_eq h.spelled t.toList_text]
  simp only [PatternTerm.toTerm?_canonical_ofTerm]

end TermNet
