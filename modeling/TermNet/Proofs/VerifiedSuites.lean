import TermNet.Suite.Verification
import TermNet.Proofs.Denotation.Patterns
import TermNet.Proofs.Emission
import TermNet.Proofs.Net.Trusting
import TermNet.Proofs.Pattern.Compiled
import TermNet.Proofs.Source.Arrays
import TermNet.Proofs.Term.Texts

namespace TermNet

open PatternTerm (exists_of_bind)

/-!
# Suites are verified by expressions

What a case expects of its first match is compared as text.  A term is read and printed first, so
that it may be written in any way, and texts tell bindings apart.  A sequence is compared as it is
written, so it has to be written as it is printed.

* `Term.parsed_of_parse`, `parsed_of_mem_matches` — the names in a subject and in the bindings of
  its matches are words of the language;
* `StandsFor` — what an expected text stands for, and nothing else;
* `Case.Fails` — what is found is not what a case expects;
* `isSome_mismatch?_iff` — a case is reported if it fails;
* `suites_are_verified_by_expressions` — **all cases of a suite that fail are reported,** and no
  others.
-/

/-! ### Subjects and bindings -/

/-- **The names in a subject** that is read are words that may stand in a path. -/
theorem Term.parsed_of_parse {text : String} {t : Term} (h : Term.parse text = .ok t) :
    t.Parsed := by
  unfold Term.parse at h
  split at h
  · cases h
  · rename_i p hp
    split at h
    · rename_i found hfound
      cases h
      exact ((PatternTerm.parsed_of_parse hp).names.toTerm? hfound).1
    · cases h

/-- A text that is read as a term does not begin with a bracket. -/
theorem isListText_of_parse {text : String} {t : Term} (h : Term.parse text = .ok t) :
    isListText text = false := by
  have hp : ∃ p, PatternTerm.parse text = .ok p := by
    unfold Term.parse at h
    split at h
    · cases h
    · exact ⟨_, ‹_›⟩
  obtain ⟨p, hp⟩ := hp
  unfold PatternTerm.parse at hp
  split at hp
  · rename_i e he
    rw [← Bool.not_eq_true]
    intro hlist
    exact Source.not_simple_of_bracket he (by simpa [isListText] using hlist)
      (PatternTerm.simple_of_ofAttributed hp)
  · cases hp

/-- What holds of the leaves of a tree holds of its wildcards. -/
theorem PatternTerm.Over.of_mem_wildcards {I : Int64 → Prop} {S : Symbol → Prop} {H : Head → Prop}
    {W : Wildcard → Prop} {p : PatternTerm} (h : p.Over I S H W) : ∀ w ∈ p.wildcards, W w := by
  induction h with
  | integer | symbol => simp [wildcards]
  | wildcard hw => simpa [wildcards] using hw
  | node _ _ ih =>
    intro w hw
    rw [wildcards, mem_wildcardsAll] at hw
    obtain ⟨p, hp, hw⟩ := hw
    exact ih p hp w hw

variable {patterns : List Pattern} {t : Term} {found : Match}

/-- **The names in the bindings of a match** are those of the subject and of defaults. -/
theorem parsed_of_mem_matches (hpatterns : ∀ p ∈ patterns, p.Compiled) (ht : t.Parsed)
    (hfound : found ∈ (Net.ofPatterns patterns).matches t) {x : String} {b : Binding}
    (hb : found.2.find? x = some b) : ∀ s ∈ b.elements, s.Parsed := by
  obtain ⟨hindex, hsolution⟩ :=
    exists_solution_of_mem_matches (fun p hp => (hpatterns p hp).built) hfound
  have hcompiled := hpatterns _ (List.getElem_mem hindex)
  obtain ⟨hbinds, hdenotes, -⟩ := (Pattern.mem_solutions_iff hcompiled.built.trusting).mp hsolution
  have htree : (patterns[found.1].trusting).tree.canonical = patterns[found.1].tree :=
    PatternTerm.canonical_eq_self hcompiled.parsed.flattened hcompiled.parsed.arranged
  rw [htree] at hdenotes
  have hwildcards := hcompiled.parsed.names.of_mem_wildcards
  exact hdenotes.over (by simp) (List.forall_mem_singleton.mpr ht)
    (fun w hw d hd => ((hwildcards w hw).default d hd).1) ((hbinds x).mp ⟨b, hb⟩) hb

/-! ### Expected texts -/

/-- **What an expected text stands for:** the term that it is read as, however it is written, or
    the sequence that it is printed for. -/
inductive StandsFor : String → Binding → Prop
  | single {text : String} {t : Term} (h : Term.parse text = .ok t) : StandsFor text (.single t)
  | sequence {ts : List Term} (h : ∀ t ∈ ts, Term.parse t.text = .ok t) :
    StandsFor (Binding.sequence ts).text (.sequence ts)

namespace StandsFor

variable {text suite : String} {b other : Binding}

/-- Whatever a text stands for, its terms have been read from a text. -/
theorem parsed (h : StandsFor text b) : ∀ t ∈ b.elements, t.Parsed := by
  cases h with
  | single h => exact List.forall_mem_singleton.mpr (Term.parsed_of_parse h)
  | sequence h => exact fun t ht => Term.parsed_of_parse (h t ht)

/-- A printed sequence is a list as texts go. -/
theorem isListText_sequence (ts : List Term) : isListText (Binding.sequence ts).text = true := by
  have hbracket : Text.isWhiteSpace '[' = false := by decide
  simp [isListText, Binding.text, hbracket]

/-- **An expected text is printed** as the binding that it stands for. -/
theorem renderedBinding_eq (h : StandsFor text b) : renderedBinding suite text = .ok b.text := by
  cases h with
  | single h =>
    rw [renderedBinding, isListText_of_parse h, Suite.subject, h]
    rfl
  | @sequence ts h =>
    rw [renderedBinding, isListText_sequence]
    rfl

/-- An expected text stands for one binding. -/
theorem unique (h : StandsFor text b) (hother : StandsFor text other) : b = other := by
  refine Binding.eq_of_text_eq h.parsed hother.parsed ?_
  have htext : renderedBinding "" text = .ok b.text := h.renderedBinding_eq
  exact Except.ok.inj (htext.symm.trans hother.renderedBinding_eq)

/-- **Texts are compared instead of bindings.** -/
theorem text_eq_iff (h : StandsFor text b) {actual : Option Binding}
    (hactual : ∀ a ∈ actual, ∀ t ∈ a.elements, t.Parsed) :
    actual.map Binding.text = some b.text ↔ actual = some b := by
  cases actual with
  | none => simp
  | some a =>
    rw [Option.map_some, Option.some.injEq, Option.some.injEq]
    refine ⟨Binding.eq_of_text_eq (hactual a rfl) h.parsed, congrArg _⟩

end StandsFor

/-! ### Cases -/

/-- Every text that the case expects a variable to be bound to stands for something. -/
def Case.Legible (case : Case) : Prop :=
  ∀ expected ∈ case.expect, ∀ entry ∈ expected.bindings.entries, ∃ b, StandsFor entry.2 b

/-- **What is found is not what the case expects.** -/
inductive Case.Fails (case : Case) : List Match → Prop
  | unexpected (h : case.expect = none) (first : Match) (rest : List Match) :
    Fails case (first :: rest)
  | nothing {expected : Expectation} (h : case.expect = some expected) : Fails case []
  | pattern {expected : Expectation} (h : case.expect = some expected) {first : Match}
    (hne : first.1 ≠ expected.pattern) (rest : List Match) : Fails case (first :: rest)
  /-- A variable is not bound to what its text stands for. -/
  | binding {expected : Expectation} (h : case.expect = some expected) {first : Match}
    {entry : String × String} {b : Binding} (hentry : entry ∈ expected.bindings.entries)
    (hb : StandsFor entry.2 b) (hne : first.2.find? entry.1 ≠ some b) (rest : List Match) :
    Fails case (first :: rest)

namespace Suite

/-- A mismatch is reported if some name is not bound to what prints as its expected text. -/
theorem isSome_bindingMismatch?_iff {σ : Substitution} {entries : List (String × String)} :
    (bindingMismatch? σ entries).isSome = true ↔
      ∃ entry ∈ entries, (σ.find? entry.1).map Binding.text ≠ some entry.2 := by
  induction entries with
  | nil => simp [bindingMismatch?]
  | cons entry entries ih =>
    obtain ⟨name, value⟩ := entry
    rw [bindingMismatch?, List.exists_mem_cons_iff]
    split
    · rename_i heq
      rw [ih]
      exact (or_iff_right (not_not.mpr heq)).symm
    · rename_i hne
      exact iff_of_true rfl (.inl hne)

/-- **The bindings of a match** are compared with what the texts stand for. -/
theorem isSome_bindingMismatch?_rendered {σ : Substitution} {suite : String}
    {expected : Expectation} {rendered : List (String × String)}
    (hrendered : expected.renderedBindings suite = .ok rendered)
    (hexpected : ∀ entry ∈ expected.bindings.entries, ∃ b, StandsFor entry.2 b)
    (hσ : ∀ x b, σ.find? x = some b → ∀ t ∈ b.elements, t.Parsed) :
    (bindingMismatch? σ rendered).isSome = true ↔ ∃ entry ∈ expected.bindings.entries,
      ∃ b, StandsFor entry.2 b ∧ σ.find? entry.1 ≠ some b := by
  rw [isSome_bindingMismatch?_iff]
  have hall := mem_of_mapM hrendered
  clear hrendered
  generalize expected.bindings.entries = entries at hexpected hall
  induction hall with
  | nil => simp
  | @cons entry value entries rendered hvalue _ ih =>
    rw [List.forall_mem_cons] at hexpected
    obtain ⟨⟨b, hb⟩, hentries⟩ := hexpected
    simp only [hb.renderedBinding_eq] at hvalue
    cases hvalue
    -- Texts of bindings with readable names are equal only if the bindings are.
    have hfirst : (σ.find? entry.1).map Binding.text ≠ some b.text ↔
        ∃ b, StandsFor entry.2 b ∧ σ.find? entry.1 ≠ some b := by
      rw [Ne, hb.text_eq_iff fun a ha => hσ entry.1 a ha]
      refine ⟨fun hne => ⟨b, hb, hne⟩, fun ⟨other, hother, hne⟩ => ?_⟩
      rwa [hb.unique hother]
    rw [List.exists_mem_cons_iff, List.exists_mem_cons_iff]
    exact or_congr hfirst (ih hentries)

/-- **A case is reported** if it fails. -/
theorem isSome_mismatch?_iff {suite : String} {case : Case} {found : List Match}
    {reason : Option String} (h : mismatch? suite case found = .ok reason) (hcase : case.Legible)
    (hfound : ∀ m ∈ found, ∀ x b, m.2.find? x = some b → ∀ t ∈ b.elements, t.Parsed) :
    reason.isSome = true ↔ case.Fails found := by
  -- The cases are those of the check: whether something is expected and found, then the index
  -- of the pattern, then the bindings.
  unfold mismatch? at h
  split at h
  · rename_i hexpect
    cases h
    refine iff_of_false (by simp) fun hfails => ?_
    cases hfails with
    | nothing hsome => cases hexpect.symm.trans hsome
  · rename_i first rest hexpect
    cases h
    exact iff_of_true rfl (.unexpected hexpect _ _)
  · rename_i expected hexpect
    cases h
    exact iff_of_true rfl (.nothing hexpect)
  · rename_i expected index σ rest hexpect
    split at h
    · rename_i hindex
      cases hrendered : expected.renderedBindings suite with
      | error cause => simp [hrendered, Except.map] at h
      | ok rendered =>
        simp only [hrendered, Except.map, Except.ok.injEq] at h
        have hσ := hfound _ List.mem_cons_self
        rw [← h, isSome_bindingMismatch?_rendered hrendered (hcase expected hexpect) hσ]
        refine ⟨fun ⟨entry, hentry, b, hb, hne⟩ => .binding hexpect hentry hb hne _,
          fun hfails => ?_⟩
        cases hfails with
        | unexpected hnone => cases hexpect.symm.trans hnone
        | pattern hsome hne =>
          cases hexpect.symm.trans hsome
          exact absurd hindex hne
        | binding hsome hentry hb hne =>
          cases hexpect.symm.trans hsome
          exact ⟨_, hentry, _, hb, hne⟩
    · rename_i hindex
      cases h
      exact iff_of_true rfl (.pattern hexpect hindex _)

/-- What is found in a case: a failure, unless all is as expected. -/
def Verdict (suite : String) (net : Net) (case : Case) (verdict : Option Failure) : Prop :=
  ∃ subject reason, Term.parse case.subject = .ok subject ∧
    mismatch? suite case (net.matches subject) = .ok reason ∧
    verdict = reason.map fun reason => ⟨case.subject, reason⟩

/-- The subject of a case is its text read as a term. -/
theorem subject_eq_ok {suite text : String} {t : Term} (h : subject suite text = .ok t) :
    Term.parse text = .ok t := by
  unfold subject at h
  split at h
  · rename_i found hfound
    cases h
    exact hfound
  · cases h

/-- **The cases are checked one after the other.** -/
theorem exists_verdicts {suite : String} {net : Net} {cases : List Case}
    {failures : List Failure} (h : checkCases suite net cases = .ok failures) :
    ∃ verdicts, failures = verdicts.filterMap id ∧
      List.Forall₂ (Verdict suite net) cases verdicts := by
  induction cases generalizing failures with
  | nil =>
    cases h
    exact ⟨[], rfl, .nil⟩
  | cons case cases ih =>
    obtain ⟨subject, hsubject, h⟩ := exists_of_bind h
    obtain ⟨reason, hreason, h⟩ := exists_of_bind h
    obtain ⟨more, hmore, h⟩ := exists_of_bind h
    cases h
    obtain ⟨verdicts, rfl, hverdicts⟩ := ih hmore
    refine ⟨_ :: verdicts, ?_, .cons ⟨subject, reason, subject_eq_ok hsubject, hreason, rfl⟩
      hverdicts⟩
    cases reason <;> rfl

end Suite

/-- **Suites are verified by expressions.**  Where a suite is verified, all of its cases have been
    judged: a case is reported if nothing is expected and something is found, or if nothing is
    found, another pattern is, or a variable is not bound to what its expected text stands for. -/
theorem suites_are_verified_by_expressions {suite : Suite} {report : Report}
    (h : suite.verify = .ok report) :
    ∃ patterns verdicts, suite.compilePatterns = .ok patterns ∧
      report.failures = verdicts.filterMap id ∧
      List.Forall₂ (fun (case : Case) (verdict : Option Failure) =>
        ∃ subject, Term.parse case.subject = .ok subject ∧
          (∀ failure ∈ verdict, failure.subject = case.subject) ∧
          (case.Legible → (verdict.isSome = true ↔
            case.Fails ((Net.ofPatterns patterns).matches subject)))) suite.cases verdicts := by
  obtain ⟨patterns, hpatterns, h⟩ := exists_of_bind h
  obtain ⟨failures, hfailures, h⟩ := exists_of_bind h
  cases h
  obtain ⟨verdicts, hverdicts, hcases⟩ := Suite.exists_verdicts hfailures
  refine ⟨patterns, verdicts, hpatterns, hverdicts, hcases.imp fun case verdict hverdict => ?_⟩
  obtain ⟨subject, reason, hsubject, hreason, rfl⟩ := hverdict
  refine ⟨subject, hsubject, ?_, fun hcase => ?_⟩
  · intro failure hfailure
    obtain ⟨text, -, rfl⟩ := Option.map_eq_some_iff.mp hfailure
    rfl
  · rw [Option.isSome_map]
    refine Suite.isSome_mismatch?_iff hreason hcase fun m hm x b hb => ?_
    exact parsed_of_mem_matches (compiled_of_compilePatterns hpatterns)
      (Term.parsed_of_parse hsubject) hm hb

/-- A suite with texts that are not written as they are printed, and a case that fails. -/
def rewritten : Suite where
  name := "rewritten"
  patterns := [{ pattern := "f(x_, y__)" }]
  cases := [
    { subject := "f(a + b, 1, 2)",
      expect := some { pattern := 0, bindings := .ofList [("x", " b+a"), ("y", "[1, 2]")] } },
    { subject := "f(a)", expect := some { pattern := 0 } }]

/-- Reading a text succeeds if it gives a term. -/
theorem parse_of_toOption {text : String} {t : Term} (h : (Term.parse text).toOption = some t) :
    Term.parse text = .ok t := by
  cases hread : Term.parse text with
  | error cause =>
    rw [hread] at h
    cases h
  | ok found =>
    rw [hread] at h
    exact congrArg _ (Option.some.inj h)

/-- The texts of both cases stand for terms and sequences. -/
theorem legible_of_mem_rewritten : ∀ case ∈ rewritten.cases, case.Legible := by
  have hnumbers : ∀ t ∈ [Term.integer 1, .integer 2], Term.parse t.text = .ok t :=
    List.forall_mem_cons.mpr ⟨parse_of_toOption (by decide +kernel),
      List.forall_mem_singleton.mpr (parse_of_toOption (by decide +kernel))⟩
  have hsum : Term.parse " b+a" =
      .ok (.build .sum [.symbol { name := "a" }, .symbol { name := "b" }]) :=
    parse_of_toOption (by decide +kernel)
  have hlist : StandsFor "[1, 2]" (.sequence [.integer 1, .integer 2]) := by
    have htext : (Binding.sequence [.integer 1, .integer 2]).text = "[1, 2]" := by decide +kernel
    exact htext ▸ .sequence hnumbers
  refine List.forall_mem_cons.mpr ⟨?_, List.forall_mem_singleton.mpr ?_⟩
  · rintro expected ⟨⟩
    exact List.forall_mem_cons.mpr ⟨⟨_, .single hsum⟩, List.forall_mem_singleton.mpr ⟨_, hlist⟩⟩
  · rintro expected ⟨⟩
    nofun

/-- A suite with texts that are not written as they are printed reports the case that fails, and
    only it. -/
theorem rewritten_suites_are_verified :
    ∃ report patterns verdicts, rewritten.verify = .ok report ∧
      (∀ case ∈ rewritten.cases, case.Legible) ∧
      report.failures.map Failure.subject = ["f(a)"] ∧
      rewritten.compilePatterns = .ok patterns ∧ report.failures = verdicts.filterMap id ∧
      List.Forall₂ (fun (case : Case) (verdict : Option Failure) =>
        ∃ subject, Term.parse case.subject = .ok subject ∧
          (∀ failure ∈ verdict, failure.subject = case.subject) ∧
          (case.Legible → (verdict.isSome = true ↔
            case.Fails ((Net.ofPatterns patterns).matches subject)))) rewritten.cases verdicts := by
  obtain ⟨report, hverify, hfailures⟩ := Code.exists_of_map_toOption (b := ["f(a)"])
    (show rewritten.verify.toOption.map (fun report => report.failures.map Failure.subject) =
      some ["f(a)"] by decide +kernel)
  obtain ⟨patterns, verdicts, hpatterns, hverdicts, hcases⟩ :=
    suites_are_verified_by_expressions hverify
  exact ⟨report, patterns, verdicts, hverify, legible_of_mem_rewritten, hfailures, hpatterns,
    hverdicts, hcases⟩

/-- A suite that expects a list without blanks. -/
def unspaced : Suite where
  name := "unspaced"
  patterns := [{ pattern := "f(x__)" }]
  cases := [
    { subject := "f(a, b)",
      expect := some { pattern := 0, bindings := .ofList [("x", "[a,b]")] } }]

/-- **A list that is not written as it is printed** is reported, although its elements are what the
    variable is bound to. -/
theorem unspaced_lists_are_reported :
    ∃ report patterns subject σ a b, unspaced.verify = .ok report ∧
      unspaced.compilePatterns = .ok patterns ∧ Term.parse "f(a, b)" = .ok subject ∧
      (Net.ofPatterns patterns).matches subject = [(0, σ)] ∧
      σ.find? "x" = some (.sequence [a, b]) ∧ Term.parse "a" = .ok a ∧ Term.parse "b" = .ok b ∧
      report.failures.map Failure.subject = ["f(a, b)"] := by
  obtain ⟨report, hverify, hfailures⟩ := Code.exists_of_map_toOption (b := ["f(a, b)"])
    (show unspaced.verify.toOption.map (fun report => report.failures.map Failure.subject) =
      some ["f(a, b)"] by decide +kernel)
  let a : Term := .symbol { name := "a" }
  let b : Term := .symbol { name := "b" }
  have ha : Term.parse "a" = .ok a := parse_of_toOption (by decide +kernel)
  have hb : Term.parse "b" = .ok b := parse_of_toOption (by decide +kernel)
  have hsubject : Term.parse "f(a, b)" = .ok (.node { name := "f", kind := .plain } [a, b]) :=
    parse_of_toOption (by decide +kernel)
  obtain ⟨patterns, hpatterns, hmatches⟩ :=
    Code.exists_of_map_toOption (b := [(0, NameMap.ofList [("x", Binding.sequence [a, b])])])
      (show unspaced.compilePatterns.toOption.map (fun patterns => (Net.ofPatterns patterns).matches
        (.node { name := "f", kind := .plain } [a, b])) = _ by decide +kernel)
  exact ⟨report, patterns, _, _, a, b, hverify, hpatterns, hsubject, hmatches, rfl, ha, hb,
    hfailures⟩

end TermNet
