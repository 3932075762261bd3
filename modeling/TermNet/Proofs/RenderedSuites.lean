import TermNet.Suite.Emission
import TermNet.Proofs.Code.Written
import TermNet.Proofs.Emission
import TermNet.Proofs.Source.Blanks
import TermNet.Proofs.Source.Scanned

namespace TermNet

open TermNet.Source

/-!
# The files of suites

The file of a suite begins with a comment that lists its patterns, each as it is written in the
suite.  The comment ends where a line does, so what the file is read as depends on the lines of
the patterns: behind the first one, no line may hold anything but blanks or another comment.

* `Code.legible_of_generate`, `Suite.legible_testTokens` — modules and tests are legible;
* `Suite.forall_linesOf_listing` — the lines in front of a module;
* `rendered_suites_are_read` — the tokens of a file.
-/

/-! ### Modules -/

/-- **Emitted modules are legible.** -/
theorem Code.legible_of_generate {functionName : String} {net : Net}
    {generated : GeneratedModule} (hformed : net.Formed) (hplain : net.Plain Check.IsBuiltin)
    (h : generate functionName net = .ok generated) : Legible generated.code.tokens := by
  have hname := isWord_of_identifier? (identifier_of_generate h)
  obtain ⟨name, main, emission, -, hemits, rfl⟩ := emits_of_generate h
  obtain rfl := name_of_emits hemits
  obtain ⟨hmain, hitems⟩ := legible_emitNet hformed hplain hname
    (isPlainWord_withoutRawMark hname) hemits fun _ hitem => absurd hitem List.not_mem_nil
  rw [Module.tokens, List.append_assoc]
  exact legible_preamble.append ((legible_flatMap hitems).append hmain)

namespace Suite

open Code

variable {suite : Suite} {settings : Settings} {text : String} {tests : List Token}

/-- The patterns of a suite yield a legible module. -/
theorem legible_of_compile {compiled : Compiled} (h : suite.compile settings = .ok compiled) :
    Legible compiled.generated.code.tokens ∧
      IsWordText compiled.generated.code.main.name := by
  obtain ⟨patterns, hpatterns, h⟩ := PatternTerm.exists_of_bind h
  dsimp only at h
  split at h
  · rename_i generated hgenerate
    cases h
    have hplain : ∀ p ∈ patterns, p.Plain Check.IsBuiltin :=
      fun p hp => (compiled_of_compilePatterns hpatterns p hp).plain
    exact ⟨legible_of_generate (Net.formed_ofPatterns patterns) (Net.plain_ofPatterns hplain)
      hgenerate, isWord_of_identifier? (identifier_of_generate hgenerate)⟩
  · cases h

/-! ### Tests -/

attribute [local simp] separated commas callOf callPath method ref ended letTokens typed
  invocation attributeTokens firstResult functionTokens

/-- The test of one binding. -/
theorem legible_bindingTest (name value : String) : Legible (bindingTest name value) := by
  simp [bindingTest]

/-- The tests of a case, whatever it expects. -/
theorem legible_caseChecks {name : String} {case : Case} (h : caseChecks name case = .ok tests) :
    Legible tests := by
  unfold caseChecks at h
  split at h
  · cases h
    simp [noMatchTest]
  · rename_i expected _
    cases hbindings : expected.renderedBindings name with
    | error error =>
      rw [hbindings] at h
      cases h
    | ok bindings =>
      rw [hbindings] at h
      cases h
      simp [matchTests, legible_flatMap, legible_bindingTest]

/-- The tests of all cases, by induction on them. -/
theorem legible_caseTests {name function : String} (hfunction : IsWordText function)
    {position : Nat} {cases : List Case}
    (h : caseTests name function position cases = .ok tests) : Legible tests := by
  induction cases generalizing position tests with
  | nil =>
    cases h
    exact .nil
  | cons case rest ih =>
    obtain ⟨first, hfirst, h⟩ := PatternTerm.exists_of_bind h
    obtain ⟨later, hlater, h⟩ := PatternTerm.exists_of_bind h
    cases h
    obtain ⟨subject, -, hfirst⟩ := PatternTerm.exists_of_bind hfirst
    obtain ⟨checks, hchecks, hfirst⟩ := PatternTerm.exists_of_bind hfirst
    cases hfirst
    have hname : IsWordText ("case_" ++ position.repr) :=
      isWordText_numbered (by decide) position
    simp [hname, hfunction, legible_ofTerm, legible_caseChecks hchecks, ih hlater]

/-- **Test modules are legible.** -/
theorem legible_testTokens {function : String} (hfunction : IsWordText function)
    (h : suite.testTokens function = .ok tests) : Legible tests := by
  obtain ⟨found, hfound, h⟩ := PatternTerm.exists_of_bind h
  cases h
  simp [legible_caseTests hfunction hfound]

/-! ### Listings -/

/-- The lines of a text. -/
def linesOf (text : String) : List (List Char) := text.toList.splitOn '\n'

/-- What a listing has in front of a pattern. -/
def label (index : Nat) : List Char := "//   ".toList ++ (Nat.toDigits 10 index ++ ": ".toList)

/-- The lines that begin every listing. -/
def firstLines : List (List Char) :=
  [header.toList, "//".toList, "// Decision tree matching patterns:".toList]

/-- A line behind two slashes and a blank is a comment, whatever is on it. -/
theorem isComment_of_blank (line : List Char) (h : '\n' ∉ line) :
    IsComment ('/' :: '/' :: ' ' :: line) :=
  ⟨List.prefix_append _ _, by simp, by simpa using h⟩

/-- The first line of a module is a comment. -/
theorem isComment_header : IsComment header.toList := by
  rw [header, String.toList_ofList]
  decide

/-- The lines in front of the patterns are comments. -/
theorem isComment_of_mem_firstLines : ∀ line ∈ firstLines, IsComment line := by
  rw [firstLines, List.forall_mem_cons, String.toList_ofList, String.toList_ofList]
  exact ⟨isComment_header, List.all_iff_forall_prop.mp (by decide)⟩

/-- The number of a pattern has no line break. -/
theorem newline_not_mem_label (index : Nat) : '\n' ∉ label index := by
  have hdigits : '\n' ∉ Nat.toDigits 10 index := fun h =>
    absurd (Nat.isDigit_of_mem_toDigits (by decide) (by decide) h) (by decide)
  simpa [label] using hdigits

/-- The first line of a pattern belongs to the comment. -/
theorem isComment_label (index : Nat) {line : List Char} (h : '\n' ∉ line) :
    IsComment (label index ++ line) :=
  isComment_of_blank (' ' :: ' ' :: (Nat.toDigits 10 index ++ ": ".toList ++ line))
    (by simpa [label, h] using newline_not_mem_label index)

/-- The lines of texts, each with a line break behind it. -/
theorem splitOn_flatMap (texts : List (List Char)) :
    (texts.flatMap (· ++ ['\n'])).splitOn '\n' = texts.flatMap (·.splitOn '\n') ++ [[]] := by
  induction texts with
  | nil => rfl
  | cons text texts ih =>
    rw [List.flatMap_cons, List.flatMap_cons, List.append_assoc, List.append_assoc,
      List.singleton_append, List.splitOn_append_cons_self, ih]

/-- A module begins with a slash, and so with no mark of the byte order. -/
theorem head?_listing (suite : Suite) (rest : String) :
    (suite.listing ++ "\n" ++ rest).toList.head? = some '/' := by
  rw [listing, String.append_assoc, String.append_assoc, String.append_assoc, String.toList_append]
  exact isComment_header.head?_append _

/-- The listing of a suite: its first lines, and each pattern behind its number. -/
theorem toList_listing (suite : Suite) : suite.listing.toList =
    (firstLines ++ suite.patterns.zipIdx.map fun entry =>
      label entry.2 ++ entry.1.pattern.toList).flatMap (· ++ ['\n']) := by
  have hlines : "\n//\n// Decision tree matching patterns:\n" =
      String.ofList ['\n'] ++ "//" ++ String.ofList ['\n'] ++
        "// Decision tree matching patterns:" ++ String.ofList ['\n'] := rfl
  rw [listing, hlines]
  simp only [firstLines, label, Nat.toString_eq_repr, String.toList_append, String.toList_ofList,
    String.toList_join, Nat.toList_repr, List.flatMap_append, List.flatMap_cons, List.flatMap_nil,
    List.flatMap_map, List.append_assoc, List.append_nil]
  rfl

/-- **The lines of a listing:** each but the first of a pattern is a line of the pattern. -/
theorem forall_linesOf_listing {P : List Char → Prop} (hcomment : ∀ line, IsComment line → P line)
    (hempty : P []) : (∀ line ∈ linesOf suite.listing, P line) ↔
      ∀ spec ∈ suite.patterns, ∀ line ∈ (linesOf spec.pattern).tail, P line := by
  -- The label makes a comment of the first line, and of no other one.
  have hentry (entry : PatternSpec × Nat) :
      (∀ line ∈ (label entry.2 ++ entry.1.pattern.toList).splitOn '\n', P line) ↔
        ∀ line ∈ (linesOf entry.1.pattern).tail, P line := by
    rw [splitOn_append_of_not_mem (newline_not_mem_label entry.2), linesOf]
    obtain ⟨first, others, hsplit⟩ :=
      List.exists_cons_of_ne_nil (List.splitOn_ne_nil '\n' entry.1.pattern.toList)
    have hfirst : '\n' ∉ first := newline_not_mem_of_mem (hsplit ▸ List.mem_cons_self)
    rw [hsplit, List.modifyHead_cons, List.forall_mem_cons, List.tail_cons]
    exact and_iff_right (hcomment _ (isComment_label entry.2 hfirst))
  have hfirstLines : firstLines.flatMap (·.splitOn '\n') = firstLines :=
    (List.flatMap_congr fun line hline =>
      splitOn_eq_singleton (isComment_of_mem_firstLines line hline).one_line).trans (by simp)
  have hpatterns :
      (∀ entry ∈ suite.patterns.zipIdx, ∀ line ∈ (linesOf entry.1.pattern).tail, P line)
      ↔ ∀ spec ∈ suite.patterns, ∀ line ∈ (linesOf spec.pattern).tail, P line := by
    conv_rhs => rw [← List.zipIdx_map_fst 0 suite.patterns, List.forall_mem_map]
  rw [linesOf, toList_listing, splitOn_flatMap, List.flatMap_append, hfirstLines, ← hpatterns]
  simp only [List.forall_mem_append, List.forall_mem_singleton, List.forall_mem_flatMap,
    List.forall_mem_map, hentry]
  exact ⟨fun h => h.1.2, fun h => ⟨⟨fun line hline =>
    hcomment line (isComment_of_mem_firstLines line hline), h⟩, hempty⟩⟩

/-! ### Files -/

/-- The tests of a suite are these, or there are none because they are not asked for. -/
def Tests (suite : Suite) (settings : Settings) (compiled : Compiled) (tests : List Token) : Prop :=
  if settings.emitTests then suite.testTokens compiled.generated.code.main.name = .ok tests
  else tests = []

/-- **What a file is made of:** the listing, and behind it the tokens of the module and those of
    its tests. -/
theorem exists_of_render (h : suite.render settings = .ok text) :
    ∃ compiled tests after found, suite.compile settings = .ok compiled ∧
      suite.Tests settings compiled tests ∧
      text = suite.listing ++ "\n" ++ (compiled.generated.code.text ++ after) ∧
      lexemes? (compiled.generated.code.text ++ after).toList = some found ∧
      Nests found (compiled.generated.code.tokens ++ tests) := by
  have hmodule : suite.hasModuleName = true := by
    cases hname : suite.hasModuleName with
    | false =>
      rw [render, hname] at h
      cases h
    | true => rfl
  simp only [render, hmodule, Bool.not_true, Bool.false_eq_true, if_false] at h
  obtain ⟨compiled, hcompiled, h⟩ := PatternTerm.exists_of_bind h
  obtain ⟨hcode, hname⟩ := legible_of_compile hcompiled
  unfold Tests
  -- The tokens of a text follow those of its parts from the last part to the first.
  cases htests : settings.emitTests with
  | false =>
    rw [htests] at h
    cases h
    obtain ⟨found, hfound, hnests⟩ := hcode.lexemes?_append lexemes?_nil
    refine ⟨compiled, [], "\n", _, hcompiled, rfl, String.append_assoc .., ?_,
      hnests.append (nests_map_token [])⟩
    simpa [Module.text, charsOf] using hfound
  | true =>
    rw [htests] at h
    obtain ⟨tests, htokens, h⟩ := PatternTerm.exists_of_bind h
    cases h
    obtain ⟨later, hlater, hnestsLater⟩ :=
      (legible_testTokens hname htokens).lexemes?_append lexemes?_nil
    obtain ⟨found, hfound, hnests⟩ :=
      hcode.lexemes?_append (lexemes?_blank (c := '\n') (by decide) hlater)
    refine ⟨compiled, tests, "\n\n" ++ printTokens tests ++ "\n", _, hcompiled, htokens, ?_, ?_,
      hnests.append hnestsLater⟩
    · rw [← String.toList_inj]
      simp
    · simpa [Module.text, charsOf] using hfound

end Suite

open Suite

/-- **Files are read as their matchers and tests.**  Behind the first line of each pattern there
    shall be nothing but blanks and comments.  Then all lines in front of the module are blank or
    comments, and the tokens of the file are those of the module and those of the tests. -/
theorem rendered_suites_are_read {suite : Suite} {settings : Settings} {text : String}
    (h : suite.render settings = .ok text)
    (hlines : ∀ spec ∈ suite.patterns, ∀ line ∈ (linesOf spec.pattern).tail, IsPassedOver line) :
    ∃ compiled tests after, suite.compile settings = .ok compiled ∧
      suite.Tests settings compiled tests ∧
      text = suite.listing ++ "\n" ++ (compiled.generated.code.text ++ after) ∧
      (∀ line ∈ linesOf suite.listing,
        (∀ c ∈ line, isBlank c = true) ∨ "//".toList <+: line) ∧
      tokens? text = some (compiled.generated.code.tokens ++ tests) := by
  obtain ⟨compiled, tests, after, found, hcompiled, htests, htext, hfound, hnests⟩ :=
    exists_of_render h
  have hpassed : ∀ line ∈ linesOf suite.listing, IsPassedOver line :=
    (forall_linesOf_listing (fun _ => .inr) (.inl (by simp))).mpr hlines
  refine ⟨compiled, tests, after, hcompiled, htests, htext, fun line hline =>
    (hpassed line hline).imp_right IsComment.slashes, hnests.tokens?_eq ?_ ?_⟩
  · have hall := lexemes?_lines hpassed hfound
    simpa [htext] using hall
  · rw [htext, head?_listing]
    decide

/-- A suite with a comment behind a pattern. -/
def remarked : Suite where
  name := "remarked"
  patterns := [{ pattern := "f(x_)\n// a call\n" }]
  cases := [⟨"f(a)", some { pattern := 0 }⟩]

/-- A pattern with a comment of its own on a second line: all lines behind the first one are passed
    over, and the text of the suite is read as its module and its tests. -/
theorem rendered_suites_are_read_with_remarks :
    ∃ text compiled tests, remarked.render {} = .ok text ∧
      (∀ spec ∈ remarked.patterns, ∀ line ∈ (linesOf spec.pattern).tail, IsPassedOver line) ∧
      remarked.compile {} = .ok compiled ∧ remarked.Tests {} compiled tests ∧
      tokens? text = some (compiled.generated.code.tokens ++ tests) := by
  obtain ⟨text, hrender, -⟩ := Code.exists_of_map_toOption (b := ())
    (show (remarked.render {}).toOption.map (fun _ => ()) = some () by decide +kernel)
  have hlines : ∀ spec ∈ remarked.patterns, ∀ line ∈ (linesOf spec.pattern).tail,
      IsPassedOver line := by decide +kernel
  obtain ⟨compiled, tests, -, hcompiled, htests, -, -, htokens⟩ :=
    rendered_suites_are_read hrender hlines
  exact ⟨text, compiled, tests, hrender, hlines, hcompiled, htests, htokens⟩

/-- A suite with a pattern on two lines. -/
def broken : Suite := { name := "broken", patterns := [{ pattern := "x_ +\ny_" }] }

/-- **A pattern on two lines leaves the comment,** and its second line stands in front of the
    module. -/
theorem listings_leave_comments :
    ∃ text compiled tests, broken.render {} = .ok text ∧ broken.compile {} = .ok compiled ∧
      broken.Tests {} compiled tests ∧
      (∃ line ∈ linesOf broken.listing,
        ¬ ((∀ c ∈ line, isBlank c = true) ∨ "//".toList <+: line)) ∧
      tokens? text = some (.word "y_" :: (compiled.generated.code.tokens ++ tests)) := by
  obtain ⟨text, hrender, -⟩ := Code.exists_of_map_toOption (b := ())
    (show (broken.render {}).toOption.map (fun _ => ()) = some () by decide +kernel)
  obtain ⟨compiled, tests, after, found, hcompiled, htests, htext, hfound, hnests⟩ :=
    exists_of_render hrender
  refine ⟨text, compiled, tests, hrender, hcompiled, htests, ?_,
    ((nests_token _).append hnests).tokens?_eq ?_ (by rw [htext, head?_listing]; decide)⟩
  · by_contra hnone
    have hall := (forall_linesOf_listing (fun _ h => .inr h.slashes) (.inl (by simp))).mp
      fun line hline => not_not.mp fun hnot => hnone ⟨line, hline, hnot⟩
    have hsecond := hall _ (List.mem_singleton_self _) "y_".toList (by decide +kernel)
    exact absurd hsecond (not_or.mpr ⟨by simp [isBlank], by decide⟩)
  · -- the comment ends before the second line of the pattern
    have hlisting : broken.listing.toList =
        (firstLines ++ [label 0 ++ "x_ +".toList]).flatMap (· ++ ['\n']) ++
          ("y_".toList ++ ['\n']) := by
      rw [toList_listing]
      simp [broken]
    have hcomment : ∀ line ∈ firstLines ++ [label 0 ++ "x_ +".toList], IsPassedOver line :=
      List.forall_mem_append.mpr ⟨fun line hline => .inr (isComment_of_mem_firstLines line hline),
        List.forall_mem_singleton.mpr (.inr (isComment_label 0 (by decide)))⟩
    have hblank := lexemes?_blank (c := '\n') (by decide)
      (lexemes?_blank (c := '\n') (by decide) hfound)
    have hsecond : lexemes? ("y_".toList ++
        '\n' :: '\n' :: (compiled.generated.code.text ++ after).toList) =
          some (.token (.word "y_") :: found) :=
      (lexemes?_word (by decide +kernel) (separated_cons (by decide)).apart).trans
        (congrArg _ hblank)
    have hall := lexemes?_flatMap hcomment hsecond
    simpa [htext, hlisting] using hall

end TermNet
