import Mathlib.Data.List.Forall2
import Mathlib.Data.List.Nodup
import TermNet.Proofs.Directory
import TermNet.Proofs.RenderedSuites

namespace TermNet

open TermNet.Source
open Text (withoutRawMark)

/-!
# The files of emitted suites

Each suite is written to a file of its own, and the module of each is declared once.  For this
the modules must have different names, and the names have to be those of files in one folder:
what is accepted as an identifier may come with blanks and comments, and a comment has slashes.

* `lexemes?_declaration`, `tokens?_indexText` — what the file that declares the modules holds;
* `stored_of_emission` — what emitting one suite does to a directory;
* `stored_of_emitAll` — what emitting all of them does;
* `emitted_suites_are_kept` — the files of a directory afterwards.
-/

/-! ### Declarations of modules -/

/-- The tokens that declare a module. -/
def moduleDeclaration (name : String) : List Token :=
  [.word "pub", .word "mod", .word name, .mark ';' false]

namespace Suite

/-- The module that a suite becomes: the identifier that its name is. -/
def module? (suite : Suite) : Option String := (identifier? suite.name).map withoutRawMark

/-- The name of a suite is that of a file, and there is no mark of the byte order before it. -/
structure HasFileName (suite : Suite) : Prop where
  no_slash : '/' ∉ suite.name.toList
  no_mark : suite.name.toList.head? ≠ some '\ufeff'

instance (suite : Suite) : Decidable suite.HasFileName :=
  decidable_of_iff ('/' ∉ suite.name.toList ∧ suite.name.toList.head? ≠ some '\ufeff')
    ⟨fun h => ⟨h.1, h.2⟩, fun h => ⟨h.1, h.2⟩⟩

end Suite

variable {suite : Suite} {suites : List Suite} {settings : Settings}

/-- The lexemes of the declaration of a module, and of whatever is behind it. -/
theorem lexemes?_declaration {w : String} {rest : List Char} {found : List Lexeme}
    (hname : Spaced suite.name.toList w.toList) (hrest : lexemes? rest = some found) :
    lexemes? (suite.declaration.toList ++ rest) =
      some ((moduleDeclaration w).map .token ++ found) := by
  have hend : lexemes? (';' :: '\n' :: rest) = some (.token (.mark ';' false) :: found) := by
    rw [lexemes?_mark (by decide), lexemes?_blank (by decide) hrest]
    rfl
  have hmodule := hname.lexemes?_append (separated_cons (by decide)).apart hend
  have hkeyword (keyword : String) (hword : IsWord keyword.toList) {more : List Char}
      {after : List Lexeme} (hmore : lexemes? more = some after) :
      lexemes? (keyword.toList ++ ' ' :: more) = some (.token (.word keyword) :: after) := by
    rw [lexemes?_word hword (separated_cons (by decide)).apart,
      lexemes?_blank (by decide) hmore, String.ofList_toList]
    rfl
  have htext : suite.declaration.toList ++ rest =
      "pub".toList ++
        ' ' :: ("mod".toList ++ ' ' :: (suite.name.toList ++ ';' :: '\n' :: rest)) := by
    simp [Suite.declaration]
  rw [htext, hkeyword "pub" (by decide +kernel) (hkeyword "mod" (by decide +kernel) hmodule),
    String.ofList_toList]
  rfl

/-- **The file that declares all modules** declares them one after the other. -/
theorem tokens?_indexText (word : Suite → String)
    (hnames : ∀ suite ∈ suites, Spaced suite.name.toList (word suite).toList) :
    tokens? (indexText suites) = some ((suites.map word).flatMap moduleDeclaration) := by
  have hdeclarations : lexemes? (String.join (suites.map Suite.declaration)).toList =
      some (((suites.map word).flatMap moduleDeclaration).map .token) := by
    induction suites with
    | nil => exact lexemes?_nil
    | cons suite suites ih =>
      rw [List.forall_mem_cons] at hnames
      have hhead := lexemes?_declaration hnames.1 (ih hnames.2)
      simpa using hhead
  have htext : (indexText suites).toList = Suite.header.toList ++
      '\n' :: '\n' :: (String.join (suites.map Suite.declaration)).toList := by
    simp [indexText]
  refine (nests_map_token _).tokens?_eq ?_
    (by rw [htext, Suite.isComment_header.head?_append]; decide)
  rw [htext, lexemes?_comment Suite.isComment_header (lexemes?_blank (by decide) hdeclarations)]

/-! ### Emitting -/

section Emitting

open Directory Script

variable {dir dir' : Directory} {text : String}

/-- A suite that is rendered has an identifier as its name. -/
theorem exists_identifier_of_render (h : suite.render settings = .ok text) :
    ∃ w, identifier? suite.name = some w := by
  unfold Suite.render at h
  cases hname : suite.hasModuleName with
  | false =>
    rw [hname] at h
    cases h
  | true => exact Option.isSome_iff_exists.mp hname

/-- **Emitting one suite** stores its text where its path leads. -/
theorem stored_of_emission (hformat : settings.formatOutput = false)
    (h : Script.Leads (suite.emission settings) dir dir') : ∃ names text,
      suite.render settings = .ok text ∧ dir'.target? (suite.path settings) = some names ∧
        Stored [(names, text)] dir dir' := by
  unfold Suite.emission at h
  cases hrender : suite.render settings with
  | error error =>
    rw [hrender] at h
    exact absurd h not_leads_fail
  | ok text =>
    simp only [hrender, hformat, Bool.false_eq_true, if_false, List.append_nil, leads_makeFolders,
      leads_write, leads_nil] at h
    obtain ⟨made, hmade, written, hwrite, rfl⟩ := h
    obtain ⟨names, htarget, hstored⟩ := stored_of_write? hwrite
    exact ⟨names, text, rfl, target?_mono hstored.folders htarget,
      (grown_of_makeFolders? hmade).stored.trans hstored⟩

/-- The file holds the text of the suite, and lies where its path leads. -/
def FileOf (settings : Settings) (dir : Directory) (suite : Suite)
    (file : List String × String) : Prop :=
  suite.render settings = .ok file.2 ∧ dir.target? (suite.path settings) = some file.1

/-- Each suite has its file among those that are written. -/
theorem exists_file_of_mem {written : List (List String × String)}
    (h : List.Forall₂ (FileOf settings dir) suites written) (hsuite : suite ∈ suites) :
    ∃ file ∈ written, FileOf settings dir suite file := by
  induction h with
  | nil => cases hsuite
  | @cons first file suites written hfile _ ih =>
    rcases List.mem_cons.mp hsuite with rfl | hsuite
    · exact ⟨file, List.mem_cons_self, hfile⟩
    · obtain ⟨other, hmem, hother⟩ := ih hsuite
      exact ⟨other, List.mem_cons_of_mem _ hmem, hother⟩

/-- Each file that is written is that of a suite. -/
theorem exists_suite_of_mem {written : List (List String × String)} {file : List String × String}
    (h : List.Forall₂ (FileOf settings dir) suites written) (hfile : file ∈ written) :
    ∃ suite ∈ suites, FileOf settings dir suite file := by
  induction h with
  | nil => cases hfile
  | @cons suite first suites written hsuite _ ih =>
    rcases List.mem_cons.mp hfile with rfl | hfile
    · exact ⟨suite, List.mem_cons_self, hsuite⟩
    · obtain ⟨other, hmem, hother⟩ := ih hfile
      exact ⟨other, List.mem_cons_of_mem _ hmem, hother⟩

/-- Emitting suites one after the other writes their files in this order, and nothing else. -/
theorem stored_of_emissions (hformat : settings.formatOutput = false)
    (h : Script.Leads (suites.flatMap (Suite.emission settings)) dir dir') :
    ∃ written, List.Forall₂ (FileOf settings dir') suites written ∧ Stored written dir dir' := by
  induction suites generalizing dir with
  | nil =>
    rw [List.flatMap_nil, leads_nil] at h
    exact ⟨[], .nil, h ▸ (Grown.refl dir).stored⟩
  | cons suite suites ih =>
    rw [List.flatMap_cons, Script.leads_append] at h
    obtain ⟨mid, hsuite, hsuites⟩ := h
    obtain ⟨names, text, hrender, htarget, hstored⟩ := stored_of_emission hformat hsuite
    obtain ⟨written, hfiles, hmore⟩ := ih hsuites
    exact ⟨(names, text) :: written,
      .cons ⟨hrender, target?_mono hmore.folders htarget⟩ hfiles, hstored.trans hmore⟩

/-- **Emitting all suites** stores their texts, and then the declarations. -/
theorem stored_of_emitAll (hformat : settings.formatOutput = false)
    (h : Script.Leads (emitAll suites settings) dir dir') : ∃ written names,
      List.Forall₂ (FileOf settings dir') suites written ∧
        dir'.target? (indexPath settings) = some names ∧
          Stored (written ++ [(names, indexText suites)]) dir dir' := by
  rw [emitAll, Script.leads_append] at h
  obtain ⟨mid, hsuites, hindex⟩ := h
  simp only [leads_makeFolders, leads_write, leads_nil] at hindex
  obtain ⟨made, hmade, index, hwrite, rfl⟩ := hindex
  obtain ⟨names, htarget, hstored⟩ := stored_of_write? hwrite
  have hgrown := grown_of_makeFolders? hmade
  obtain ⟨written, hfiles, hwritten⟩ := stored_of_emissions hformat hsuites
  refine ⟨written, names, hfiles.imp fun suite file hfile => ⟨hfile.1, ?_⟩,
    target?_mono hstored.folders htarget, hwritten.trans (hgrown.stored.trans hstored)⟩
  exact target?_mono hstored.folders (target?_mono hgrown.folders hfile.2)

/-! ### Different files -/

/-- All files lie in one folder, named after their suites. -/
theorem places_of_files {names : List String} {written : List (List String × String)}
    (hnames : ∀ suite ∈ suites, suite.HasFileName)
    (hfiles : List.Forall₂ (FileOf settings dir) suites written)
    (hindex : dir.target? (indexPath settings) = some names) :
    ∃ place, names = place ++ ["mod.rs"] ∧
      written.map Prod.fst = suites.map fun suite => place ++ [suite.name ++ ".rs"] := by
  obtain ⟨place, hplace, rfl⟩ := target?_join (by decide) (by decide) hindex
  refine ⟨place, rfl, ?_⟩
  induction hfiles with
  | nil => rfl
  | @cons suite file suites written hfile _ ih =>
    rw [List.forall_mem_cons] at hnames
    obtain ⟨place', hplace', hfirst⟩ := target?_join (by simp) (by simp [hnames.1.no_slash]) hfile.2
    rw [hplace] at hplace'
    cases hplace'
    rw [List.map_cons, List.map_cons, ih hnames.2, hfirst]

/-- No file of a suite is that of the index, since `mod` is no identifier. -/
theorem not_mod_of_render (h : suite.render settings = .ok text) :
    suite.name ++ ".rs" ≠ "mod.rs" := by
  intro heq
  have hname : suite.name = "mod" := (String.append_left_inj ".rs").mp heq
  have hkeyword : identifier? "mod" = none := by decide +kernel
  obtain ⟨w, hw⟩ := exists_identifier_of_render h
  rw [hname, hkeyword] at hw
  cases hw

/-- Suites of different modules are written to different files. -/
theorem nodup_places {place : List String} {written : List (List String × String)}
    (hmodules : (suites.map Suite.module?).Nodup)
    (hfiles : List.Forall₂ (FileOf settings dir) suites written)
    (hplaces : written.map Prod.fst = suites.map fun suite => place ++ [suite.name ++ ".rs"]) :
    ((written.map Prod.fst) ++ [place ++ ["mod.rs"]]).Nodup := by
  have hname : (suites.map Suite.name).Nodup := by
    refine List.Nodup.of_map (fun name => (identifier? name).map withoutRawMark) ?_
    rwa [List.map_map]
  have hinjective : Function.Injective fun name : String => place ++ [name ++ ".rs"] := by
    intro a b hab
    have hrs : a ++ ".rs" = b ++ ".rs" := by simpa using hab
    exact (String.append_left_inj ".rs").mp hrs
  have hmap : (suites.map fun suite => place ++ [suite.name ++ ".rs"]) =
      (suites.map Suite.name).map fun name => place ++ [name ++ ".rs"] := by
    rw [List.map_map]
    rfl
  rw [List.nodup_append, hplaces]
  refine ⟨hmap ▸ hname.map hinjective, by simp, ?_⟩
  -- no suite is named like the file of the declarations
  intro names hmem other hother heq
  obtain ⟨suite, hsuite, rfl⟩ := List.mem_map.mp hmem
  obtain ⟨file, -, hrender, -⟩ := exists_file_of_mem hfiles hsuite
  rw [List.mem_singleton.mp hother] at heq
  exact not_mod_of_render hrender (by simpa using heq)

/-- The modules of suites whose names are these identifiers. -/
theorem count_module {word : Suite → String}
    (hword : ∀ suite ∈ suites, identifier? suite.name = some (word suite))
    (hmodules : (suites.map Suite.module?).Nodup) (hsuite : suite ∈ suites) :
    suite.module? = some (withoutRawMark (word suite)) ∧
      ((suites.map word).map withoutRawMark).count (withoutRawMark (word suite)) = 1 := by
  have hmodule : ∀ suite ∈ suites, suite.module? = some (withoutRawMark (word suite)) :=
    fun suite hsuite => by rw [Suite.module?, hword suite hsuite]; rfl
  have hdistinct : ((suites.map word).map withoutRawMark).Nodup := by
    refine List.Nodup.of_map some ?_
    rw [List.map_map, List.map_map]
    exact (List.map_congr_left hmodule) ▸ hmodules
  exact ⟨hmodule suite hsuite, List.count_eq_one_of_mem hdistinct
    (List.mem_map_of_mem (List.mem_map_of_mem hsuite))⟩

/-- **The declarations** are those of words that name the modules, each module once. -/
theorem exists_declared_words {written : List (List String × String)}
    (hnames : ∀ suite ∈ suites, suite.HasFileName) (hmodules : (suites.map Suite.module?).Nodup)
    (hfiles : List.Forall₂ (FileOf settings dir) suites written) :
    ∃ words : List String, tokens? (indexText suites) = some (words.flatMap moduleDeclaration) ∧
      ∀ suite ∈ suites, ∃ name, suite.module? = some name ∧
        (words.map withoutRawMark).count name = 1 := by
  let word : Suite → String := fun suite => (identifier? suite.name).getD ""
  have hword : ∀ suite ∈ suites, identifier? suite.name = some (word suite) := by
    intro suite hsuite
    obtain ⟨file, -, hrender, -⟩ := exists_file_of_mem hfiles hsuite
    obtain ⟨w, hw⟩ := exists_identifier_of_render hrender
    simp [word, hw]
  have hspaced : ∀ suite ∈ suites, Spaced suite.name.toList (word suite).toList :=
    fun suite hsuite => spaced_of_identifier? (hword suite hsuite)
      (hnames suite hsuite).no_slash (hnames suite hsuite).no_mark
  exact ⟨suites.map word, tokens?_indexText word hspaced,
    fun suite hsuite => ⟨_, count_module hword hmodules hsuite⟩⟩

/-- Whatever is written is the file of a suite, or that of the declarations. -/
theorem exists_path_of_mem_written {written : List (List String × String)}
    {index names : List String} {text : String}
    (hfiles : List.Forall₂ (FileOf settings dir) suites written)
    (hindex : dir.target? (indexPath settings) = some index)
    (hmem : names ∈ (written ++ [(index, text)]).map Prod.fst) :
    ∃ path ∈ emittedPaths suites settings, dir.target? path = some names := by
  rw [List.map_append, List.mem_append] at hmem
  rcases hmem with hmem | hmem
  · obtain ⟨file, hfile, rfl⟩ := List.mem_map.mp hmem
    obtain ⟨suite, hsuite, -, htarget⟩ := exists_suite_of_mem hfiles hfile
    exact ⟨_, List.mem_append_left _ (List.mem_map_of_mem hsuite), htarget⟩
  · rw [List.map_cons, List.map_nil, List.mem_singleton] at hmem
    exact ⟨_, List.mem_append_right _ List.mem_cons_self, hmem ▸ hindex⟩

end Emitting

/-- **Every suite has its file, and its module is declared once;** all other files are as before.
    The names of the suites are those of files, and their modules are different. -/
theorem emitted_suites_are_kept (suites : List Suite) (settings : Settings)
    (dir after : Directory) (hformat : settings.formatOutput = false)
    (hnames : ∀ suite ∈ suites, suite.HasFileName)
    (hmodules : (suites.map Suite.module?).Nodup)
    (hrun : Script.Leads (emitAll suites settings) dir after) :
    (∀ suite ∈ suites, ∃ text, suite.render settings = .ok text ∧
      after.read? (suite.path settings) = some text) ∧
    (∃ (text : String) (names : List String), after.read? (indexPath settings) = some text ∧
      tokens? text = some (names.flatMap moduleDeclaration) ∧
      ∀ suite ∈ suites, ∃ name, suite.module? = some name ∧
        (names.map withoutRawMark).count name = 1) ∧
    ∀ place, (∀ path ∈ emittedPaths suites settings, after.target? path ≠ some place) →
      after.find? place = dir.find? place := by
  obtain ⟨written, index, hfiles, hindex, hstored⟩ := stored_of_emitAll hformat hrun
  -- The files of the suites are different, and none of them is that of the declarations.
  obtain ⟨place, rfl, hplaces⟩ := places_of_files hnames hfiles hindex
  have hnodup : ((written ++ [(place ++ ["mod.rs"], indexText suites)]).map Prod.fst).Nodup := by
    rw [List.map_append]
    exact nodup_places hmodules hfiles hplaces
  refine ⟨fun suite hsuite => ?_, ?_, fun names hnot => ?_⟩
  · obtain ⟨file, hmem, hrender, htarget⟩ := exists_file_of_mem hfiles hsuite
    refine ⟨file.2, hrender, ?_⟩
    rw [Directory.read?, htarget]
    exact hstored.find?_of_mem hnodup (List.mem_append_left _ hmem)
  · obtain ⟨words, htokens, hwords⟩ := exists_declared_words hnames hmodules hfiles
    refine ⟨indexText suites, words, ?_, htokens, hwords⟩
    rw [Directory.read?, hindex]
    exact hstored.find?_of_mem hnodup (List.mem_append_right _ List.mem_cons_self)
  · refine hstored.find?_of_not_mem fun hmem => ?_
    obtain ⟨path, hpath, htarget⟩ := exists_path_of_mem_written hfiles hindex hmem
    exact hnot path hpath htarget

/-- Two suites, one of them named by a raw identifier. -/
def rawAndPlain : List Suite := [
  { name := "a", patterns := [{ pattern := "x_" }] },
  { name := "r#as", patterns := [{ pattern := "f" }], cases := [⟨"f", some { pattern := 0 }⟩] }]

/-- Two suites, one of them with a raw identifier as its name, are kept beside an older file. -/
theorem emitted_suites_are_kept_beside_others :
    let before := Directory.ofFiles [("generated/old.rs", "")]
    let after := ((emitAll rawAndPlain {}).run before).directory
    (∀ suite ∈ rawAndPlain, ∃ text, suite.render {} = .ok text ∧
      after.read? (suite.path {}) = some text) ∧
    after.find? ["generated", "old.rs"] = some "" :=
  have hkept := emitted_suites_are_kept rawAndPlain {}
    (Directory.ofFiles [("generated/old.rs", "")])
    _ rfl (by decide +kernel) (by decide +kernel) ⟨by decide +kernel, rfl⟩
  ⟨hkept.1, (hkept.2.2 ["generated", "old.rs"] (by decide +kernel)).trans (by decide +kernel)⟩

/-- A suite with one pattern. -/
def namesake (pattern : String) : Suite := { name := "a", patterns := [{ pattern }] }

/-- **Of two suites with one name the first is lost,** and their module is declared twice. -/
theorem namesakes_are_lost :
    let outcome := (emitAll [namesake "x", namesake "y"] {}).run {}
    outcome.error.isNone = true ∧
    ((namesake "x").render {}).toOption.isSome = true ∧
    outcome.directory.read? ((namesake "x").path {}) ≠ ((namesake "x").render {}).toOption ∧
    outcome.directory.read? (indexPath {}) = some (indexText [namesake "x", namesake "y"]) ∧
    tokens? (indexText [namesake "x", namesake "y"]) =
      some (moduleDeclaration "a" ++ moduleDeclaration "a") := by
  have hspaced : Spaced "a".toList "a".toList :=
    spaced_of_identifier? (by decide +kernel) (by decide) (by decide)
  exact ⟨by decide +kernel, by decide +kernel, by decide +kernel, by decide +kernel,
    tokens?_indexText (fun _ => "a") (by simpa [namesake] using hspaced)⟩

end TermNet
