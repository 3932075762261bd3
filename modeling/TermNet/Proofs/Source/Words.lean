import Mathlib.Data.Bool.AllAny
import Mathlib.Data.List.TakeWhile
import TermNet.Source.Reader
import TermNet.Source.Lexer

namespace TermNet.Source

open TermNet.Text

/-!
# Words of the source language

A name is read back from a text if the name is one word and what follows cannot belong to it.

* `IsWord` — the texts that are one identifier or keyword;
* `isWord_of_scanWord?` — what is scanned as a word is one;
* `IsWord.scan_append` — a word is scanned as it is where it ends;
* `IsName`, `IsSegment` — the words that may be a path by themselves, or follow `::`.
-/

/-! ### Identifiers and keywords without a mark -/

/-- The texts that are an identifier or keyword without the mark `r#`. -/
def IsPlainWord (cs : List Char) : Prop := scanPlainWord? cs = some (cs, [])

/-- Whether a text is a word without a mark can be computed by scanning it. -/
instance (cs : List Char) : Decidable (IsPlainWord cs) :=
  inferInstanceAs (Decidable (scanPlainWord? cs = some (cs, [])))

/-- A word has a first character that may begin one, and others that may go on with it. -/
theorem isPlainWord_cons {c : Char} {rest : List Char} :
    IsPlainWord (c :: rest) ↔
      isIdentifierStart c = true ∧ ∀ d ∈ rest, isIdentifierRest d = true := by
  rw [IsPlainWord, scanPlainWord?]
  cases isIdentifierStart c <;> simp [List.takeWhile_eq_self_iff, List.dropWhile_eq_nil_iff]

/-- No word is empty. -/
theorem IsPlainWord.ne_nil {w : List Char} (h : IsPlainWord w) : w ≠ [] := by
  rintro rfl
  simp [IsPlainWord, scanPlainWord?] at h

/-- A word without a mark is scanned as it is, if what follows does not go on with it. -/
theorem IsPlainWord.scan_append {w rest : List Char} (h : IsPlainWord w)
    (hrest : ∀ c ∈ rest.head?, isIdentifierRest c = false) :
    scanPlainWord? (w ++ rest) = some (w, rest) := by
  cases w with
  | nil => exact absurd rfl h.ne_nil
  | cons c w =>
    obtain ⟨hc, hw⟩ := isPlainWord_cons.mp h
    rw [List.cons_append, scanPlainWord?, if_pos hc, List.takeWhile_append_of_pos hw,
      List.dropWhile_append_of_pos hw]
    cases rest with
    | nil => simp
    | cons d rest => simp [hrest d rfl]

/-- What is scanned as a word without a mark is one, and the rest follows it. -/
theorem isPlainWord_of_scan {cs w rest : List Char} (h : scanPlainWord? cs = some (w, rest)) :
    IsPlainWord w ∧ cs = w ++ rest := by
  cases cs with
  | nil => simp [scanPlainWord?] at h
  | cons c cs =>
    rw [scanPlainWord?] at h
    split at h
    · rename_i hc
      obtain ⟨rfl, rfl⟩ := Prod.mk.inj (Option.some.inj h)
      refine ⟨isPlainWord_cons.mpr ⟨hc, fun d hd => List.mem_takeWhile_imp hd⟩, ?_⟩
      rw [List.cons_append, List.takeWhile_append_dropWhile]
    · cases h

/-- A word is scanned to its end. -/
theorem not_isIdentifierRest_of_scan {cs w rest : List Char}
    (h : scanPlainWord? cs = some (w, rest)) : ∀ c ∈ rest.head?, isIdentifierRest c = false := by
  cases cs with
  | nil => simp [scanPlainWord?] at h
  | cons d cs =>
    rw [scanPlainWord?] at h
    split at h
    · obtain ⟨-, rfl⟩ := Prod.mk.inj (Option.some.inj h)
      intro c hc
      have hnot := List.head?_dropWhile_not isIdentifierRest cs
      rw [Option.mem_def.mp hc] at hnot
      simpa using hnot
    · cases h

/-- More characters of identifiers may follow a word. -/
theorem IsPlainWord.append {w more : List Char} (h : IsPlainWord w)
    (hmore : ∀ c ∈ more, isIdentifierRest c = true) : IsPlainWord (w ++ more) := by
  cases w with
  | nil => exact absurd rfl h.ne_nil
  | cons c w =>
    obtain ⟨hc, hw⟩ := isPlainWord_cons.mp h
    exact isPlainWord_cons.mpr ⟨hc, fun d hd => (List.mem_append.mp hd).elim (hw d) (hmore d)⟩

/-- The beginnings of a word are words. -/
theorem IsPlainWord.of_append {w more : List Char} (h : IsPlainWord (w ++ more)) (hw : w ≠ []) :
    IsPlainWord w := by
  cases w with
  | nil => exact absurd rfl hw
  | cons c w =>
    obtain ⟨hc, hrest⟩ := isPlainWord_cons.mp h
    exact isPlainWord_cons.mpr ⟨hc, fun d hd => hrest d (List.mem_append_left more hd)⟩

/-! ### What literals begin with -/

/-- Whether a text begins as the text of a literal does. -/
def startsLiteralText (cs : List Char) : Bool := literalStarts.any (startsWith · cs)

/-- A text begins as a literal does if it begins with one of the marks of literals. -/
theorem startsLiteralText_eq_true_iff {cs : List Char} :
    startsLiteralText cs = true ↔ ∃ start ∈ literalStarts, start.toList <+: cs := by
  simp [startsLiteralText, startsWith]

/-- The characters that literals may begin with. -/
def literalChars : List Char := ['r', 'b', 'c', '"', '#', '\'']

/-- The marks of literals have few characters. -/
theorem mem_literalChars :
    ∀ start ∈ literalStarts, ∀ c ∈ start.toList, c ∈ literalChars := by
  have hall : ∀ start ∈ literalStarts, start.toList.all (· ∈ literalChars) = true := by
    decide +kernel
  exact fun start hstart => List.all_iff_forall_prop.mp (hall start hstart)

/-- Literals begin with one of three letters. -/
theorem startsLiteralText_eq_false {c : Char} (h : c ∉ ['r', 'b', 'c']) (rest : List Char) :
    startsLiteralText (c :: rest) = false := by
  have hhead : ∀ start ∈ literalStarts, start.toList.head?.any (· ∈ ['r', 'b', 'c']) = true := by
    decide +kernel
  rw [← Bool.not_eq_true, startsLiteralText_eq_true_iff]
  rintro ⟨start, hstart, more, hmore⟩
  obtain ⟨d, hstarts, hd⟩ := (Option.any_eq_true _ _).mp (hhead start hstart)
  rw [decide_eq_true_eq] at hd
  obtain ⟨after, hafter⟩ := List.head?_eq_some_iff.mp hstarts
  rw [hafter, List.cons_append] at hmore
  exact h ((List.cons.inj hmore).1 ▸ hd)

/-- What follows a word does not make a literal of it, if it has none of these characters. -/
theorem startsLiteralText_append {w rest : List Char} (hw : startsLiteralText w = false)
    (hrest : ∀ c ∈ rest.head?, c ∉ literalChars) : startsLiteralText (w ++ rest) = false := by
  rw [← Bool.not_eq_true, startsLiteralText_eq_true_iff] at hw ⊢
  rintro ⟨start, hstart, hprefix⟩
  rcases List.prefix_or_prefix_of_prefix hprefix (List.prefix_append w rest) with h | ⟨more, h⟩
  · exact hw ⟨start, hstart, h⟩
  · -- the literal would go on behind the word
    cases more with
    | nil => exact hw ⟨start, hstart, List.append_nil w ▸ h ▸ List.prefix_rfl⟩
    | cons c more =>
      rw [← h, List.prefix_append_right_inj] at hprefix
      obtain ⟨after, rfl⟩ := hprefix
      exact hrest c rfl (mem_literalChars start hstart c
        (h ▸ List.mem_append_right w List.mem_cons_self))

/-- The beginning of a text that is no literal is none either. -/
theorem startsLiteralText_of_append {w rest : List Char}
    (h : startsLiteralText (w ++ rest) = false) : startsLiteralText w = false := by
  rw [← Bool.not_eq_true, startsLiteralText_eq_true_iff] at h ⊢
  rintro ⟨start, hstart, hprefix⟩
  exact h ⟨start, hstart, hprefix.trans (List.prefix_append w rest)⟩

/-! ### Words -/

/-- The texts that are one identifier or keyword, perhaps with the mark `r#`. -/
def IsWord (cs : List Char) : Prop := scanWord? cs = some (cs, [])

/-- Whether a text is a word can be computed by scanning it. -/
instance (cs : List Char) : Decidable (IsWord cs) :=
  inferInstanceAs (Decidable (scanWord? cs = some (cs, [])))

/-- A raw identifier is scanned behind its mark, and some words are never one. -/
theorem scanWord?_raw (more : List Char) : scanWord? ('r' :: '#' :: more) =
    if startsLiteralText ('r' :: '#' :: more) then none
    else (scanPlainWord? more).bind fun found =>
      if neverRaw.contains (String.ofList found.1) then none
      else some ('r' :: '#' :: found.1, found.2) := by
  simp only [scanWord?, startsLiteralText]
  cases scanPlainWord? more <;> rfl

/-- Without the mark of raw identifiers a word is scanned as it is. -/
theorem scanWord?_plain {cs : List Char} (h : ∀ more, cs ≠ 'r' :: '#' :: more) :
    scanWord? cs = if startsLiteralText cs then none else scanPlainWord? cs := by
  unfold scanWord?
  rw [← startsLiteralText]
  congr 1
  split
  · exact absurd rfl (h _)
  · rfl

/-- **What is scanned as a word:** a plain one, or a raw identifier with its mark. -/
theorem scanWord?_eq_some_iff {cs w rest : List Char} :
    scanWord? cs = some (w, rest) ↔ startsLiteralText cs = false ∧
      ((∀ more, cs ≠ 'r' :: '#' :: more) ∧ scanPlainWord? cs = some (w, rest) ∨
        ∃ more name, cs = 'r' :: '#' :: more ∧ scanPlainWord? more = some (name, rest) ∧
          neverRaw.contains (String.ofList name) = false ∧ w = 'r' :: '#' :: name) := by
  by_cases hraw : ∃ more, cs = 'r' :: '#' :: more
  · obtain ⟨more, rfl⟩ := hraw
    rw [scanWord?_raw]
    cases startsLiteralText ('r' :: '#' :: more) with
    | true => simp
    | false =>
      simp only [Bool.false_eq_true, if_false, Option.bind_eq_some_iff]
      grind
  · have hnot : ∀ more, cs ≠ 'r' :: '#' :: more := fun more h => hraw ⟨more, h⟩
    rw [scanWord?_plain hnot]
    cases startsLiteralText cs <;> simp [hnot]

/-- The mark of raw identifiers goes on with no word. -/
theorem isIdentifierRest_hash : isIdentifierRest '#' = false := by decide

/-- All characters of a word may stand inside one, the first one included. -/
theorem IsPlainWord.forall_rest {w : List Char} (h : IsPlainWord w) :
    ∀ c ∈ w, isIdentifierRest c = true := by
  cases w with
  | nil => exact fun _ hc => absurd hc List.not_mem_nil
  | cons c w =>
    obtain ⟨hc, hw⟩ := isPlainWord_cons.mp h
    exact List.forall_mem_cons.mpr ⟨isIdentifierRest_of_start hc, hw⟩

/-- A word without a mark has no `#` anywhere. -/
theorem IsPlainWord.hash_not_mem {w : List Char} (h : IsPlainWord w) : '#' ∉ w := by
  intro hhash
  have hrest := h.forall_rest '#' hhash
  rw [isIdentifierRest_hash] at hrest
  cases hrest

/-- A word without a mark is not scanned as a raw identifier, whatever follows but a `#`. -/
theorem IsPlainWord.not_raw {w rest : List Char} (h : IsPlainWord w)
    (hrest : ∀ c ∈ rest.head?, c ≠ '#') (more : List Char) : w ++ rest ≠ 'r' :: '#' :: more := by
  intro hraw
  match w, h with
  | [c], _ =>
    rw [List.singleton_append] at hraw
    exact hrest '#' (by rw [(List.cons.inj hraw).2]; rfl) rfl
  | c :: d :: w, h =>
    have hd := (isPlainWord_cons.mp h).2 d List.mem_cons_self
    rw [(List.cons.inj (List.cons.inj hraw).2).1, isIdentifierRest_hash] at hd
    cases hd

/-- **The shapes of words:** an identifier or keyword alone, or after the mark `r#`. -/
theorem isWord_iff {cs : List Char} :
    IsWord cs ↔ startsLiteralText cs = false ∧ (IsPlainWord cs ∨ ∃ name, IsPlainWord name ∧
      neverRaw.contains (String.ofList name) = false ∧ cs = 'r' :: '#' :: name) := by
  rw [IsWord, scanWord?_eq_some_iff]
  refine and_congr_right fun _ => ⟨?_, ?_⟩
  · rintro (⟨-, h⟩ | ⟨more, name, hcs, h, hnever, rfl⟩)
    · exact .inl h
    · exact .inr ⟨name, (isPlainWord_of_scan h).1, hnever, rfl⟩
  · rintro (h | ⟨name, h, hnever, rfl⟩)
    · exact .inl ⟨fun more => List.append_nil cs ▸ h.not_raw (by simp) more, h⟩
    · exact .inr ⟨name, name, rfl, h, hnever, rfl⟩

/-- An identifier or keyword without a mark is no beginning of a literal. -/
theorem IsPlainWord.isWord {w : List Char} (h : IsPlainWord w) : IsWord w := by
  have hmark : ∀ start ∈ literalStarts, start.toList.any (fun c => !isIdentifierRest c) = true := by
    decide +kernel
  refine isWord_iff.mpr ⟨?_, .inl h⟩
  rw [← Bool.not_eq_true, startsLiteralText_eq_true_iff]
  rintro ⟨start, hstart, hbelow⟩
  obtain ⟨c, hc, hnot⟩ := List.any_eq_true.mp (hmark start hstart)
  rw [h.forall_rest c (hbelow.subset hc)] at hnot
  cases hnot

/-- **What is scanned as a word is one.** -/
theorem isWord_of_scanWord? {cs w rest : List Char} (h : scanWord? cs = some (w, rest)) :
    IsWord w := by
  obtain ⟨hliteral, h⟩ := scanWord?_eq_some_iff.mp h
  rcases h with ⟨-, hscan⟩ | ⟨more, name, rfl, hscan, hnever, rfl⟩
  · obtain ⟨hw, rfl⟩ := isPlainWord_of_scan hscan
    exact isWord_iff.mpr ⟨startsLiteralText_of_append hliteral, .inl hw⟩
  · obtain ⟨hname, rfl⟩ := isPlainWord_of_scan hscan
    exact isWord_iff.mpr ⟨startsLiteralText_of_append hliteral, .inr ⟨name, hname, hnever, rfl⟩⟩

/-- What is scanned as a word is in front of the text, and does not go on. -/
theorem append_of_scanWord? {cs w rest : List Char} (h : scanWord? cs = some (w, rest)) :
    cs = w ++ rest ∧ ∀ c ∈ rest.head?, isIdentifierRest c = false := by
  rcases (scanWord?_eq_some_iff.mp h).2 with ⟨-, hscan⟩ | ⟨more, name, rfl, hscan, -, rfl⟩
  · exact ⟨(isPlainWord_of_scan hscan).2, not_isIdentifierRest_of_scan hscan⟩
  · obtain ⟨-, rfl⟩ := isPlainWord_of_scan hscan
    exact ⟨rfl, not_isIdentifierRest_of_scan hscan⟩

/-! ### Words in a text -/

/-- The characters that stand behind words and numbers in printed text. -/
def separators : List Char := [' ', '(', ')', ',', ':', '*', ']', ';', '\n']

/-- Nothing or a separator is in front. -/
def Separated (rest : List Char) : Prop := ∀ c ∈ rest.head?, c ∈ separators

/-- Where nothing follows, nothing goes on. -/
theorem separated_nil : Separated [] := by simp [Separated]

/-- A separator is in front. -/
theorem separated_cons {c : Char} {rest : List Char} (h : c ∈ separators) :
    Separated (c :: rest) := by
  simpa [Separated] using h

/-- Separators go on with no word, and are in no mark of a literal. -/
theorem not_mem_literalChars_of_separator :
    ∀ c ∈ separators, isIdentifierRest c = false ∧ c ∉ literalChars :=
  List.all_iff_forall_prop.mp (by decide)

/-- Nothing or a character is in front that no word goes on with. -/
def Apart (rest : List Char) : Prop :=
  ∀ c ∈ rest.head?, isIdentifierRest c = false ∧ c ∉ literalChars

/-- A separator is a character that no word goes on with. -/
theorem Separated.apart {rest : List Char} (h : Separated rest) : Apart rest :=
  fun c hc => not_mem_literalChars_of_separator c (h c hc)

/-- **A word is scanned as it is** where it ends. -/
theorem IsWord.scan_append {w rest : List Char} (h : IsWord w) (hrest : Apart rest) :
    scanWord? (w ++ rest) = some (w, rest) := by
  obtain ⟨hliteral, h⟩ := isWord_iff.mp h
  have hplain : ∀ c ∈ rest.head?, isIdentifierRest c = false := fun c hc => (hrest c hc).1
  have hliteral' : startsLiteralText (w ++ rest) = false :=
    startsLiteralText_append hliteral fun c hc => (hrest c hc).2
  rw [scanWord?_eq_some_iff]
  refine ⟨hliteral', ?_⟩
  rcases h with h | ⟨name, hname, hnever, rfl⟩
  · refine .inl ⟨h.not_raw fun c hc => ?_, IsPlainWord.scan_append h hplain⟩
    rintro rfl
    exact absurd (hrest '#' hc).2 (by decide)
  · exact .inr ⟨name ++ rest, name, rfl, IsPlainWord.scan_append hname hplain, hnever, rfl⟩

/-- A word begins as an identifier does. -/
theorem IsWord.exists_cons {w : List Char} (h : IsWord w) :
    ∃ c rest, w = c :: rest ∧ isIdentifierStart c = true := by
  rcases (isWord_iff.mp h).2 with hplain | ⟨name, -, -, rfl⟩
  · cases w with
    | nil => exact absurd rfl hplain.ne_nil
    | cons c rest => exact ⟨c, rest, rfl, (isPlainWord_cons.mp hplain).1⟩
  · exact ⟨'r', _, rfl, by decide⟩

/-! ### Underscores at the end -/

/-- No word that is never raw ends in an underscore, but the underscore itself. -/
theorem ofList_append_underscore_not_neverRaw {name : List Char} (h : name ≠ []) :
    neverRaw.contains (String.ofList (name ++ ['_'])) = false := by
  have hlast : ∀ word ∈ neverRaw, word.toList.getLast? = some '_' → word.toList = ['_'] := by
    decide
  rw [← Bool.not_eq_true, List.contains_iff_mem]
  intro hmem
  have heq := hlast _ hmem (by simp)
  rw [String.toList_ofList] at heq
  exact h (by simpa using heq)

/-- **An underscore may be put behind a word,** raw or not. -/
theorem IsWord.append_underscore {w : List Char} (h : IsWord w) : IsWord (w ++ ['_']) := by
  obtain ⟨hliteral, h⟩ := isWord_iff.mp h
  have hrest : ∀ c ∈ ['_'], isIdentifierRest c = true := List.all_iff_forall_prop.mp (by decide)
  rw [isWord_iff]
  refine ⟨startsLiteralText_append hliteral (by simp [literalChars]), h.imp (·.append hrest) ?_⟩
  rintro ⟨name, hname, -, rfl⟩
  exact ⟨name ++ ['_'], hname.append hrest, ofList_append_underscore_not_neverRaw hname.ne_nil, rfl⟩

/-- One underscore less, if there are two more in front of it. -/
theorem isWord_of_underscores {w : List Char} (h : IsWord (w ++ ['_', '_', '_'])) :
    IsWord (w ++ ['_', '_']) := by
  have hmore : w ++ ['_', '_', '_'] = (w ++ ['_', '_']) ++ ['_'] := by simp
  obtain ⟨hliteral, h⟩ := isWord_iff.mp h
  rw [isWord_iff]
  refine ⟨startsLiteralText_of_append (hmore ▸ hliteral), ?_⟩
  rcases h with h | ⟨name, hname, -, hraw⟩
  · exact .inl ((hmore ▸ h).of_append (by simp))
  · -- the mark stands in front of the underscores
    match w, hraw with
    | _ :: _ :: w, hraw =>
      obtain ⟨rfl, rfl, rfl⟩ : _ ∧ _ ∧ w ++ ['_', '_', '_'] = name := by simpa using hraw
      have hfewer : w ++ ['_', '_', '_'] = (w ++ ['_', '_']) ++ ['_'] := by simp
      refine .inr ⟨w ++ ['_', '_'], (hfewer ▸ hname).of_append (by simp), ?_, rfl⟩
      rw [show w ++ ['_', '_'] = (w ++ ['_']) ++ ['_'] by simp]
      exact ofList_append_underscore_not_neverRaw (by simp)

/-! ### Names -/

/-- The words that may follow `::` in a path. -/
def IsSegment (w : String) : Prop :=
  IsWord w.toList ∧ (isKeyword w = false ∨ w = "Self" ∨ w = "try" ∨ w ∈ placeWords)

/-- The words that are a path by themselves: identifiers, and the words that stand for
    places. -/
def IsName (w : String) : Prop :=
  IsWord w.toList ∧ (isKeyword w = false ∨ w = "Self" ∨ w ∈ placeWords)

/-- Whether a word may follow `::` can be computed. -/
instance (w : String) : Decidable (IsSegment w) := inferInstanceAs (Decidable (_ ∧ _))

/-- Whether a word may be a path by itself can be computed. -/
instance (w : String) : Decidable (IsName w) := inferInstanceAs (Decidable (_ ∧ _))

/-- What may be a path by itself may follow `::`, too. -/
theorem IsName.isSegment {w : String} (h : IsName w) : IsSegment w :=
  ⟨h.1, h.2.imp_right (.imp_right .inr)⟩

end TermNet.Source
