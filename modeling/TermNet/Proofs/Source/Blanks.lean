import TermNet.Source.Language
import TermNet.Proofs.Source.Lexing

namespace TermNet.Source

open TermNet.Text

/-!
# Blanks, comments and identifiers

* `lexemes?_blanks`, `lexemes?_comment`, `lexemes?_lines` — blanks and comments are passed over;
* `skipBlank_eq_dropWhile` — where there is no slash, only blanks are;
* `Spaced` — a word with blanks around it, and nothing else;
* `spaced_of_identifier?` — what is read as an identifier, if it has no slash.
-/

variable {cs rest : List Char} {found : List Lexeme}

/-! ### Blanks and comments -/

/-- Any number of blanks is skipped. -/
theorem skipBlank_append {blanks : List Char} (h : ∀ c ∈ blanks, isBlank c = true)
    (rest : List Char) : skipBlank (blanks ++ rest) = skipBlank rest := by
  induction blanks with
  | nil => rfl
  | cons c blanks ih =>
    rw [List.forall_mem_cons] at h
    rw [List.cons_append, skipBlank_blank h.1, ih h.2]

/-- Blanks in front of a text make no lexemes. -/
theorem lexemes?_blanks {blanks : List Char} (h : ∀ c ∈ blanks, isBlank c = true)
    (hrest : lexemes? rest = some found) : lexemes? (blanks ++ rest) = some found :=
  lexemes?_skip (skipBlank_append h rest) (by simp) hrest

/-- A blank in front of a text makes no lexeme. -/
theorem lexemes?_blank {c : Char} (h : isBlank c = true) (hrest : lexemes? rest = some found) :
    lexemes? (c :: rest) = some found :=
  lexemes?_skip (skipBlank_blank h rest) (by simp) hrest

/-- A line ends at the first line break. -/
theorem splitLine_append {line : List Char} (h : '\n' ∉ line) (rest : List Char) :
    (splitLine (line ++ '\n' :: rest)).2 = '\n' :: rest := by
  induction line with
  | nil => rfl
  | cons c line ih =>
    rw [List.mem_cons, not_or] at h
    rw [List.cons_append]
    unfold splitLine
    split
    · rename_i heq
      cases heq
    · rename_i heq
      exact absurd (List.cons.inj heq).1.symm h.1
    · -- a carriage return at the end of the line belongs to the break
      rename_i heq
      obtain ⟨-, heq⟩ := List.cons.inj heq
      cases line with
      | nil => exact congrArg _ (List.cons.inj heq).2.symm
      | cons d line =>
        exact absurd (.head _) ((List.cons.inj heq).1 ▸ h.2)
    · rename_i heq
      obtain ⟨-, rfl⟩ := List.cons.inj heq
      exact ih h.2

/-- A line that is a comment and no documentation. -/
structure IsComment (line : List Char) : Prop where
  slashes : ['/', '/'] <+: line
  plain : ∀ c ∈ (line.drop 2).head?, c ≠ '/' ∧ c ≠ '!'
  one_line : '\n' ∉ line

/-- Whether a line is a comment can be computed. -/
instance (line : List Char) : Decidable (IsComment line) :=
  decidable_of_iff (['/', '/'] <+: line ∧
      (line.drop 2).head?.all (fun c => c ≠ '/' ∧ c ≠ '!') = true ∧ '\n' ∉ line)
    ⟨fun h => ⟨h.1, by simpa [Option.all_eq_true] using h.2.1, h.2.2⟩,
      fun h => ⟨h.1, by simpa [Option.all_eq_true] using h.2, h.3⟩⟩

/-- A comment begins with a slash. -/
theorem IsComment.head?_append {line : List Char} (h : IsComment line) (rest : List Char) :
    (line ++ rest).head? = some '/' := by
  obtain ⟨text, rfl⟩ := h.slashes
  rfl

/-- A comment is skipped to the end of its line. -/
theorem IsComment.skipBlank_eq {line : List Char} (h : IsComment line) (rest : List Char) :
    skipBlank (line ++ '\n' :: rest) = skipBlank rest := by
  obtain ⟨text, rfl⟩ := h.slashes
  have hplain : ∀ c ∈ text.head?, c ≠ '/' ∧ c ≠ '!' := h.plain
  have htext : '\n' ∉ text := fun hmem => h.one_line (by simp [hmem])
  -- A third slash or a mark would make it documentation.
  have hdoc : isDocumentation '/' (text ++ '\n' :: rest) = false := by
    cases text with
    | nil => cases rest <;> rfl
    | cons c text =>
      obtain ⟨hslash, hmark⟩ := hplain c rfl
      unfold isDocumentation
      split <;> simp_all
  have hone : skipOne? (['/', '/'] ++ text ++ '\n' :: rest) = some ('\n' :: rest) := by
    rw [List.append_assoc, List.cons_append, List.cons_append, List.nil_append, skipOne?, hdoc,
      splitLine_append htext]
    rfl
  rw [skipBlank, hone]
  dsimp only
  rw [if_pos (by simp only [List.length_append, List.length_cons]; omega),
    skipBlank_blank (by decide)]

/-- A comment in front of a text makes no lexemes. -/
theorem lexemes?_comment {line : List Char} (h : IsComment line)
    (hrest : lexemes? rest = some found) : lexemes? (line ++ '\n' :: rest) = some found :=
  lexemes?_skip (h.skipBlank_eq rest) (by simp; omega) hrest

/-! ### Lines -/

/-- The lines of a text have no line breaks. -/
theorem newline_not_mem_of_mem {line : List Char} (h : line ∈ cs.splitOn '\n') : '\n' ∉ line := by
  induction cs generalizing line with
  | nil => simp_all
  | cons c cs ih =>
    rw [List.splitOn_cons_eq_if_modifyHead] at h
    split at h
    · rcases List.mem_cons.mp h with rfl | h
      · exact List.not_mem_nil
      · exact ih h
    · rename_i hc
      obtain ⟨first, others, hsplit⟩ := List.exists_cons_of_ne_nil (List.splitOn_ne_nil '\n' cs)
      rw [hsplit, List.modifyHead_cons, List.mem_cons] at h
      rw [hsplit] at ih
      rcases h with rfl | h
      · simpa [Ne.symm (ne_of_beq_false (Bool.eq_false_iff.mpr hc))] using ih List.mem_cons_self
      · exact ih (List.mem_cons_of_mem _ h)

/-- What is put in front of a text belongs to its first line. -/
theorem splitOn_append_of_not_mem {before : List Char} (h : '\n' ∉ before) (cs : List Char) :
    (before ++ cs).splitOn '\n' = (cs.splitOn '\n').modifyHead (before ++ ·) := by
  induction before with
  | nil => cases hsplit : cs.splitOn '\n' <;> simp [hsplit]
  | cons c before ih =>
    rw [List.mem_cons, not_or] at h
    rw [List.cons_append, List.splitOn_cons_eq_if_modifyHead, if_neg (by simpa using Ne.symm h.1),
      ih h.2, List.modifyHead_modifyHead]
    rfl

/-- A text without line breaks is one line. -/
theorem splitOn_eq_singleton (h : '\n' ∉ cs) : cs.splitOn '\n' = [cs] := by
  simpa using splitOn_append_of_not_mem h []

/-- A line that is passed over: there is nothing on it but blanks or a comment. -/
def IsPassedOver (line : List Char) : Prop := (∀ c ∈ line, isBlank c = true) ∨ IsComment line

/-- Whether a line is passed over can be computed. -/
instance (line : List Char) : Decidable (IsPassedOver line) :=
  decidable_of_iff (line.all isBlank = true ∨ IsComment line) (or_congr_left List.all_eq_true)

/-- **Lines that are passed over.** -/
theorem lexemes?_flatMap {lines : List (List Char)} (h : ∀ line ∈ lines, IsPassedOver line)
    (hrest : lexemes? rest = some found) :
    lexemes? (lines.flatMap (· ++ ['\n']) ++ rest) = some found := by
  induction lines with
  | nil => exact hrest
  | cons line lines ih =>
    rw [List.forall_mem_cons] at h
    rw [List.flatMap_cons, List.append_assoc, List.append_assoc, List.singleton_append]
    rcases h.1 with hblank | hcomment
    · exact lexemes?_blanks hblank (lexemes?_blank (by decide) (ih h.2))
    · exact lexemes?_comment hcomment (ih h.2)

/-- The lines of a text, each with a line break behind it, are the text with one behind it. -/
theorem flatMap_splitOn (cs : List Char) :
    (cs.splitOn '\n').flatMap (· ++ ['\n']) = cs ++ ['\n'] := by
  have hcs : ['\n'].intercalate (cs.splitOn '\n') = cs := List.intercalate_splitOn '\n'
  conv_rhs => rw [← hcs]
  have hne := List.splitOn_ne_nil '\n' cs
  generalize cs.splitOn '\n' = lines at hne
  induction lines with
  | nil => exact absurd rfl hne
  | cons line lines ih =>
    cases lines with
    | nil => simp
    | cons next lines =>
      rw [List.flatMap_cons, ih (List.cons_ne_nil _ _), List.intercalate_cons_cons]
      simp only [List.append_assoc]

/-- **A text of which every line is passed over** makes no lexemes in front of another one. -/
theorem lexemes?_lines (h : ∀ line ∈ cs.splitOn '\n', IsPassedOver line)
    (hrest : lexemes? rest = some found) : lexemes? (cs ++ '\n' :: rest) = some found := by
  have hlines := lexemes?_flatMap h hrest
  rwa [flatMap_splitOn, List.append_assoc] at hlines

/-! ### Texts without slashes -/

/-- Where there is no slash, only blanks are passed over. -/
theorem skipBlank_eq_dropWhile (h : '/' ∉ cs) : skipBlank cs = cs.dropWhile isBlank := by
  induction cs with
  | nil => rw [skipBlank]; rfl
  | cons c cs ih =>
    rw [List.mem_cons, not_or] at h
    by_cases hc : isBlank c = true
    · rw [skipBlank_blank hc, ih h.2, List.dropWhile_cons_of_pos hc]
    · have hone : skipOne? (c :: cs) = none := by
        unfold skipOne?
        split <;> simp_all
      rw [skipBlank, hone, List.dropWhile_cons_of_neg hc]

/-! ### Brackets that match -/

/-- Groups do not get lost: where brackets are open or have been closed, there is a group in the
    end. -/
theorem exists_group_of_nest? {lexemes : List Lexeme} {outer : List (Delimiter × List Token)}
    {current tokens : List Token} (h : nest? lexemes outer current = some tokens)
    (hgroup : outer ≠ [] ∨ ∃ d inner, Token.group d inner ∈ current) :
    ∃ d inner, Token.group d inner ∈ tokens := by
  induction lexemes, outer, current using nest?.induct with
  | case1 current =>
    rw [nest?, Option.some.injEq] at h
    obtain ⟨d, inner, hmem⟩ := hgroup.resolve_left (by simp)
    exact ⟨d, inner, h ▸ List.mem_reverse.mpr hmem⟩
  | case2 => simp [nest?] at h
  | case3 token rest outer current ih =>
    refine ih h (hgroup.imp_right ?_)
    rintro ⟨d, inner, hmem⟩
    exact ⟨d, inner, List.mem_cons_of_mem _ hmem⟩
  | case4 delimiter rest outer current ih => exact ih h (.inl (by simp))
  | case5 => simp [nest?] at h
  | case6 rest opened before outer current ih =>
    rw [nest?, if_pos rfl] at h
    exact ih h (.inr ⟨opened, current.reverse, List.mem_cons_self⟩)
  | case7 delimiter rest opened before outer current hne =>
    rw [nest?, if_neg hne] at h
    cases h

/-- Where nothing is a group, every lexeme is a token. -/
theorem eq_map_token_of_nest? {lexemes : List Lexeme} {current tokens : List Token}
    (h : nest? lexemes [] current = some tokens)
    (hflat : ∀ d inner, Token.group d inner ∉ tokens) :
    ∃ ts, lexemes = ts.map .token ∧ tokens = current.reverse ++ ts := by
  induction lexemes generalizing current with
  | nil => exact ⟨[], rfl, by simpa [nest?] using h.symm⟩
  | cons lexeme lexemes ih =>
    cases lexeme with
    | token token =>
      obtain ⟨ts, rfl, hts⟩ := ih h
      exact ⟨token :: ts, rfl, by simp [hts]⟩
    | opening delimiter =>
      obtain ⟨d, inner, hmem⟩ := exists_group_of_nest? (by rwa [nest?] at h) (.inl (by simp))
      exact absurd hmem (hflat d inner)
    | closing delimiter => simp [nest?] at h

/-! ### Identifiers -/

/-- The text is this word with blanks around it. -/
structure Spaced (cs w : List Char) : Prop where
  word : IsWord w
  exists_blanks : ∃ before after, cs = before ++ w ++ after ∧ (∀ c ∈ before, isBlank c = true) ∧
    (∀ c ∈ after, isBlank c = true) ∧ Apart after

/-- Without slashes there is no documentation. -/
theorem scanDocumentation?_eq_none (h : '/' ∉ cs) : scanDocumentation? cs = none := by
  unfold scanDocumentation?
  split <;> simp_all

/-- One lexeme is read at a time where there is no slash. -/
theorem next?_single (h : '/' ∉ cs) (hnext : next? cs = some (found, rest)) :
    ∃ lexeme, found = [lexeme] ∧
      ∀ w, lexeme = .token (.word w) → scanWord? cs = some (w.toList, rest) := by
  -- Of the scanners that are tried one after the other, only the last one reads words.
  unfold next? at hnext
  rw [scanDocumentation?_eq_none h] at hnext
  dsimp only at hnext
  split at hnext
  · cases hnext
  rename_i c more hword
  split at hnext
  · cases hnext
    exact ⟨_, rfl, nofun⟩
  · rename_i lexeme _ hbracket
    cases hnext
    refine ⟨_, rfl, fun w hw => ?_⟩
    subst hw
    unfold bracket? at hbracket
    split at hbracket <;> cases hbracket
  split at hnext
  · cases hnext
    exact ⟨_, rfl, nofun⟩
  split at hnext
  · rename_i token after hmark
    cases hnext
    refine ⟨_, rfl, fun w hw => ?_⟩
    cases hw
    unfold scanMark? at hmark
    split at hmark
    · split at hmark
      · split at hmark <;> cases hmark
      · cases hmark
    · split at hmark <;> cases hmark
    · cases hmark
  · obtain ⟨⟨taken, after⟩, htaken, heq⟩ := Option.map_eq_some_iff.mp hnext
    cases heq
    refine ⟨_, rfl, fun w hw => ?_⟩
    cases hw
    rw [String.toList_ofList, htaken]

/-- A text without slashes in which nothing is read is blank. -/
theorem blank_of_lexemes? (h : '/' ∉ cs) (hnone : lexemes? cs = some []) :
    ∀ c ∈ cs, isBlank c = true := by
  rw [lexemes?] at hnone
  rw [skipBlank_eq_dropWhile h] at hnone
  split at hnone
  · rename_i hempty
    exact List.dropWhile_eq_nil_iff.mp (List.isEmpty_iff.mp hempty)
  · split at hnone
    · rename_i found rest hnext
      obtain ⟨lexeme, rfl, -⟩ :=
        next?_single (fun hmem => h ((List.dropWhile_suffix _).subset hmem)) hnext
      split at hnone
      · obtain ⟨more, -, hmore⟩ := Option.map_eq_some_iff.mp hnone
        cases hmore
      · cases hnone
    · cases hnone

/-- A text without slashes that is one word has nothing but blanks around it. -/
theorem spaced_of_lexemes? {w : String} (h : '/' ∉ cs)
    (hword : lexemes? cs = some [.token (.word w)]) : Spaced cs w.toList := by
  rw [lexemes?] at hword
  rw [skipBlank_eq_dropWhile h] at hword
  have hcs : '/' ∉ cs.dropWhile isBlank := fun hmem => h ((List.dropWhile_suffix _).subset hmem)
  split at hword
  · cases hword
  split at hword
  · rename_i found rest hnext
    obtain ⟨lexeme, rfl, hlexeme⟩ := next?_single hcs hnext
    split at hword
    · obtain ⟨more, hmore, heq⟩ := Option.map_eq_some_iff.mp hword
      obtain ⟨rfl, rfl⟩ := List.cons.inj heq
      -- The word is the first lexeme, and there is none behind it.
      have hscan := hlexeme w rfl
      obtain ⟨happend, hend⟩ := append_of_scanWord? hscan
      have hblank := blank_of_lexemes? (fun hmem => hcs (by simp [happend, hmem])) hmore
      refine ⟨isWord_of_scanWord? hscan, cs.takeWhile isBlank, rest, ?_,
        fun c hc => List.mem_takeWhile_imp hc, hblank, fun c hc => ⟨hend c hc, fun hmem => ?_⟩⟩
      · rw [List.append_assoc, ← happend, List.takeWhile_append_dropWhile]
      · -- what literals begin with is not blank
        have hsolid : ∀ c ∈ literalChars, isBlank c = false :=
          List.all_iff_forall_prop.mp (by decide)
        have hc := hblank c (List.mem_of_mem_head? hc)
        rw [hsolid c hmem] at hc
        cases hc
    · cases hword
  · cases hword

/-- **What is read as an identifier** is a word with blanks around it, unless there are comments
    or a mark of the byte order. -/
theorem spaced_of_identifier? {text w : String} (h : identifier? text = some w)
    (hslash : '/' ∉ text.toList) (hmark : text.toList.head? ≠ some '\ufeff') :
    Spaced text.toList w.toList := by
  unfold identifier? at h
  split at h
  · rename_i word htokens
    split at h
    · cases h
    · obtain rfl := Option.some.inj h
      rw [tokens?, withoutOrderMark_eq_self hmark] at htokens
      split at htokens
      · rename_i found hfound
        obtain ⟨ts, rfl, hts⟩ := eq_map_token_of_nest? htokens (by simp)
        rw [List.reverse_nil, List.nil_append] at hts
        subst hts
        exact spaced_of_lexemes? hslash hfound
      · cases htokens
  · cases h

/-- A word with blanks around it is read as the word, if it ends behind the blanks. -/
theorem Spaced.lexemes?_append {w : List Char} (h : Spaced cs w) (hrest : Apart rest)
    (hfound : lexemes? rest = some found) :
    lexemes? (cs ++ rest) = some (.token (.word (String.ofList w)) :: found) := by
  obtain ⟨before, after, rfl, hbefore, hafter, hend⟩ := h.exists_blanks
  have happart : Apart (after ++ rest) := by
    cases after with
    | nil => exact hrest
    | cons c after => exact fun d hd => hend d hd
  rw [List.append_assoc, List.append_assoc]
  refine lexemes?_blanks hbefore ?_
  rw [lexemes?_word h.word happart, lexemes?_blanks hafter hfound]
  rfl

end TermNet.Source
