import TermNet.Proofs.Source.Words
import TermNet.Source.Language

namespace TermNet.Source

open TermNet.Text

/-!
# The words of scanned texts

* `Token.Sound` — tokens whose words, those inside groups included, are words of the language;
* `sound_of_lexemes?` — what is scanned is sound;
* `sound_of_tokens?` — and stays so when the brackets are matched;
* `isWord_of_identifier?` — so identifiers are words.
-/

/-- A token whose words are words of the language. -/
inductive Token.Sound : Token → Prop
  | word {w : String} (h : IsWord w.toList) : Sound (.word w)
  | literal (text : String) : Sound (.literal text)
  | mark (char : Char) (joined : Bool) : Sound (.mark char joined)
  | group (delimiter : Delimiter) {tokens : List Token} (h : ∀ t ∈ tokens, Sound t) :
    Sound (.group delimiter tokens)

/-- Tokens whose words are words of the language. -/
def Sound (tokens : List Token) : Prop := ∀ t ∈ tokens, t.Sound

/-- No tokens are sound. -/
theorem sound_nil : Sound [] := fun _ ht => absurd ht List.not_mem_nil

/-- Tokens are sound if the first one is, and the others are. -/
theorem sound_cons {t : Token} {ts : List Token} : Sound (t :: ts) ↔ t.Sound ∧ Sound ts :=
  List.forall_mem_cons

/-- The last tokens of sound ones are sound. -/
theorem Sound.of_suffix {ts rest : List Token} (h : Sound ts) (hrest : rest <:+ ts) : Sound rest :=
  fun t ht => h t (hrest.subset ht)

/-- A word in front is one of the language. -/
theorem Sound.word {w : String} {rest : List Token} (h : Sound (.word w :: rest)) :
    IsWord w.toList := by
  cases h _ List.mem_cons_self with
  | word hw => exact hw

/-- What a group in front holds is sound. -/
theorem Sound.inside {delimiter : Delimiter} {tokens rest : List Token}
    (h : Sound (.group delimiter tokens :: rest)) : Sound tokens := by
  cases h _ List.mem_cons_self with
  | group _ htokens => exact htokens

/-! ### Scanning -/

/-- A bracket, or a sound token. -/
def Lexeme.Sound : Lexeme → Prop
  | .token t => t.Sound
  | .opening _ | .closing _ => True

/-- Documentation becomes an attribute, whose only word is its name. -/
theorem sound_of_documentation? {inner : Bool} {comment : List Char} {found : List Lexeme}
    (h : documentation? inner comment = some found) : ∀ lexeme ∈ found, lexeme.Sound := by
  have hdoc : Token.Sound (.word "doc") := .word (by decide +kernel)
  have hgroup : Token.Sound (.group .bracket
      (.word "doc" :: .mark '=' false :: [.literal (quote (String.ofList comment))])) := by
    refine .group _ fun t ht => ?_
    simp only [List.mem_cons, List.not_mem_nil, or_false] at ht
    rcases ht with rfl | rfl | rfl
    · exact hdoc
    · exact .mark _ _
    · exact .literal _
  rw [documentation?] at h
  split at h
  · rw [Option.some.injEq] at h
    subst h
    have hhash : Token.Sound (.mark '#' false) := .mark _ _
    have hmark : Token.Sound (.mark '!' false) := .mark _ _
    cases inner <;> simp [Lexeme.Sound, hgroup, hhash, hmark]
  · cases h

/-- Documentation in front of a text is sound. -/
theorem sound_of_scanDocumentation? {cs rest : List Char} {found : List Lexeme}
    (h : scanDocumentation? cs = some (found, rest)) : ∀ lexeme ∈ found, lexeme.Sound := by
  unfold scanDocumentation? at h
  split at h
  · split at h
    · simp only [Option.map_eq_some_iff, Prod.mk.injEq] at h
      obtain ⟨_, hfound, rfl, -⟩ := h
      exact sound_of_documentation? hfound
    · cases h
  · split at h
    · split at h
      · simp only [Option.map_eq_some_iff, Prod.mk.injEq] at h
        obtain ⟨_, hfound, rfl, -⟩ := h
        exact sound_of_documentation? hfound
      · cases h
    · cases h
  · cases h

/-- Marks have no words. -/
theorem sound_of_scanMark? {cs rest : List Char} {t : Token} (h : scanMark? cs = some (t, rest)) :
    t.Sound := by
  unfold scanMark? at h
  split at h
  · split at h
    · split at h
      · cases h
      · cases h
        exact .mark _ _
    · cases h
  · split at h
    · cases h
      exact .mark _ _
    · cases h
  · cases h

/-- Brackets have no words. -/
theorem sound_of_bracket? {c : Char} {lexeme : Lexeme} (h : bracket? c = some lexeme) :
    lexeme.Sound := by
  unfold bracket? at h
  split at h <;> cases h <;> trivial

/-- **The next lexemes of a text** are sound: words are scanned as words. -/
theorem sound_of_next? {cs rest : List Char} {found : List Lexeme}
    (h : next? cs = some (found, rest)) : ∀ lexeme ∈ found, lexeme.Sound := by
  have hsingle : ∀ {lexeme : Lexeme}, lexeme.Sound → ∀ l ∈ [lexeme], l.Sound :=
    fun h l hl => List.mem_singleton.mp hl ▸ h
  unfold next? at h
  split at h
  · rename_i documentation hdocumentation
    cases h
    exact sound_of_scanDocumentation? hdocumentation
  split at h
  · cases h
  split at h
  · cases h
    exact hsingle (.literal _)
  · rename_i hbracket
    cases h
    exact hsingle (sound_of_bracket? hbracket)
  split at h
  · cases h
    exact hsingle (.literal _)
  split at h
  · rename_i hmark
    cases h
    exact hsingle (sound_of_scanMark? hmark)
  · simp only [Option.map_eq_some_iff, Prod.mk.injEq] at h
    obtain ⟨_, hword, rfl, -⟩ := h
    refine hsingle (.word ?_)
    rw [String.toList_ofList]
    exact isWord_of_scanWord? hword

/-- All lexemes of a text are sound, by induction on what is left of it. -/
theorem sound_of_lexemes? {cs : List Char} {found : List Lexeme} (h : lexemes? cs = some found) :
    ∀ lexeme ∈ found, lexeme.Sound := by
  induction cs using lexemes?.induct generalizing found with
  | case1 cs _ =>
    rename_i hempty
    rw [lexemes?, if_pos hempty, Option.some.injEq] at h
    simp [← h]
  | case2 cs _ =>
    rename_i hempty first rest hnext hlt ih
    rw [lexemes?, if_neg hempty, hnext] at h
    simp only [if_pos hlt, Option.map_eq_some_iff] at h
    obtain ⟨more, hmore, rfl⟩ := h
    exact List.forall_mem_append.mpr ⟨sound_of_next? hnext, ih hmore⟩
  | case3 cs _ =>
    rename_i hempty first rest hnext hlt
    rw [lexemes?, if_neg hempty, hnext] at h
    simp only [if_neg hlt, reduceCtorEq] at h
  | case4 cs _ =>
    rename_i hempty hnext
    rw [lexemes?, if_neg hempty, hnext] at h
    cases h

/-! ### Brackets -/

/-- The order of tokens does not matter. -/
theorem sound_reverse {ts : List Token} (h : Sound ts) : Sound ts.reverse :=
  fun t ht => h t (List.mem_reverse.mp ht)

/-- Putting tokens into groups keeps them sound. -/
theorem sound_of_nest? {lexemes : List Lexeme} {outer : List (Delimiter × List Token)}
    {current tokens : List Token} (h : nest? lexemes outer current = some tokens)
    (hlexemes : ∀ lexeme ∈ lexemes, lexeme.Sound) (houter : ∀ opened ∈ outer, Sound opened.2)
    (hcurrent : Sound current) : Sound tokens := by
  induction lexemes, outer, current using nest?.induct with
  | case1 current =>
    rw [nest?, Option.some.injEq] at h
    exact h ▸ sound_reverse hcurrent
  | case2 => simp [nest?] at h
  | case3 token rest outer current ih =>
    rw [List.forall_mem_cons] at hlexemes
    exact ih h hlexemes.2 houter (sound_cons.mpr ⟨hlexemes.1, hcurrent⟩)
  | case4 delimiter rest outer current ih =>
    rw [List.forall_mem_cons] at hlexemes
    exact ih h hlexemes.2 (List.forall_mem_cons.mpr ⟨hcurrent, houter⟩) sound_nil
  | case5 => simp [nest?] at h
  | case6 rest opened before outer current ih =>
    -- the bracket closes the group that was opened last
    rw [List.forall_mem_cons] at hlexemes houter
    rw [nest?, if_pos rfl] at h
    have hgroup : Token.Sound (.group opened current.reverse) := .group _ (sound_reverse hcurrent)
    exact ih h hlexemes.2 houter.2 (sound_cons.mpr ⟨hgroup, houter.1⟩)
  | case7 delimiter rest opened before outer current hne =>
    rw [nest?, if_neg hne] at h
    cases h

/-- **The words of a text** are words of the language. -/
theorem sound_of_tokens? {text : String} {tokens : List Token} (h : tokens? text = some tokens) :
    Sound tokens := by
  unfold tokens? at h
  split at h
  · rename_i found hfound
    exact sound_of_nest? h (sound_of_lexemes? hfound) nofun sound_nil
  · cases h

/-! ### Identifiers -/

/-- **What is read as an identifier** is a word. -/
theorem isWord_of_identifier? {text name : String} (h : identifier? text = some name) :
    IsWord name.toList := by
  unfold identifier? at h
  split at h
  · rename_i word hword
    split at h
    · cases h
    · obtain rfl := Option.some.inj h
      exact (sound_of_tokens? hword).word
  · cases h

/-- A name without a `#` has no mark to drop. -/
theorem withoutRawMark_eq_self {name : String} (h : '#' ∉ name.toList) :
    withoutRawMark name = name := by
  unfold withoutRawMark
  split
  · rename_i rest hraw
    exact absurd (hraw ▸ List.mem_cons_of_mem _ List.mem_cons_self) h
  · rfl

/-- A word without its mark. -/
theorem isPlainWord_withoutRawMark {name : String} (h : IsWord name.toList) :
    IsPlainWord (withoutRawMark name).toList := by
  rcases (isWord_iff.mp h).2 with hplain | ⟨plain, hplain, -, hraw⟩
  · rwa [withoutRawMark_eq_self hplain.hash_not_mem]
  · have hname : withoutRawMark name = String.ofList plain := by
      rw [withoutRawMark, hraw]
      rfl
    rwa [hname, String.toList_ofList]

end TermNet.Source
