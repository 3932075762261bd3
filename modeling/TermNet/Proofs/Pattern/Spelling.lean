import TermNet.Pattern.Reading
import TermNet.Proofs.Pattern.Canonical
import TermNet.Proofs.Source.Spelling

namespace TermNet

open Source

/-!
# Terms and patterns as they are spelled

* `Head.spelling`, `Wildcard.spelling`, `PatternTerm.spelling` — the text of a tree, put together
  with the tokens and the expression that it is read as;
* `PatternTerm.toList_text` — its characters are the text of the tree;
* `PatternTerm.bindsAs_spellingWith` — it is grouped as a reader groups it.
-/

/-! ### Spellings -/

/-- The spelling of an integer, with a minus sign if it is negative. -/
def integerSpelling (value : Int64) : Spelling :=
  match value.toInt with
  | .ofNat n => .number n
  | .negSucc n => .negated (.number (n + 1))

/-- The spelling of a symbol, with its kind if that is not plain. -/
def Symbol.spelling (s : Symbol) : Spelling :=
  match s.kind with
  | .plain => .name s.name
  | kind => .qualified kind.name s.name

/-- The spelling of what is called, with the qualifier of its kind if that is not plain. -/
def Head.path (head : Head) : Spelling :=
  match head.kind with
  | .plain => .name head.name
  | kind => .qualified kind.qualifier head.name

/-- The spelling of an argument of a sum or product: in parentheses if its head asks for them. -/
def Head.operand (outer : Head) (arg : Option Head × Spelling) : Spelling :=
  if arg.1.any fun inner => inner.regroupsIn outer then .paren arg.2 else arg.2

/-- The spelling of an operation from those of its arguments, each with its head. -/
def Head.spelling (head : Head) (args : List (Option Head × Spelling)) : Spelling :=
  match args with
  | first :: second :: rest =>
    if head = .sum then ((second :: rest).map head.operand).foldl .plus (head.operand first)
    else if head = .product then
      ((second :: rest).map head.operand).foldl .times (head.operand first)
    else .call head.path (args.map Prod.snd)
  | _ => .call head.path (args.map Prod.snd)

namespace Wildcard

/-- The word that shows the name of a wildcard and what it takes. -/
def word (w : Wildcard) : String :=
  match w.extent with
  | .one _ => w.name.getD "" ++ "_"
  | .run 0 => w.name.getD "" ++ "___"
  | .run _ => w.name.getD "" ++ "__"

/-- The spelling of that word; the underscore alone is no name. -/
def wordSpelling (w : Wildcard) : Spelling := if w.word = "_" then .blank else .name w.word

/-- The spelling of a wildcard without its default. -/
def base (w : Wildcard) : Spelling :=
  match w.extent with
  | .one none => w.wordSpelling
  | .one (some kind) => .call (.name "Sym") [w.wordSpelling, .name kind.name]
  | .run 0 => w.wordSpelling
  | .run 1 => w.wordSpelling
  | .run n => .call (.name "Seq") [w.wordSpelling, .number n]

/-- The spelling of a wildcard. -/
def spelling (w : Wildcard) (default : Option Spelling) : Spelling :=
  match default with
  | some default => .call (.name "Optional") [w.base, default]
  | none => w.base

end Wildcard

namespace PatternTerm

/-- The head of an operation. -/
def head? : PatternTerm → Option Head
  | node head _ => some head
  | _ => none

mutual

/-- The spelling of a tree; `spell` spells the defaults of its wildcards. -/
def spellingWith (spell : Term → Spelling) : PatternTerm → Spelling
  | .atom (.integer value) => integerSpelling value
  | .atom (.symbol s) => s.spelling
  | .atom (.node ..) => .blank
  | .wildcard w => w.spelling (w.default.map spell)
  | .node head args => head.spelling (argumentsWith spell args)
termination_by structural p => p

/-- The spellings of arguments, each with its head. -/
def argumentsWith (spell : Term → Spelling) : List PatternTerm → List (Option Head × Spelling)
  | [] => []
  | p :: ps => (p.head?, spellingWith spell p) :: argumentsWith spell ps
termination_by structural ps => ps

end

end PatternTerm

/-- The spelling of a term. -/
def Term.spelling (t : Term) : Spelling := (PatternTerm.ofTerm t).spellingWith fun _ => .blank

/-- The spelling of a tree. -/
def PatternTerm.spelling (p : PatternTerm) : Spelling := p.spellingWith Term.spelling

/-! ### What is read back -/

/-- A symbol whose text is read back: its name is one word, and it is no wildcard. -/
def Symbol.Readable (s : Symbol) : Prop :=
  match s.kind with
  | .plain => IsName s.name ∧ s.name.toList.getLast? ≠ some '_'
  | _ => IsSegment s.name

/-- A head whose text is read back: its name is one word, and it does not make a wildcard of the
    arguments. -/
def Head.Readable (head : Head) : Prop :=
  match head.kind with
  | .plain => IsName head.name ∧ head.name ∉ ["Optional", "Sym", "Seq"]
  | _ => IsSegment head.name

/-- Whether the name of a symbol can be read back can be computed. -/
instance (s : Symbol) : Decidable s.Readable :=
  match s with
  | ⟨_, .plain⟩ => inferInstanceAs (Decidable (_ ∧ _))
  | ⟨name, .dummy⟩ | ⟨name, .constant⟩ => inferInstanceAs (Decidable (IsSegment name))

/-- Whether the name of a head can be read back can be computed. -/
instance (head : Head) : Decidable head.Readable :=
  match head with
  | ⟨_, .plain⟩ => inferInstanceAs (Decidable (_ ∧ _))
  | ⟨name, .associative⟩ | ⟨name, .commutative⟩ | ⟨name, .associativeCommutative⟩ =>
    inferInstanceAs (Decidable (IsSegment name))

/-- A term whose text is read back. -/
inductive Term.Readable : Term → Prop
  | integer {value : Int64} (h : value ≠ Int64.minValue) : Readable (.integer value)
  | symbol {s : Symbol} (h : s.Readable) : Readable (.symbol s)
  | node {head : Head} {args : List Term} (h : head.Readable) (hargs : ∀ t ∈ args, Readable t) :
    Readable (.node head args)

/-- A wildcard whose text is read back: its name and what it takes are seen at one word. -/
structure Wildcard.Readable (w : Wildcard) : Prop where
  name_ne : w.name ≠ some ""
  word : IsWord w.word.toList
  underscore : w.extent = .run 0 ∨ (w.name.getD "").toList.getLast? ≠ some '_'
  count : w.minCount ≤ PatternTerm.largestInteger
  default : ∀ t, w.default = some t → t.Readable ∧ t.Canonical

/-- A tree whose text is read back. -/
inductive PatternTerm.Readable : PatternTerm → Prop
  | integer {value : Int64} (h : value ≠ Int64.minValue) : Readable (.atom (.integer value))
  | symbol {s : Symbol} (h : s.Readable) : Readable (.atom (.symbol s))
  | wildcard {w : Wildcard} (h : w.Readable) : Readable (.wildcard w)
  | node {head : Head} {args : List PatternTerm} (h : head.Readable)
    (hargs : ∀ p ∈ args, Readable p) : Readable (.node head args)

/-! ### Characters -/

/-- The characters of texts with something between them. -/
theorem toList_joinWith (separator : String) (texts : List String) :
    (joinWith separator texts).toList = separator.toList.intercalate (texts.map String.toList) := by
  induction texts with
  | nil => rfl
  | cons text texts ih =>
    cases texts with
    | nil => simp [joinWith]
    | cons next texts =>
      rw [joinWith, String.toList_append, String.toList_append, ih]
      simp [List.intercalate_cons_cons]

/-- The digits of an integer, with a minus sign in front of a negative one. -/
theorem toList_toString_int (value : Int64) :
    (toString value.toInt).toList = (integerSpelling value).chars := by
  unfold integerSpelling
  split
  · rename_i n hn
    rw [hn]
    exact Nat.toList_repr
  · rename_i n hn
    rw [hn]
    show ("-" ++ (n + 1).repr).toList = _
    simp [Spelling.negated, Spelling.number]

/-- The text of a symbol is its spelling. -/
theorem Symbol.toList_text (s : Symbol) : s.text.toList = s.spelling.chars := by
  unfold Symbol.text Symbol.spelling
  cases s.kind <;> simp [Spelling.name, Spelling.qualified]

/-- The name of a head, with its kind if it has one, is its spelling. -/
theorem Head.toList_qualified (head : Head) : head.qualified.toList = head.path.chars := by
  unfold Head.qualified Head.path
  cases head.kind <;> simp [Spelling.name, Spelling.qualified]

/-- The characters of a sum: its summands with plus signs and blanks between them. -/
theorem Spelling.chars_foldl_plus (first : Spelling) (rest : List Spelling) :
    (rest.foldl .plus first).chars =
      " + ".toList.intercalate ((first :: rest).map Spelling.chars) := by
  induction rest generalizing first with
  | nil => simp
  | cons next rest ih =>
    rw [List.foldl_cons, ih]
    cases rest <;> simp [List.intercalate_cons_cons, Spelling.plus]

/-- The characters of a product: its factors with signs between them and no blanks. -/
theorem Spelling.chars_foldl_times (first : Spelling) (rest : List Spelling) :
    (rest.foldl .times first).chars =
      "*".toList.intercalate ((first :: rest).map Spelling.chars) := by
  induction rest generalizing first with
  | nil => simp
  | cons next rest ih =>
    rw [List.foldl_cons, ih]
    cases rest <;> simp [List.intercalate_cons_cons, Spelling.times]

namespace PatternTerm

variable {spell : Term → Spelling}

/-- The texts of trees, one by one. -/
theorem texts_eq (args : List PatternTerm) : texts args = args.map text := by
  induction args with
  | nil => rfl
  | cons p ps ih => rw [texts, ih, List.map_cons]

/-- The text of an argument of a sum or product. -/
def operandText (outer : Head) (p : PatternTerm) : String :=
  if p.head?.any fun inner => inner.regroupsIn outer then parenthesized p.text else p.text

/-- The texts of operands, one by one. -/
theorem operandTexts_eq (outer : Head) (args : List PatternTerm) :
    operandTexts outer args = args.map (operandText outer) := by
  induction args with
  | nil => rfl
  | cons p ps ih =>
    have hfirst : operandTexts outer (p :: ps) = operandText outer p :: operandTexts outer ps := by
      cases p <;> rfl
    rw [hfirst, ih, List.map_cons]

/-- The spellings of arguments with their heads, one by one. -/
theorem argumentsWith_eq (spell : Term → Spelling) (args : List PatternTerm) :
    argumentsWith spell args = args.map fun p => (p.head?, p.spellingWith spell) := by
  induction args with
  | nil => rfl
  | cons p ps ih => rw [argumentsWith, ih, List.map_cons]

/-- The text of an operand has parentheses where its spelling has them. -/
theorem toList_operandText {outer : Head} {p : PatternTerm}
    (h : p.text.toList = (p.spellingWith spell).chars) : (operandText outer p).toList =
      (outer.operand (p.head?, p.spellingWith spell)).chars := by
  unfold operandText Head.operand
  split <;> simp [parenthesized, Spelling.paren, h]

/-- The operands of a sum or product, joined as texts and as spellings. -/
theorem toList_joined (sign : String) (head : Head) {args : List PatternTerm}
    (h : ∀ p ∈ args, p.text.toList = (p.spellingWith spell).chars) :
    (joinWith sign (operandTexts head args)).toList =
      sign.toList.intercalate
        (((argumentsWith spell args).map head.operand).map Spelling.chars) := by
  rw [toList_joinWith, operandTexts_eq, argumentsWith_eq, List.map_map, List.map_map, List.map_map]
  exact congrArg _ (List.map_congr_left fun p hp => toList_operandText (h p hp))

/-- An operation is printed as a call if it has no sign, or fewer than two arguments. -/
theorem text_call {head : Head} {args : List PatternTerm}
    (h : head.infix? = none ∨ args.length < 2) :
    (node head args).text = head.qualified ++ parenthesized (joinWith ", " (texts args)) := by
  rw [text]
  rintro operator first second rest hinfix rfl
  rcases h with h | h
  · rw [h] at hinfix
    cases hinfix
  · simp only [List.length_cons] at h
    omega

/-- A sum or product of at least two arguments is printed with its sign between them. -/
theorem text_joined {head : Head} {sign : String} (h : head.infix? = some sign)
    (first second : PatternTerm) (rest : List PatternTerm) :
    (node head (first :: second :: rest)).text =
      joinWith sign (operandTexts head (first :: second :: rest)) := by
  rw [text]
  exact h

/-- The characters of an operation, from those of its arguments. -/
theorem toList_text_node {head : Head} {args : List PatternTerm}
    (h : ∀ p ∈ args, p.text.toList = (p.spellingWith spell).chars) :
    (node head args).text.toList = ((node head args).spellingWith spell).chars := by
  have hcall : (head.qualified ++ parenthesized (joinWith ", " (texts args))).toList =
      (Spelling.call head.path ((argumentsWith spell args).map Prod.snd)).chars := by
    have hargs : (texts args).map String.toList =
        ((argumentsWith spell args).map Prod.snd).map Spelling.chars := by
      rw [texts_eq, argumentsWith_eq, List.map_map, List.map_map, List.map_map]
      exact List.map_congr_left h
    rw [String.toList_append, Head.toList_qualified, parenthesized, String.toList_append,
      String.toList_append, toList_joinWith, hargs]
    rfl
  rw [spellingWith]
  match args, h, hcall with
  -- With less than two arguments there is no sign between them.
  | [], _, hcall => rw [text_call (.inr (by simp)), hcall]; rfl
  | [p], _, hcall => rw [text_call (.inr (by simp)), hcall]; rfl
  | first :: second :: rest, h, hcall =>
    have hjoined (sign : String) := toList_joined sign head h
    simp only [argumentsWith, Head.spelling] at hjoined hcall ⊢
    split
    · rename_i hsum
      have hsign : head.infix? = some " + " := by simp [Head.infix?, hsum]
      rw [text_joined hsign, hjoined,
        Spelling.chars_foldl_plus]
      rfl
    · rename_i hsum
      split
      · rename_i hproduct
        have hsign : head.infix? = some "*" := by rw [Head.infix?, if_neg hsum, if_pos hproduct]
        rw [text_joined hsign, hjoined,
          Spelling.chars_foldl_times]
        rfl
      · rename_i hproduct
        rw [text_call (.inl (by simp [Head.infix?, hsum, hproduct])), hcall]

/-- The spelling of a wildcard that is one word is that word. -/
theorem chars_wordSpelling (w : Wildcard) : w.wordSpelling.chars = w.word.toList := by
  rw [Wildcard.wordSpelling]
  split
  · rename_i h
    rw [h]
    rfl
  · rfl

/-- The text of a wildcard without its default is its spelling. -/
theorem toList_extentText (w : Wildcard) :
    (Wildcard.extentText (w.name.getD "") w.extent).toList = w.base.chars := by
  have hword := chars_wordSpelling w
  obtain ⟨name, extent, default⟩ := w
  match extent with
  | .one none | .run 0 | .run 1 => exact hword.symm
  | .one (some kind) =>
    rw [Wildcard.base]
    simp only [Spelling.call, Spelling.listChars, List.map_cons, List.map_nil, hword,
      List.intercalate_cons_cons, List.intercalate_singleton]
    simp [Wildcard.extentText, Wildcard.word, Spelling.name]
  | .run (n + 2) =>
    rw [Wildcard.base]
    simp only [Spelling.call, Spelling.listChars, List.map_cons, List.map_nil, hword,
      List.intercalate_cons_cons, List.intercalate_singleton]
    simp [Wildcard.extentText, Wildcard.word, Spelling.name, Spelling.number]

/-- **The characters of a spelling are the text of the tree.** -/
theorem toList_text {p : PatternTerm} (h : p.Readable)
    (hspell : ∀ w ∈ p.wildcards, ∀ t, w.default = some t → t.text.toList = (spell t).chars) :
    p.text.toList = (p.spellingWith spell).chars := by
  induction h with
  | integer h => exact toList_toString_int _
  | symbol h => exact Symbol.toList_text _
  | @wildcard w h =>
    rw [text, Wildcard.text, spellingWith]
    cases hdefault : w.default with
    | none => exact toList_extentText w
    | some t =>
      have ht := hspell w (by simp [wildcards]) t hdefault
      simp [Wildcard.spelling, toList_extentText, Spelling.call, Spelling.listChars,
        List.intercalate_cons_cons, Spelling.name, ht]
  | node h hargs ih =>
    refine toList_text_node fun p hp => ih p hp fun w hw => hspell w ?_
    rw [wildcards, mem_wildcardsAll]
    exact ⟨p, hp, hw⟩

/-! ### Grouping -/

end PatternTerm

/-- An integer binds as tightly as an operand does. -/
theorem spelled_integer (value : Int64) : Spelled .cast (integerSpelling value) := by
  unfold integerSpelling
  split
  · exact .number _
  · exact .negative _

/-- A symbol is spelled as a path. -/
theorem Symbol.Readable.spelledPath {s : Symbol} (h : s.Readable) : SpelledPath s.spelling := by
  unfold Symbol.Readable at h
  unfold Symbol.spelling
  cases hkind : s.kind <;> rw [hkind] at h
  · exact .name h.1
  · exact .qualified (by decide +kernel) h
  · exact .qualified (by decide +kernel) h

/-- A head is spelled as a path. -/
theorem Head.Readable.spelledPath {head : Head} (h : head.Readable) : SpelledPath head.path := by
  unfold Head.Readable at h
  unfold Head.path
  cases hkind : head.kind <;> rw [hkind] at h
  · exact .name h.1
  all_goals exact .qualified (by decide +kernel) h

/-- The word of a wildcard ends in an underscore. -/
theorem Wildcard.getLast?_word (w : Wildcard) : w.word.toList.getLast? = some '_' := by
  unfold Wildcard.word
  split <;> simp

/-- The word of a wildcard is a blank or a name. -/
theorem Wildcard.Readable.spelled_word {w : Wildcard} (h : w.Readable) :
    Spelled .cast w.wordSpelling := by
  unfold Wildcard.wordSpelling
  split
  · exact .blank
  · rename_i hne
    have hkeywords : ∀ word ∈ Text.keywords, word.toList.getLast? = some '_' → word = "_" := by
      decide
    refine .path (.name ⟨h.word, .inl ?_⟩)
    rw [← Bool.not_eq_true, Text.isKeyword, List.contains_iff_mem]
    exact fun hmem => hne (hkeywords _ hmem w.getLast?_word)

/-- A wildcard without its default is a word, or a call with that word. -/
theorem Wildcard.Readable.spelled_base {w : Wildcard} (h : w.Readable) : Spelled .cast w.base := by
  have hword := h.spelled_word
  unfold Wildcard.base
  split
  · exact hword
  · rename_i kind _
    have hkind : IsName kind.name := by cases kind <;> decide +kernel
    exact .call_pair (.name (by decide +kernel)) hword.castToSum
      (Spelled.path (.name hkind)).castToSum
  · exact hword
  · exact hword
  · exact .call_pair (.name (by decide +kernel)) hword.castToSum (Spelled.number _).castToSum

/-- The head of a spelling that binds as tightly as a level asks for no parentheses below the
    operators of that level. -/
def BindsAs (inner : Option Head) (s : Spelling) : Prop :=
  Spelled .sum s ∧ (inner ≠ some .sum → Spelled .product s) ∧
    (inner ≠ some .sum → inner ≠ some .product → Spelled .cast s)

/-- What binds as tightly as an operand does may stand in any operation. -/
theorem bindsAs_of_cast {inner : Option Head} {s : Spelling} (h : Spelled .cast s) :
    BindsAs inner s :=
  ⟨h.castToSum, fun _ => h.toProduct, fun _ _ => h⟩

/-- Summands bind as tightly as products. -/
theorem spelled_summand {arg : Option Head × Spelling} (h : BindsAs arg.1 arg.2) :
    Spelled .product (Head.operand .sum arg) := by
  unfold Head.operand
  split
  · exact (Spelled.paren h.1).toProduct
  · rename_i hnot
    refine h.2.1 fun hsum => hnot ?_
    rw [hsum]
    decide

/-- Factors bind as tightly as operands. -/
theorem spelled_factor {arg : Option Head × Spelling} (h : BindsAs arg.1 arg.2) :
    Spelled .cast (Head.operand .product arg) := by
  unfold Head.operand
  split
  · exact .paren h.1
  · rename_i hnot
    refine h.2.2 (fun hsum => hnot ?_) fun hproduct => hnot ?_
    · rw [hsum]
      decide
    · rw [hproduct]
      decide

/-- **Operations are grouped** as a reader groups them, if their arguments are. -/
theorem Head.Readable.bindsAs {head : Head} (h : head.Readable)
    {args : List (Option Head × Spelling)} (hargs : ∀ arg ∈ args, BindsAs arg.1 arg.2) :
    BindsAs (some head) (head.spelling args) := by
  have hcall : Spelled .cast (.call head.path (args.map Prod.snd)) := by
    refine .call h.spelledPath fun s hs => ?_
    obtain ⟨arg, harg, rfl⟩ := List.mem_map.mp hs
    exact (hargs arg harg).1
  unfold Head.spelling
  split
  · rename_i first second rest
    split
    · rename_i hsum
      subst hsum
      have hsum : Spelled .sum (((second :: rest).map (Head.operand .sum)).foldl .plus
          (Head.operand .sum first)) := .sum fun s hs => by
        rw [← List.map_cons, List.mem_map] at hs
        obtain ⟨arg, harg, rfl⟩ := hs
        exact spelled_summand (hargs arg harg)
      exact ⟨hsum, fun hne => absurd rfl hne, fun hne => absurd rfl hne⟩
    · split
      · rename_i hproduct
        subst hproduct
        have hproduct : Spelled .product
            (((second :: rest).map (Head.operand .product)).foldl .times
            (Head.operand .product first)) := .product fun s hs => by
          rw [← List.map_cons, List.mem_map] at hs
          obtain ⟨arg, harg, rfl⟩ := hs
          exact spelled_factor (hargs arg harg)
        exact ⟨hproduct.toSum, fun _ => hproduct, fun _ hne => absurd rfl hne⟩
      -- A call binds its arguments more tightly than any sign.
      · exact bindsAs_of_cast hcall
  · exact bindsAs_of_cast hcall

namespace PatternTerm

variable {spell : Term → Spelling}

/-- **The spelling of a tree is grouped** as a reader groups it. -/
theorem bindsAs_spellingWith {p : PatternTerm} (h : p.Readable)
    (hspell : ∀ w ∈ p.wildcards, ∀ t, w.default = some t → Spelled .sum (spell t)) :
    BindsAs p.head? (p.spellingWith spell) := by
  induction h with
  | integer h => exact bindsAs_of_cast (spelled_integer _)
  | symbol h => exact bindsAs_of_cast (.path h.spelledPath)
  | @wildcard w h =>
    refine bindsAs_of_cast ?_
    rw [spellingWith]
    cases hdefault : w.default with
    | none => exact h.spelled_base
    | some t =>
      exact .call_pair (.name (by decide +kernel)) h.spelled_base.castToSum
        (hspell w (by simp [wildcards]) t hdefault)
  | @node head args h hargs ih =>
    rw [spellingWith, argumentsWith_eq]
    refine h.bindsAs fun arg harg => ?_
    obtain ⟨p, hp, rfl⟩ := List.mem_map.mp harg
    refine ih p hp fun w hw => hspell w ?_
    rw [wildcards, mem_wildcardsAll]
    exact ⟨p, hp, hw⟩

end PatternTerm

end TermNet
