import TermNet.Proofs.Source.Following

namespace TermNet.Source.Grammar

open Reader TermNet.Text

/-!
# Operands are read as they are spelled

* `ReadsOperand`, `ReadsExpression` — a grammar that reads a spelling as its expression;
* `readsOperand_number`, `readsOperand_path`, `readsOperand_call`, … — the grammar one level up
  does for each kind of operand, if it does one level down for what the operand is made of.
-/

variable {g : Grammar}

/-- The grammar reads an operand as it is spelled. -/
def ReadsOperand (g : Grammar) (s : Spelling) : Prop :=
  ∀ rest, Ends .product rest → g.operand true (s.tokens ++ rest) = some (s.expression, rest)

/-- The grammar reads an expression as it is spelled. -/
def ReadsExpression (g : Grammar) (s : Spelling) : Prop :=
  ∀ rest, Ends .none rest → g.expression true (s.tokens ++ rest) = some (s.expression, rest)

/-- A number is one literal, which begins no longer operand. -/
theorem readsOperand_number (n : Nat) : ReadsOperand g.deeper (.number n) := by
  intro rest hrest
  have hatom : g.atom true (.literal (toString n) :: rest) =
      some (.number (toString n), rest) := by
    simp only [atom, bind_apply, get_apply, Option.bind_some, wholeNumber?_toString,
      Option.isSome_some, if_true]
    rfl
  exact operandRule_atom (by simp) hatom (trailerSteps_end hrest _ _) fun _ _ h => by cases h

/-- A blank is one word with a rule of its own. -/
theorem readsOperand_blank : ReadsOperand g.deeper .blank := by
  intro rest hrest
  have hatom : g.atom true (.word "_" :: rest) = some (.blank, rest) := by
    simp [atom, wordAtom, anyWord]
  exact operandRule_atom (by simp) hatom (trailerSteps_end hrest _ _) fun _ _ h => by cases h

/-- A minus sign in front of an operand, which is read one level down. -/
theorem readsOperand_negated {s : Spelling} (h : ReadsOperand g s) :
    ReadsOperand g.deeper (.negated s) := by
  intro rest hrest
  show g.operandRule true (.mark '-' (startsMark s.chars) :: (s.tokens ++ rest)) = _
  have hstarts : ∀ text ∈ ["#", "&"],
      starts text (.mark '-' (startsMark s.chars) :: (s.tokens ++ rest)) = false := by
    simp [starts, after?, afterChars?]
  have hafter : after? "-" (.mark '-' (startsMark s.chars) :: (s.tokens ++ rest)) =
      some (s.tokens ++ rest) := by
    simp [after?, afterChars?]
  have hminus : starts "-" (.mark '-' (startsMark s.chars) :: (s.tokens ++ rest)) = true := by
    rw [starts, hafter]
    rfl
  rw [operandRule]
  simp only [bind_apply, get_apply, Option.bind_some, outerAttributes_none (hstarts "#" (by simp)),
    hstarts "&" (by simp), hminus, Bool.false_eq_true, if_false, if_true, operator_apply hafter,
    h rest hrest]
  rfl

/-! ### Paths and calls -/

/-- A word that may stand in a path is a segment without generic arguments, if no angle follows. -/
theorem segment_word {w : String} (h : IsSegment w) {rest : List Token}
    (hrest : afterColons (starts "<") rest = false) :
    g.segment true (.word w :: rest) = some (⟨w, []⟩, rest) := by
  rw [segment]
  simp only [bind_apply, get_apply, Option.bind_some]
  -- words that stand for places take no generic arguments
  by_cases hplace : w = "try" ∨ w ∈ placeWords
  · simp [hplace]
  · have hif : ¬ (w = "try" || placeWords.contains w) = true := by simpa using hplace
    have hname : (w = "Self" || !isKeyword w) = true := by
      rcases h.2 with hword | hself | htry | hword
      · simp [hword]
      · simp [hself]
      · exact absurd (.inl htry) hplace
      · exact absurd (.inr hword) hplace
    simp only [set_apply, Option.bind_some, if_neg hif, hname, if_true, Bool.not_true, hrest,
      Bool.false_and, Bool.or_self, Bool.false_eq_true, if_false]
    rfl

/-- Without `::` there are no further segments. -/
theorem segmentSteps_end {rest : List Token} (h : after? "::" rest = none) (steps : Nat) :
    g.segmentSteps true (steps + 1) rest = some ([], rest) := by
  rw [segmentSteps]
  simp [startsSegment, afterColons, h]

/-- Behind `::` there is one further segment, if none follows it. -/
theorem segmentSteps_colons {segment : Segment} {ts more rest : List Token}
    (hcolons : after? "::" ts = some more) (hmore : startsGroup .parenthesis more = false)
    (hsegment : g.segment true more = some (segment, rest)) (hrest : after? "::" rest = none)
    (steps : Nat) : g.segmentSteps true (steps + 2) ts = some ([segment], rest) := by
  have hstarts : startsSegment ts = true := by simp [startsSegment, afterColons, hcolons, hmore]
  rw [segmentSteps]
  simp [hstarts, operator_apply hcolons, hsegment, segmentSteps_end hrest]

/-- A path that begins with a word has neither a type nor `::` in front. -/
theorem qualifiedPath_word {w : String} {first : Segment} {segments : List Segment}
    {ts more rest : List Token} (hfirst : g.segment true (.word w :: ts) = some (first, more))
    (hmore : g.moreSegments true more = some (segments, rest)) :
    g.qualifiedPath true (.word w :: ts) = some ({ segments := first :: segments }, rest) := by
  have hstarts : ∀ text ∈ ["<", "::"], starts text (.word w :: ts) = false := by
    simp [starts, after?, afterChars?]
  simp [qualifiedPath, path, optionalOperator, whenAhead, hstarts, hfirst, hmore]

/-- **A name, or a name with a qualifier,** is read as a path and not as a macro or a record. -/
theorem pathOperand_spelled {s : Spelling} (h : SpelledPath s) {rest : List Token}
    (hrest : EndsPath rest) :
    g.pathOperand true (s.tokens ++ rest) = some (s.expression, rest) := by
  have hfollow : afterColons (starts "<") rest = false := by simp [afterColons, hrest.colons]
  have hend : g.moreSegments true rest = some ([], rest) := by
    simp [moreSegments, segmentSteps_end hrest.colons]
  obtain ⟨path, hexpression, hpath⟩ : ∃ path : Path, s.expression = .path path ∧
      g.qualifiedPath true (s.tokens ++ rest) = some (path, rest) := by
    cases h with
    | @name w h =>
      exact ⟨_, rfl, qualifiedPath_word (segment_word h.isSegment hfollow) hend⟩
    -- A qualifier could be followed by generic arguments; here it is by another name.
    | @qualified qualifier w hqualifier h =>
      have hcolons : after? "::" (mark "::" ++ .word w :: rest) = some (.word w :: rest) := by
        simp [after?, afterChars?, mark, markChars]
      have hangle : afterColons (starts "<") (mark "::" ++ .word w :: rest) = false := by
        rw [afterColons, hcolons]
        exact starts_eq_false (by simp) (by simp) rest
      have hmore : g.moreSegments true (mark "::" ++ .word w :: rest) = some ([⟨w, []⟩], rest) :=
        segmentSteps_colons hcolons rfl (segment_word h hfollow) hrest.colons _
      have htokens : (Spelling.qualified qualifier w).tokens ++ rest =
          .word qualifier :: (mark "::" ++ .word w :: rest) := by
        simp [Spelling.qualified]
      rw [htokens]
      exact ⟨_, rfl, qualifiedPath_word (segment_word hqualifier.isSegment hangle) hmore⟩
  rw [pathOperand, hexpression]
  simp [hpath, hrest.exclamation, hrest.brace]

/-- A name begins a path: no rule for keywords applies to it. -/
theorem wordAtom_name {w : String} (h : IsName w) {rest : List Token}
    (hrest : starts "#" rest = false) : g.wordAtom true w rest = g.pathOperand true := by
  obtain ⟨-, h⟩ := h
  have hname : (!isKeyword w || w = "Self" || placeWords.contains w) = true := by
    rcases h with h | h | h <;> simp [h]
  unfold wordAtom
  -- the words with rules of their own are keywords
  split <;> try exact absurd h (by decide)
  simp only [hrest, Bool.and_false, Bool.false_eq_true, if_false]
  rw [if_pos hname]

/-- A path is read as an atom; its first token is a word. -/
theorem atom_path {s : Spelling} (h : SpelledPath s) {rest : List Token} (hrest : EndsPath rest) :
    ∃ w ts, s.tokens ++ rest = .word w :: ts ∧
      g.atom true (s.tokens ++ rest) = some (s.expression, rest) := by
  obtain ⟨w, ts, htokens, hname, hhash⟩ : ∃ w ts, s.tokens ++ rest = .word w :: ts ∧ IsName w ∧
      starts "#" ts = false := by
    cases h with
    | name h => exact ⟨_, _, rfl, h, hrest.hash⟩
    | qualified hqualifier h =>
      refine ⟨_, _, rfl, hqualifier, ?_⟩
      simp [starts, after?, afterChars?, mark, markChars]
  refine ⟨w, ts, htokens, ?_⟩
  have hpath := pathOperand_spelled (g := g) h hrest
  rw [htokens] at hpath ⊢
  rw [atom]
  simp only [bind_apply, get_apply, Option.bind_some]
  rw [wordAtom_name hname hhash, hpath]

/-- A path is an operand with nothing behind it. -/
theorem readsOperand_path {s : Spelling} (h : SpelledPath s) : ReadsOperand g.deeper s := by
  intro rest hrest
  obtain ⟨w, ts, htokens, hatom⟩ := atom_path (g := g) h hrest.endsPath
  rw [htokens] at hatom ⊢
  refine operandRule_atom (by simp) hatom (trailerSteps_end hrest _ _) ?_
  cases h <;> exact fun _ _ h => by cases h

/-! ### Arguments -/

/-- Two arguments have a comma between them. -/
theorem listTokens_cons_cons (s next : Spelling) (args : List Spelling) :
    Spelling.listTokens (s :: next :: args) =
      s.tokens ++ .mark ',' false :: Spelling.listTokens (next :: args) := by
  simp [Spelling.listTokens, separated, mark, markChars]

/-- The last item of a list has no separator behind it. -/
theorem untilSteps_last {α : Type} {separator : String} {ends : List Token → Bool}
    {item : Reader α} {found : α} {ts rest : List Token} (hts : ends ts = false)
    (hitem : item ts = some (found, rest)) (hrest : ends rest = true) (steps : Nat) :
    untilSteps separator ends item (steps + 1) ts = some ([(found, false)], rest) := by
  rw [untilSteps]
  simp [hts, hitem, hrest]

/-- An item with a separator behind it, and the items that follow. -/
theorem untilSteps_more {α : Type} {separator : String} {ends : List Token → Bool}
    {item : Reader α} {first : α} {found : List (α × Bool)} {ts middle more rest : List Token}
    (hts : ends ts = false) (hitem : item ts = some (first, middle)) (hmiddle : ends middle = false)
    (hseparator : after? separator middle = some more) {steps : Nat}
    (hmore : untilSteps separator ends item steps more = some (found, rest)) :
    untilSteps separator ends item (steps + 1) ts = some ((first, true) :: found, rest) := by
  rw [untilSteps]
  simp [hts, hitem, hmiddle, operator_apply hseparator, hmore]

/-- Arguments are read one after the other, up to the end. -/
theorem untilSteps_arguments {args : List Spelling}
    (h : ∀ s ∈ args, Begins s.tokens ∧ ReadsExpression g s) (steps : Nat)
    (hsteps : (Spelling.listTokens args).length < steps) :
    ∃ found, untilSteps "," List.isEmpty (g.expression true) steps (Spelling.listTokens args) =
      some (found, []) ∧ found.map Prod.fst = args.map Spelling.expression ∧
      found.getLast?.any Prod.snd = false := by
  induction args generalizing steps with
  | nil =>
    obtain ⟨steps, rfl⟩ : ∃ before, steps = before + 1 := ⟨steps - 1, by omega⟩
    exact ⟨[], rfl, rfl, rfl⟩
  | cons s args ih =>
    obtain ⟨steps, rfl⟩ : ∃ before, steps = before + 1 := ⟨steps - 1, by omega⟩
    obtain ⟨hs, hread⟩ := h s List.mem_cons_self
    cases args with
    | nil =>
      -- no comma is behind the last argument
      have htokens : Spelling.listTokens [s] = s.tokens ++ [] := (List.append_nil _).symm
      rw [htokens]
      exact ⟨_, untilSteps_last (hs.append _).isEmpty_eq (hread [] .nil) rfl steps, rfl, rfl⟩
    | cons next args =>
      rw [listTokens_cons_cons] at hsteps ⊢
      obtain ⟨found, hfound, hmap, hlast⟩ :=
        ih (fun a ha => h a (List.mem_cons_of_mem s ha)) steps (by
          simp only [List.length_append, List.length_cons] at hsteps
          omega)
      have hcomma : after? "," (.mark ',' false :: Spelling.listTokens (next :: args)) =
          some (Spelling.listTokens (next :: args)) := by
        simp [after?, afterChars?]
      refine ⟨(s.expression, true) :: found, ?_, by rw [List.map_cons, hmap]; rfl, ?_⟩
      · exact untilSteps_more (hs.append _).isEmpty_eq (hread _ (.comma _)) rfl hcomma hfound
      · cases found with
        | nil => cases hmap
        | cons first found => rw [List.getLast?_cons_cons, hlast]

/-- **The arguments of a call** are read as they are spelled, without a comma at the end. -/
theorem arguments_list (args : List Spelling)
    (h : ∀ s ∈ args, Begins s.tokens ∧ ReadsExpression g s) :
    g.arguments (Spelling.listTokens args) = some ((args.map Spelling.expression, false), []) := by
  obtain ⟨found, hfound, hmap, hlast⟩ := untilSteps_arguments h _ (Nat.lt_succ_self _)
  simp [arguments, listUntil, hfound, hmap, hlast]

/-- **A call** is a path with arguments in parentheses behind it. -/
theorem readsOperand_call {f : Spelling} (hf : SpelledPath f) {args : List Spelling}
    (h : ∀ s ∈ args, Begins s.tokens ∧ ReadsExpression g s) :
    ReadsOperand g.deeper (.call f args) := by
  intro rest hrest
  have htokens : (Spelling.call f args).tokens ++ rest =
      f.tokens ++ .group .parenthesis (Spelling.listTokens args) :: rest := by
    simp [Spelling.call]
  obtain ⟨w, ts, hword, hatom⟩ := atom_path (g := g) hf (endsPath_arguments _ rest)
  rw [htokens, hword]
  rw [hword] at hatom
  refine operandRule_atom (by simp) hatom ?_ fun _ _ h => by cases h
  rw [trailers]
  simp only [bind_apply, stepsOfLoop_apply, Option.bind_some]
  rw [trailerSteps_call (arguments_list args h)]
  exact trailerSteps_end hrest _ _

/-- One expression in parentheses is that expression, and not a tuple. -/
theorem readsOperand_paren {s : Spelling} (h : Begins s.tokens ∧ ReadsExpression g s) :
    ReadsOperand g.deeper (.paren s) := by
  intro rest hrest
  have hargs : g.arguments s.tokens = some (([s.expression], false), []) :=
    arguments_list [s] (by simpa using h)
  have hatom : g.atom true (.group .parenthesis s.tokens :: rest) =
      some (.paren s.expression, rest) := by
    simp [atom, tuple, inside, hargs]
  exact operandRule_atom (by simp) hatom (trailerSteps_end hrest _ _) fun _ _ h => by cases h

end TermNet.Source.Grammar
