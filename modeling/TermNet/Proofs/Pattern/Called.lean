import TermNet.Proofs.Pattern.Parsed

namespace TermNet

open Source

/-!
# Reading a pattern

* `Called` — what a call stands for, one case for each of its meanings;
* `PatternTerm.simple_of_ofAttributed` — only expressions of few shapes stand for patterns;
* `PatternTerm.parsed_of_parse` — **what is known of a pattern that is read.**
-/

namespace PatternTerm

/-! ### Calls -/

/-- Two steps that succeed, one after the other. -/
theorem exists_of_bind {ε α β : Type} {x : Except ε α} {f : α → Except ε β} {b : β}
    (h : x >>= f = .ok b) : ∃ a, x = .ok a ∧ f a = .ok b := by
  cases x with
  | error e => cases h
  | ok a => exact ⟨a, rfl, h⟩

/-- An argument that is a wildcard is a pattern that is one. -/
theorem pattern_of_wildcard {a : Argument} {w : Wildcard} (h : a.wildcard = .ok w) :
    a.pattern = .ok (wildcard w) := by
  unfold Argument.wildcard at h
  split at h
  · rename_i p hp
    split at h
    · rename_i found hfound
      cases h
      cases p with
      | wildcard w =>
        cases hfound
        exact hp
      | _ => cases hfound
    · cases h
  · cases h

/-- The patterns of arguments are read one after the other, and all of them are read. -/
theorem mem_of_mapM_pattern {args : List Argument} {ps : List PatternTerm}
    (h : args.mapM Argument.pattern = .ok ps) :
    (∀ p ∈ ps, ∃ a ∈ args, a.pattern = .ok p) ∧ ∀ a ∈ args, ∃ p, a.pattern = .ok p := by
  induction args generalizing ps with
  | nil =>
    cases h
    exact ⟨nofun, nofun⟩
  | cons a args ih =>
    rw [List.mapM_cons] at h
    obtain ⟨p, hp, h⟩ := exists_of_bind h
    obtain ⟨more, hmore, h⟩ := exists_of_bind h
    cases h
    obtain ⟨hfound, hread⟩ := ih hmore
    refine ⟨fun q hq => ?_, List.forall_mem_cons.mpr ⟨⟨p, hp⟩, hread⟩⟩
    rcases List.mem_cons.mp hq with rfl | hq
    · exact ⟨a, List.mem_cons_self, hp⟩
    · obtain ⟨b, hb, hpattern⟩ := hfound q hq
      exact ⟨b, List.mem_cons_of_mem a hb, hpattern⟩

/-- What the call of a path stands for, given what its arguments stand for. -/
inductive Called (path : Path) : List Argument → PatternTerm → Prop
  | optional {first default : Argument} {w : Wildcard} {q : PatternTerm} {t : Term}
    (hw : first.pattern = .ok (wildcard w)) (hq : default.pattern = .ok q)
    (ht : q.toTerm? = some t) : Called path [first, default] (wildcard (w.withDefault t))
  | sym {first second : Argument} {w restricted : Wildcard} {kind : SymbolKind}
    (hw : first.pattern = .ok (wildcard w))
    (hkind : second.expression.name?.bind SymbolKind.ofName? = some kind)
    (hrestricted : w.withSymbolKind kind = .ok restricted) :
    Called path [first, second] (wildcard restricted)
  | seq {first second : Argument} {w counted : Wildcard} {q : PatternTerm} {count : Int64}
    (hw : first.pattern = .ok (wildcard w)) (hq : second.pattern = .ok q)
    (hcount : q.integer? = some count) (hcounted : w.withMinCount count.toInt = .ok counted) :
    Called path [first, second] (wildcard counted)
  | operation {head : Head} {args : List Argument} {ps : List PatternTerm}
    (hname : head.name ∈ path.names)
    (hplain : head.kind = .plain → head.name ∉ ["Optional", "Sym", "Seq"])
    (hps : args.mapM Argument.pattern = .ok ps) : Called path args (build head ps)

/-- The call of `Optional`: a wildcard and a default that is a term. -/
theorem called_of_ofOptional {tokens : List Token} {path : Path} {args : List Argument}
    {p : PatternTerm} (h : ofOptional tokens args = .ok p) : Called path args p := by
  unfold ofOptional at h
  split at h
  · cases h
  · obtain ⟨w, hw, h⟩ := exists_of_bind h
    split at h
    · obtain ⟨q, hq, h⟩ := exists_of_bind h
      split at h
      · rename_i t ht
        cases h
        exact .optional (pattern_of_wildcard hw) hq ht
      · cases h
    · cases h

/-- The call of `Sym`: a wildcard for one argument and a kind of symbols. -/
theorem called_of_ofSym {tokens : List Token} {path : Path} {args : List Argument}
    {p : PatternTerm} (h : ofSym tokens args = .ok p) : Called path args p := by
  unfold ofSym at h
  split at h
  · split at h
    · rename_i kind hkind
      obtain ⟨w, hw, h⟩ := exists_of_bind h
      obtain ⟨restricted, hrestricted, h⟩ := exists_of_bind h
      cases h
      exact .sym (pattern_of_wildcard hw) hkind hrestricted
    · cases h
  · cases h

/-- The call of `Seq`: a wildcard for a run and a number. -/
theorem called_of_ofSeq {tokens : List Token} {path : Path} {args : List Argument}
    {p : PatternTerm} (h : ofSeq tokens args = .ok p) : Called path args p := by
  unfold ofSeq at h
  split at h
  · obtain ⟨q, hq, h⟩ := exists_of_bind h
    split at h
    · rename_i count hcount
      obtain ⟨w, hw, h⟩ := exists_of_bind h
      obtain ⟨counted, hcounted, h⟩ := exists_of_bind h
      cases h
      exact .seq (pattern_of_wildcard hw) hq hcount hcounted
    · cases h
  · cases h

/-- Any other call is an operation of its arguments. -/
theorem called_of_ofOperation {path : Path} {head : Head} {args : List Argument} {p : PatternTerm}
    (hname : head.name ∈ path.names)
    (hplain : head.kind = .plain → head.name ∉ ["Optional", "Sym", "Seq"])
    (h : ofOperation head args = .ok p) : Called path args p := by
  unfold ofOperation at h
  cases hps : args.mapM Argument.pattern with
  | error error =>
    rw [hps] at h
    cases h
  | ok ps =>
    rw [hps] at h
    cases h
    exact .operation hname hplain hps

/-- A kind of operations that stands in front of a name is not the plain one. -/
theorem not_plain_of_ofQualifier? {qualifier : String} {kind : OpKind}
    (h : OpKind.ofQualifier? qualifier = some kind) : kind ≠ .plain := by
  unfold OpKind.ofQualifier? at h
  split at h <;> cases h <;> nofun

/-- **A call stands for** a wildcard or an operation. -/
theorem called_of_ofCall {tokens : List Token} {path : Path} {args : List Argument}
    {p : PatternTerm} (h : ofCall tokens path args = .ok p) : Called path args p := by
  unfold ofCall at h
  split at h
  · exact called_of_ofOptional h
  · exact called_of_ofSym h
  · exact called_of_ofSeq h
  · -- none of the names that make wildcards of their arguments
    rename_i name hoptional hsym hseq hnames
    refine called_of_ofOperation (by simp [hnames]) (fun _ hmem => ?_) h
    simp only [List.mem_cons, List.not_mem_nil, or_false] at hmem
    rcases hmem with rfl | rfl | rfl
    · exact hoptional rfl
    · exact hsym rfl
    · exact hseq rfl
  · rename_i qualifier name hnames
    split at h
    · rename_i kind hkind
      refine called_of_ofOperation (by simp [hnames]) (fun hplain => ?_) h
      exact absurd hplain (not_plain_of_ofQualifier? hkind)
    · cases h
  · cases h

end PatternTerm

/-! ### Expressions -/

namespace Source.Expression

/-- **Induction over expressions,** with all arguments of a call at once. -/
theorem inductionOn {motive : Expression → Prop} (number : ∀ literal, motive (.number literal))
    (blank : motive .blank) (path : ∀ p, motive (.path p))
    (paren : ∀ inner, motive inner → motive (.paren inner))
    (negated : ∀ operand, motive operand → motive (.negated operand))
    (binary : ∀ operator left right, motive left → motive right →
      motive (.binary operator left right))
    (call : ∀ function args comma, motive function → (∀ e ∈ args, motive e) →
      motive (.call function args comma))
    (attributed : ∀ attributes inner, motive inner → motive (.attributed attributes inner))
    (extended : ∀ left rest, motive left → motive (.extended left rest))
    (other : ∀ shape tokens, motive (.other shape tokens)) (e : Expression) : motive e :=
  @Expression.rec motive (fun es => ∀ e ∈ es, motive e) number blank path paren negated binary call
    attributed extended other (fun _ he => absurd he List.not_mem_nil)
    (fun _ _ hfirst hrest e he => (List.mem_cons.mp he).elim (fun heq => heq ▸ hfirst) (hrest e)) e

/-- An expression that is a path, attributes aside. -/
theorem simple_of_path? {e : Expression} {path : Path} (h : e.path? = some path) : e.Simple := by
  induction e using inductionOn with
  | path p => exact .path trivial
  | attributed attributes inner ih => exact .attributed attributes (ih h)
  | _ => cases h

/-- The names of a path are words if those of the expression are. -/
theorem Sound.of_path? {e : Expression} (he : e.Sound) {path : Path} (h : e.path? = some path) :
    path.Sound := by
  induction he with
  | path hp =>
    cases h
    exact hp
  | attributed attributes he ih => exact ih h
  | _ => cases h

end Source.Expression

namespace PatternTerm

/-- Each argument is an expression with the pattern that it is read as. -/
theorem argumentsOf_eq (es : List Expression) :
    argumentsOf es = es.map fun e => ⟨e, ofAttributed [] e⟩ := by
  induction es with
  | nil => rfl
  | cons e es ih => rw [argumentsOf, ih, List.map_cons]

/-- Every argument of a call stands for a pattern or is a name. -/
theorem Called.argument {path : Path} {args : List Argument} {p : PatternTerm}
    (h : Called path args p) : ∀ a ∈ args,
      (∃ q, a.pattern = .ok q) ∨ ∃ path, a.expression.path? = some path := by
  cases h with
  | optional hw hq ht =>
    rw [List.forall_mem_cons, List.forall_mem_singleton]
    exact ⟨.inl ⟨_, hw⟩, .inl ⟨_, hq⟩⟩
  | sym hw hkind hrestricted =>
    obtain ⟨name, hname, -⟩ := Option.bind_eq_some_iff.mp hkind
    obtain ⟨path, hpath, -⟩ := Option.bind_eq_some_iff.mp hname
    rw [List.forall_mem_cons, List.forall_mem_singleton]
    exact ⟨.inl ⟨_, hw⟩, .inr ⟨path, hpath⟩⟩
  | seq hw hq hcount hcounted =>
    rw [List.forall_mem_cons, List.forall_mem_singleton]
    exact ⟨.inl ⟨_, hw⟩, .inl ⟨_, hq⟩⟩
  | operation hname hplain hps => exact fun a ha => .inl ((mem_of_mapM_pattern hps).2 a ha)

/-- Only expressions that patterns are made of stand for patterns. -/
theorem simple_of_ofAttributed {e : Expression} {attributes : List Token} {p : PatternTerm}
    (h : ofAttributed attributes e = .ok p) : e.Simple := by
  induction e using Expression.inductionOn generalizing attributes p with
  | number literal => exact .number literal
  | blank => exact .blank
  | path path => exact .path trivial
  | paren inner ih => exact .paren (ih h)
  | negated operand ih =>
    rw [ofAttributed] at h
    cases hoperand : ofAttributed [] operand with
    | error error =>
      rw [hoperand] at h
      cases h
    | ok q => exact .negated (ih hoperand)
  | binary operator left right ihleft ihright =>
    rw [ofAttributed] at h
    split at h
    · cases h
    · rename_i l hleft
      split at h
      · cases h
      · rename_i r hright
        exact .binary operator (ihleft hleft) (ihright hright)
  | call function args comma ihfunction ihargs =>
    rw [ofAttributed] at h
    split at h
    · rename_i path hpath
      have hargument := (called_of_ofCall h).argument
      rw [argumentsOf_eq, List.forall_mem_map] at hargument
      -- the kind of symbols that a wildcard takes is a name, and need not stand for a pattern
      refine .call comma (Expression.simple_of_path? hpath) fun e he => ?_
      rcases hargument e he with ⟨q, hq⟩ | ⟨path, hpath⟩
      · exact ihargs e he hq
      · exact Expression.simple_of_path? hpath
    · cases h
  | attributed more inner ih => exact .attributed more (ih h)
  | extended left rest ih => cases h
  | other shape tokens => cases h

/-- **What a call is read as,** if its arguments have been read. -/
theorem parsed_of_called {path : Path} {args : List Argument} {p : PatternTerm}
    (hpath : path.Sound) (hargs : ∀ a ∈ args, ∀ q, a.pattern = .ok q → q.Parsed)
    (h : Called path args p) : p.Parsed := by
  cases h with
  | optional hw hq ht =>
    rw [List.forall_mem_cons, List.forall_mem_singleton] at hargs
    obtain ⟨hparsed, hcanonical⟩ := (hargs.2 _ hq).names.toTerm? ht
    exact .wildcard ((hargs.1 _ hw).of_wildcard.withDefault hparsed hcanonical)
  | sym hw hkind hrestricted =>
    exact .wildcard ((hargs _ List.mem_cons_self _ hw).of_wildcard.withSymbolKind hrestricted)
  | seq hw hq hcount hcounted =>
    exact .wildcard ((hargs _ List.mem_cons_self _ hw).of_wildcard.withMinCount hcounted)
  | operation hname hplain hps =>
    refine .build ⟨hpath _ hname, hplain⟩ fun q hq => ?_
    obtain ⟨a, ha, hpattern⟩ := (mem_of_mapM_pattern hps).1 q hq
    exact hargs a ha q hpattern

/-- **What an expression is read as,** by induction on it; attributes change the messages of errors
    only. -/
theorem parsed_of_ofAttributed {e : Expression} (he : e.Sound) {attributes : List Token}
    {p : PatternTerm} (h : ofAttributed attributes e = .ok p) : p.Parsed := by
  induction he generalizing attributes p with
  | number literal =>
    rw [ofAttributed] at h
    split at h
    · split at h
      · cases h
        exact .integer (ofNat_ne_minValue ‹_›)
      · cases h
    · cases h
  | blank =>
    cases h
    exact parsed_blank
  | path hpath => exact parsed_of_ofPath hpath h
  | paren _ ih => exact ih h
  | @negated operand _ ih =>
    rw [ofAttributed] at h
    cases hoperand : ofAttributed [] operand with
    | error error =>
      rw [hoperand] at h
      cases h
    | ok q =>
      rw [hoperand] at h
      cases h
      exact (ih hoperand).negate
  | binary operator _ _ ihleft ihright =>
    rw [ofAttributed] at h
    split at h
    · cases h
    · rename_i l hleft
      split at h
      · cases h
      · rename_i r hright
        exact parsed_of_ofBinary (ihleft hleft) (ihright hright) h
  | call comma hfunction hargs ihfunction ihargs =>
    rw [ofAttributed] at h
    split at h
    -- Only a path may be called, and it says what the call stands for.
    · rename_i path hpath
      refine parsed_of_called (Expression.Sound.of_path? hfunction hpath) ?_ (called_of_ofCall h)
      rw [argumentsOf_eq, List.forall_mem_map]
      exact fun e he q hq => ihargs e he hq
    · cases h
  | attributed more _ ih => exact ih h

/-- **Patterns that are read** have names that may stand in a path, and canonical operations. -/
theorem parsed_of_parse {text : String} {p : PatternTerm} (h : parse text = .ok p) : p.Parsed := by
  unfold parse at h
  split at h
  · rename_i e he
    exact parsed_of_ofAttributed (sound_of_ofText? he (simple_of_ofAttributed h)) h
  · cases h

end PatternTerm

end TermNet
