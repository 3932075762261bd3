import TermNet.Proofs.Pattern.Built

namespace TermNet

/-!
# Positional names

Every variable gets the name of the position at which it first occurs.  Different positions
have different names, so that no two variables are mixed up.

* `positionalName_injective` — positions are read off their names;
* `PatternTerm.find?_positionalNames` — the positional name of a variable;
* `PatternTerm.positionalNames_injective` — different variables get different names.
-/

/-! ### Names of paths -/

/-- The text of a path behind its first position. -/
def pathTail : List Nat → List Char
  | [] => []
  | position :: rest => '.' :: (Nat.toDigits 10 position ++ pathTail rest)

/-- Different numbers have different digits. -/
theorem toDigits_injective {m n : Nat} (h : Nat.toDigits 10 m = Nat.toDigits 10 n) : m = n := by
  have hback := congrArg (Nat.ofDigitChars 10 · 0) h
  simpa using hback

/-- The first position of a path is read off up to the next dot. -/
theorem takeWhile_digits (position : Nat) (rest : List Nat) :
    (Nat.toDigits 10 position ++ pathTail rest).takeWhile Char.isDigit =
      Nat.toDigits 10 position := by
  have hdigits : ∀ c ∈ Nat.toDigits 10 position, c.isDigit = true := fun c hc =>
    Nat.isDigit_of_mem_toDigits (by decide) (by decide) hc
  rw [List.takeWhile_append_of_pos hdigits]
  cases rest with
  | nil => simp [pathTail]
  | cons next more =>
    have hdot : '.'.isDigit = false := by decide
    simp [pathTail, hdot]

/-- A number with a path behind it can be told from others, since no digit is a point. -/
theorem digits_append_injective {m n : Nat} {ms ns : List Nat}
    (h : Nat.toDigits 10 m ++ pathTail ms = Nat.toDigits 10 n ++ pathTail ns) :
    m = n ∧ pathTail ms = pathTail ns := by
  have hfirst := congrArg (List.takeWhile Char.isDigit) h
  rw [takeWhile_digits, takeWhile_digits] at hfirst
  rw [hfirst] at h
  exact ⟨toDigits_injective hfirst, List.append_cancel_left h⟩

/-- The rest of a path can be read off its text. -/
theorem pathTail_injective {ms ns : List Nat} (h : pathTail ms = pathTail ns) : ms = ns := by
  induction ms generalizing ns with
  | nil =>
    cases ns with
    | nil => rfl
    | cons n ns => simp [pathTail] at h
  | cons m ms ih =>
    cases ns with
    | nil => simp [pathTail] at h
    | cons n ns =>
      obtain ⟨rfl, htail⟩ := digits_append_injective (List.cons.inj h).2
      rw [ih htail]

/-- The characters of a path: its first position, and the others with points in front of them. -/
theorem toList_joinWith_positions (position : Nat) (rest : List Nat) :
    (joinWith "." ((position :: rest).map toString)).toList =
      Nat.toDigits 10 position ++ pathTail rest := by
  induction rest generalizing position with
  | nil => simp [joinWith, pathTail]
  | cons next more ih =>
    have hnext := ih next
    simp only [List.map_cons] at hnext ⊢
    rw [joinWith, String.toList_append, String.toList_append, hnext]
    simp [pathTail]

/-- **Positions are read off their names.** -/
theorem positionalName_injective {path other : List Nat}
    (h : PatternTerm.positionalName path = PatternTerm.positionalName other) : path = other := by
  rw [PatternTerm.positionalName, PatternTerm.positionalName, String.append_right_inj] at h
  have htext := congrArg String.toList h
  cases path with
  | nil =>
    cases other with
    | nil => rfl
    | cons n ns =>
      rw [toList_joinWith_positions] at htext
      -- A number has at least one digit.
      have hnil := List.append_eq_nil_iff.mp htext.symm
      exact absurd hnil.1 Nat.toDigits_ne_nil
  | cons m ms =>
    cases other with
    | nil =>
      rw [toList_joinWith_positions] at htext
      have hnil := List.append_eq_nil_iff.mp htext
      exact absurd hnil.1 Nat.toDigits_ne_nil
    | cons n ns =>
      rw [toList_joinWith_positions, toList_joinWith_positions] at htext
      obtain ⟨rfl, htail⟩ := digits_append_injective htext
      rw [pathTail_injective htail]

namespace PatternTerm

/-! ### Occurrences -/

mutual

/-- The paths of the named wildcards, from left to right. -/
def paths (path : List Nat) : PatternTerm → List (List Nat)
  | .atom _ => []
  | .wildcard w => if w.name.isSome then [path] else []
  | .node _ args => pathsFrom path 0 args
termination_by structural p => p

/-- The paths of the named wildcards of arguments that stand from `position` on. -/
def pathsFrom (path : List Nat) (position : Nat) : List PatternTerm → List (List Nat)
  | [] => []
  | p :: ps => paths (path ++ [position]) p ++ pathsFrom path (position + 1) ps
termination_by structural ps => ps

end

/-- What holds of the occurrences in trees holds of those in lists of arguments. -/
theorem occurrencesFrom_names {args : List PatternTerm}
    (h : ∀ p ∈ args, ∀ path,
      (occurrences path p).map Prod.fst = p.wildcards.filterMap Wildcard.name)
    (path : List Nat) (position : Nat) :
    (occurrencesFrom path position args).map Prod.fst =
      (wildcardsAll args).filterMap Wildcard.name := by
  induction args generalizing position with
  | nil => rfl
  | cons p ps ih =>
    rw [occurrencesFrom, wildcardsAll, List.map_append, List.filterMap_append,
      h p List.mem_cons_self, ih fun q hq => h q (List.mem_cons_of_mem p hq)]

/-- The occurrences are those of the named wildcards. -/
theorem occurrences_names (p : PatternTerm) (path : List Nat) :
    (occurrences path p).map Prod.fst = p.wildcards.filterMap Wildcard.name := by
  induction p using inductionOn generalizing path with
  | atom t => rfl
  | wildcard w =>
    rw [occurrences, wildcards]
    cases hname : w.name with
    | none => simp [hname]
    | some x => simp [hname]
  | node head args ih => exact occurrencesFrom_names ih path 0

/-- The positions of what occurs in arguments, by induction on them. -/
theorem occurrencesFrom_positions {args : List PatternTerm}
    (h : ∀ p ∈ args, ∀ path, (occurrences path p).map Prod.snd = (paths path p).map positionalName)
    (path : List Nat) (position : Nat) :
    (occurrencesFrom path position args).map Prod.snd =
      (pathsFrom path position args).map positionalName := by
  induction args generalizing position with
  | nil => rfl
  | cons p ps ih =>
    rw [occurrencesFrom, pathsFrom, List.map_append, List.map_append, h p List.mem_cons_self,
      ih fun q hq => h q (List.mem_cons_of_mem p hq)]

/-- **Every occurrence is named after the path to it.** -/
theorem occurrences_positions (p : PatternTerm) (path : List Nat) :
    (occurrences path p).map Prod.snd = (paths path p).map positionalName := by
  induction p using inductionOn generalizing path with
  | atom t => rfl
  | wildcard w =>
    rw [occurrences, paths]
    cases hname : w.name with
    | none => rfl
    | some x => rfl
  | node head args ih => exact occurrencesFrom_positions ih path 0

/-- The paths of a tree at `path` start with it, and are different. -/
structure Branching (path : List Nat) (found : List (List Nat)) : Prop where
  below : ∀ other ∈ found, path <+: other
  nodup : found.Nodup

/-- The paths to what occurs in arguments begin with the positions of the arguments. -/
theorem branching_pathsFrom {args : List PatternTerm}
    (h : ∀ p ∈ args, ∀ path, Branching path (paths path p)) (path : List Nat) (position : Nat) :
    (∀ other ∈ pathsFrom path position args, ∃ k, position ≤ k ∧ path ++ [k] <+: other) ∧
      (pathsFrom path position args).Nodup := by
  induction args generalizing position with
  | nil => exact ⟨fun other hother => absurd hother List.not_mem_nil, .nil⟩
  | cons p ps ih =>
    obtain ⟨hbelow, hnodup⟩ := h p List.mem_cons_self (path ++ [position])
    obtain ⟨hrest, hnodup'⟩ := ih (fun q hq => h q (List.mem_cons_of_mem p hq)) (position + 1)
    rw [pathsFrom]
    constructor
    · intro other hother
      rcases List.mem_append.mp hother with hother | hother
      · exact ⟨position, Nat.le_refl _, hbelow other hother⟩
      · obtain ⟨k, hk, hprefix⟩ := hrest other hother
        exact ⟨k, Nat.le_of_succ_le hk, hprefix⟩
    · refine List.nodup_append'.mpr ⟨hnodup, hnodup', fun other hfirst hlater => ?_⟩
      -- The two paths would differ right behind `path`.
      obtain ⟨more, hmore⟩ := hbelow other hfirst
      obtain ⟨k, hk, more', hmore'⟩ := hrest other hlater
      rw [← hmore'] at hmore
      simp only [List.append_assoc, List.append_cancel_left_eq, List.cons_append,
        List.nil_append, List.cons.injEq] at hmore
      omega

/-- All paths to occurrences in a tree are different, and none is the beginning of another. -/
theorem branching_paths (p : PatternTerm) (path : List Nat) : Branching path (paths path p) := by
  induction p using inductionOn generalizing path with
  | atom t => exact ⟨fun other hother => absurd hother List.not_mem_nil, .nil⟩
  | wildcard w =>
    rw [paths]
    split
    · exact ⟨fun other hother => List.mem_singleton.mp hother ▸ List.prefix_rfl,
        List.nodup_singleton _⟩
    · exact ⟨fun other hother => absurd hother List.not_mem_nil, .nil⟩
  | node head args ih =>
    obtain ⟨hbelow, hnodup⟩ := branching_pathsFrom ih path 0
    refine ⟨fun other hother => ?_, hnodup⟩
    obtain ⟨k, -, hprefix⟩ := hbelow other hother
    exact (List.prefix_append path [k]).trans hprefix

/-- The positions of all occurrences have different names. -/
theorem nodup_positions (p : PatternTerm) : ((occurrences [] p).map Prod.snd).Nodup := by
  rw [occurrences_positions]
  exact (branching_paths p []).nodup.map fun _ _ => positionalName_injective

/-! ### Names of variables -/

/-- A name that occurs more than once keeps its first position. -/
theorem find?_foldl_insertNew (known : NameMap String) (found : List (String × String))
    (x : String) :
    (found.foldl (fun names (name, position) => names.insertNew name position) known).find? x =
      (known.find? x).or (found.lookup x) := by
  induction found generalizing known with
  | nil => simp
  | cons first rest ih =>
    obtain ⟨name, position⟩ := first
    rw [List.foldl_cons, ih, NameMap.find?_insertNew, List.lookup_cons]
    by_cases hx : x = name
    · cases hknown : known.find? name <;> simp [hx, hknown]
    · have hbeq : (x == name) = false := beq_eq_false_iff_ne.mpr hx
      simp [hx, hbeq]

/-- **The positional name of a variable** is that of its first occurrence. -/
theorem find?_positionalNames (p : PatternTerm) (x : String) :
    p.positionalNames.find? x = (occurrences [] p).lookup x := by
  rw [positionalNames, find?_foldl_insertNew, NameMap.find?_empty, Option.none_or]

/-- What is looked up in a list is in it. -/
theorem mem_of_lookup {pairs : List (String × String)} {x y : String}
    (h : pairs.lookup x = some y) : (x, y) ∈ pairs := by
  obtain ⟨before, after, rfl, -⟩ := List.lookup_eq_some_iff.mp h
  exact List.mem_append_right _ List.mem_cons_self

/-- Every variable has a positional name. -/
theorem exists_positionalName (p : PatternTerm) {x : String} (h : x ∈ p.variableNames) :
    ∃ y, p.positionalNames.find? x = some y := by
  obtain ⟨w, hw, hname⟩ := mem_variableNames.mp h
  have hmem : x ∈ (occurrences [] p).map Prod.fst := by
    rw [occurrences_names]
    exact List.mem_filterMap.mpr ⟨w, hw, hname⟩
  rw [find?_positionalNames]
  by_contra hnone
  have hlookup : (occurrences [] p).lookup x = none :=
    Option.eq_none_iff_forall_ne_some.mpr fun y hy => hnone ⟨y, hy⟩
  obtain ⟨⟨name, position⟩, hpair, rfl⟩ := List.mem_map.mp hmem
  simpa using List.lookup_eq_none_iff.mp hlookup _ hpair

/-- Only variables have positional names. -/
theorem mem_variableNames_of_positionalName (p : PatternTerm) {x y : String}
    (h : p.positionalNames.find? x = some y) : x ∈ p.variableNames := by
  rw [find?_positionalNames] at h
  have hmem := List.mem_map_of_mem (f := Prod.fst) (mem_of_lookup h)
  rw [occurrences_names, List.mem_filterMap] at hmem
  exact mem_variableNames.mpr hmem

/-- **Different variables get different names.** -/
theorem positionalNames_injective (p : PatternTerm) {x x' y : String}
    (h : p.positionalNames.find? x = some y) (h' : p.positionalNames.find? x' = some y) :
    x = x' := by
  rw [find?_positionalNames] at h h'
  have heq := List.inj_on_of_nodup_map p.nodup_positions (mem_of_lookup h) (mem_of_lookup h') rfl
  exact congrArg Prod.fst heq

end PatternTerm

/-! ### Bindings of positional names -/

/-- The positional name that a variable gets. -/
def Pattern.position (pattern : Pattern) (x : String) : String :=
  (pattern.tree.positionalNames.find? x).getD x

/-- The positional name of a variable that has one. -/
theorem Pattern.position_eq {pattern : Pattern} {x y : String}
    (h : pattern.tree.positionalNames.find? x = some y) : pattern.position x = y := by
  rw [position, h, Option.getD_some]

/-- The variables of the positional tree are those of the pattern, by their positions. -/
theorem Pattern.mem_variableNames_positionalTree {pattern : Pattern} {x : String}
    (h : x ∈ pattern.tree.variableNames) :
    pattern.position x ∈ pattern.positionalTree.variableNames :=
  (PatternTerm.mem_variableNames_mapVariables _ _).mpr ⟨x, h, rfl⟩

/-- What a variable is bound to after its positional name has been replaced. -/
theorem Pattern.find?_renamed_position (pattern : Pattern) (τ : Substitution) {x : String}
    (h : x ∈ pattern.tree.variableNames) :
    (τ.renamed pattern.tree.positionalNames.entries).find? x = τ.find? (pattern.position x) := by
  obtain ⟨y, hy⟩ := pattern.tree.exists_positionalName h
  rw [Substitution.find?_renamed (NameMap.nodup_names _), NameMap.lookup_entries, hy,
    Option.bind_some, position_eq hy]

/-- Names that are no variables of the pattern are not bound by renaming back. -/
theorem Pattern.find?_renamed_of_not_mem (pattern : Pattern) (τ : Substitution) {x : String}
    (h : x ∉ pattern.tree.variableNames) :
    (τ.renamed pattern.tree.positionalNames.entries).find? x = none := by
  rw [Substitution.find?_renamed (NameMap.nodup_names _), NameMap.lookup_entries]
  cases hfind : pattern.tree.positionalNames.find? x with
  | none => rfl
  | some y => exact absurd (pattern.tree.mem_variableNames_of_positionalName hfind) h

/-- Renamed constraints hold as the constraints do. -/
theorem Pattern.holds_renamed {pattern : Pattern} {σ τ : Substitution}
    (h : ∀ x ∈ pattern.tree.variableNames, τ.find? (pattern.position x) = σ.find? x)
    {c : Constraint} (hc : ∀ x ∈ c.variableNames, x ∈ pattern.tree.variableNames) :
    (c.renamed pattern.tree.positionalNames).holds τ = c.holds σ :=
  Substitution.satisfies_map (fun x hx => h x (hc x hx)) c.check.holds

/-- All positional constraints hold if the pattern is satisfied. -/
theorem Pattern.Built.accepts_iff {pattern : Pattern} (hpattern : pattern.Built)
    {σ τ : Substitution}
    (h : ∀ x ∈ pattern.tree.variableNames, τ.find? (pattern.position x) = σ.find? x) :
    pattern.accepts σ = true ↔
      ∀ c ∈ pattern.positionalLocals ++ pattern.positionalGlobals, c.holds τ = true := by
  rw [accepts, List.all_eq_true, positionalLocals, positionalGlobals, ← List.map_append,
    List.forall_mem_map]
  refine forall₂_congr fun c hc => ?_
  rw [holds_renamed h (hpattern.constraint c hc).2]

end TermNet
