import TermNet.Proofs.Denotation.Patterns
import TermNet.Proofs.Net.Trusting

namespace TermNet

/-!
# What symbol wildcards are bound to

A symbol wildcard accepts the symbols of its kind only, wherever it stands.  The exception are
symbol wildcards with a default among commutative arguments: they become sequence variables for
at most one argument, which do not look at its kind.

* `Wildcard.Takes.symbol` — the binding of one symbol wildcard;
* `Pattern.symbols_of_mem_solutions` — the matches of one pattern;
* `symbol_wildcards_bind_symbols` — the matches of the net of a list of patterns.
-/

/-- **A symbol wildcard is bound to one term:** its default, or a symbol of its kind, unless it
    has a default and stands among commutative arguments. -/
theorem Wildcard.Takes.symbol {parent : Option Head} {w : Wildcard} {kind : SymbolKind}
    {ts : List Term} {b : Binding} (h : w.Takes parent ts b) (hkind : w.symbolKind = some kind) :
    ∃ t, b = .single t ∧ ((w.isOptional = true → unordered parent = false) →
      t.isSymbolOf kind = true ∨ w.default = some t) := by
  have hextent : w.extent = .one (some kind) := by
    unfold Wildcard.symbolKind at hkind
    split at hkind
    · rename_i hone
      rw [hone, hkind]
    · simp at hkind
  have htakes := h.label
  rw [labelBelow_of_one hextent (by simp), Label.takes_one_iff] at htakes
  rcases htakes with ⟨-, t, hdefault, rfl⟩ | ⟨t, -, hall, rfl⟩
  · exact ⟨t, rfl, fun _ => .inr hdefault⟩
  · refine ⟨t, rfl, fun hkept => .inl ?_⟩
    -- The label keeps the kind of the wildcard, so the symbol is one of this kind.
    have hnot : (unordered parent && w.isOptional) = false := by
      cases hoptional : w.isOptional with
      | false => exact Bool.and_false _
      | true => rw [hkept hoptional, Bool.false_and]
    rw [hnot, if_neg Bool.false_ne_true] at hall
    exact hall

/-- The matches of one pattern bind its symbol wildcards to symbols of their kinds. -/
theorem Pattern.symbols_of_mem_solutions {pattern : Pattern} (hpattern : pattern.Built)
    {σ : Substitution} {t : Term} (h : σ ∈ pattern.solutions t) {parent : Option Head}
    {w : Wildcard} (hleaf : (parent, .wildcard w) ∈ pattern.tree.leaves none) {x : String}
    (hname : w.name = some x) {kind : SymbolKind} (hkind : w.symbolKind = some kind) :
    ∃ s, σ.find? x = some (.single s) ∧ ((w.isOptional = true → unordered parent = false) →
      s.isSymbolOf kind = true ∨ w.default = some s) := by
  obtain ⟨-, hdenotes, -⟩ := (Pattern.mem_solutions_iff hpattern).mp h
  obtain ⟨run, b, htakes, hbinds⟩ :=
    hdenotes.leaf ((pattern.tree.leaves_canonical none).mem_iff.mpr hleaf)
  obtain ⟨s, rfl, hs⟩ := htakes.symbol hkind
  exact ⟨s, hbinds x hname, hs⟩

/-- **Symbol wildcards bind symbols.**  Whatever the constraints are, every match of a net binds
    a named symbol wildcard of its pattern to one term.  This is the default of the wildcard or
    a symbol of its kind, as long as the wildcard has no default or does not stand among
    commutative arguments. -/
theorem symbol_wildcards_bind_symbols (patterns : List Pattern) (hbuilt : ∀ p ∈ patterns, p.Built)
    (subject : Term) :
    ∀ found ∈ (Net.ofPatterns patterns).matches subject,
      ∃ hindex : found.1 < patterns.length, ∀ parent w x kind,
        (parent, .wildcard w) ∈ patterns[found.1].tree.leaves none → w.name = some x →
        w.symbolKind = some kind →
          ∃ t, found.2.find? x = some (.single t) ∧
            ((w.isOptional = true → unordered parent = false) →
              t.isSymbolOf kind = true ∨ w.default = some t) := by
  intro found hfound
  obtain ⟨hindex, hsolution⟩ := exists_solution_of_mem_matches hbuilt hfound
  refine ⟨hindex, fun parent w x kind hleaf hname hkind => ?_⟩
  exact Pattern.symbols_of_mem_solutions (hbuilt _ (List.getElem_mem hindex)).trusting hsolution
    hleaf hname hkind

/-- A commutative operation with one dummy symbol, which may have a default. -/
def dummyAmong (default : Option Term) : Pattern where
  tree := .build ⟨"g", .commutative⟩ [.wildcard ⟨some "x", .one (some .dummy), default⟩]
  variableKinds := .ofList [("x", .single)]

/-- Without a default the operation is matched with a dummy symbol only. -/
theorem symbol_wildcards_bind_symbols_for_dummies :
    ((Net.ofPatterns [dummyAmong none]).matches
      (.build ⟨"g", .commutative⟩ [.symbol ⟨"u", .dummy⟩])).length = 1 ∧
    ∀ found ∈ (Net.ofPatterns [dummyAmong none]).matches
        (.build ⟨"g", .commutative⟩ [.symbol ⟨"u", .dummy⟩]),
      ∃ t, found.2.find? "x" = some (.single t) ∧ t.isSymbolOf .dummy = true := by
  have hpattern : Pattern.ofTree (dummyAmong none).tree = .ok (dummyAmong none) := rfl
  have hbuilt : ∀ p ∈ [dummyAmong none], p.Built := fun p hp =>
    List.mem_singleton.mp hp ▸ .ofTree hpattern
  refine ⟨by decide +kernel, fun found hfound => ?_⟩
  obtain ⟨hindex, hsymbols⟩ := symbol_wildcards_bind_symbols _ hbuilt _ found hfound
  have hfirst : found.1 = 0 := Nat.lt_one_iff.mp hindex
  obtain ⟨t, hx, ht⟩ := hsymbols (some ⟨"g", .commutative⟩) ⟨some "x", .one (some .dummy), none⟩ "x"
    .dummy (by simp only [hfirst]; exact List.mem_singleton_self _) rfl rfl
  exact ⟨t, hx, (ht (by simp [Wildcard.isOptional])).resolve_right (by simp)⟩

/-- **A dummy symbol with a default** is bound to an integer among commutative arguments. -/
theorem optional_dummy_binds_integer :
    (Net.ofPatterns [dummyAmong (some (.ofName "d"))]).matches
        (.build ⟨"g", .commutative⟩ [.integer 1]) =
      [(0, .ofList [("x", .single (.integer 1))])] ∧
    (some ⟨"g", .commutative⟩, .wildcard ⟨some "x", .one (some .dummy), some (.ofName "d")⟩) ∈
      (dummyAmong (some (.ofName "d"))).tree.leaves none ∧
    (Term.integer 1).isSymbolOf .dummy = false ∧ some (Term.ofName "d") ≠ some (.integer 1) := by
  decide +kernel

end TermNet
