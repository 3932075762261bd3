import TermNet.Proofs.Net.Patterns

namespace TermNet

/-!
# Sharing is conservative

Patterns share states, constraints and matchers of commutative operations, and adding a
pattern changes all of these.  Still the other patterns find what they found before, in
the same order, and the new pattern finds what it finds in a net of its own.

* `substitutionsOf` — the matches of one pattern;
* `sharing_is_conservative` — one more pattern in a shared net.
-/

open CommutativePattern (fits)

/-- The substitutions that are found for one pattern, in the order in which they are
    found. -/
def substitutionsOf (index : Nat) (found : List Match) : List Substitution :=
  (found.filter (·.1 = index)).map Prod.snd

/-- The substitutions of one pattern are those with its number. -/
theorem substitutionsOf_eq_fits (index : Nat) (found : List Match) :
    substitutionsOf index found = fits index found := by
  unfold substitutionsOf fits
  rw [← List.filterMap_eq_map, List.filterMap_filter]
  refine congrArg (List.filterMap · found) (funext fun ⟨i, σ⟩ => ?_)
  by_cases hi : i = index <;> simp [hi]

variable {meaning : Meaning} {patterns : List Pattern}

/-- All matches of a net with one pattern are those of the pattern. -/
theorem matches_single_perm {pattern : Pattern} (hbuilt : pattern.Built)
    (hfollows : pattern.Follows meaning) (t : Term) :
    (((Net.ofPatterns [pattern]).matches t).map Prod.snd).Perm (pattern.solutions t) := by
  have hbuilt' : ∀ p ∈ [pattern], p.Built := by simpa using hbuilt
  have hfollows' : ∀ p ∈ [pattern], p.Follows meaning := by simpa using hfollows
  have hall : (((Net.ofPatterns [pattern]).matches t).map Prod.snd) =
      fits 0 ((Net.ofPatterns [pattern]).matches t) := by
    rw [← substitutionsOf_eq_fits, substitutionsOf, List.filter_eq_self.mpr]
    intro found hfound
    have hlt := Net.lt_of_mem_ofPatterns hbuilt' hfollows' hfound
    rw [List.length_singleton] at hlt
    exact decide_eq_true (Nat.lt_one_iff.mp hlt)
  rw [hall]
  exact Net.fits_ofPatterns hbuilt' hfollows' rfl t

/-- **A shared net matches like separate ones:** every pattern of a list finds what it finds
    in a net of its own. -/
theorem substitutionsOf_perm_single (hbuilt : ∀ p ∈ patterns, p.Built)
    (hfollows : ∀ p ∈ patterns, p.Follows meaning) {index : Nat} {pattern : Pattern}
    (h : patterns[index]? = some pattern) (t : Term) :
    (substitutionsOf index ((Net.ofPatterns patterns).matches t)).Perm
      (((Net.ofPatterns [pattern]).matches t).map Prod.snd) := by
  have hmem := List.mem_of_getElem? h
  rw [substitutionsOf_eq_fits]
  exact (Net.fits_ofPatterns hbuilt hfollows h t).trans
    (matches_single_perm (hbuilt pattern hmem) (hfollows pattern hmem) t).symm

/-- **Sharing is conservative.**  With one more pattern in the list, the matches of the
    others are those of the net without it, in the same order; those of the new pattern are,
    as a multiset of substitutions, those of a net of its own; and so are those of every
    pattern of the list. -/
theorem sharing_is_conservative (patterns : List Pattern) (pattern : Pattern)
    (hbuilt : ∀ p ∈ patterns ++ [pattern], p.Built) (hpaths : PathsAgree (patterns ++ [pattern]))
    (subject : Term) :
    ((Net.ofPatterns (patterns ++ [pattern])).matches subject).filter
        (fun found => found.1 < patterns.length) = (Net.ofPatterns patterns).matches subject ∧
      (substitutionsOf patterns.length
        ((Net.ofPatterns (patterns ++ [pattern])).matches subject)).Perm
          (((Net.ofPatterns [pattern]).matches subject).map Prod.snd) ∧
      ∀ index p, (patterns ++ [pattern])[index]? = some p →
        (substitutionsOf index ((Net.ofPatterns (patterns ++ [pattern])).matches subject)).Perm
          (((Net.ofPatterns [p]).matches subject).map Prod.snd) := by
  obtain ⟨meaning, hfollows⟩ := hpaths.exists_meaning
  have hseparate : ∀ index p, (patterns ++ [pattern])[index]? = some p →
      (substitutionsOf index ((Net.ofPatterns (patterns ++ [pattern])).matches subject)).Perm
        (((Net.ofPatterns [p]).matches subject).map Prod.snd) := fun index p h =>
    substitutionsOf_perm_single hbuilt hfollows h subject
  refine ⟨?_, hseparate patterns.length pattern (by simp), hseparate⟩
  rw [← Net.matches_ofPatterns_append hbuilt hfollows]
  refine List.filter_congr fun found hfound => ?_
  have hlt := Net.lt_of_mem_ofPatterns hbuilt hfollows hfound
  rw [List.length_append, List.length_singleton] at hlt
  exact decide_eq_decide.mpr ⟨Nat.ne_of_lt, fun hne => by omega⟩

/-- Two sums that share their first state and a constraint. -/
theorem sharing_is_conservative_for_sums :
    ((Net.ofPatterns ([sampleSum] ++ [sampleSuccessor])).matches
        (.build .sum [.integer 1, .integer 2])).filter (fun found => found.1 < 1) =
      (Net.ofPatterns [sampleSum]).matches (.build .sum [.integer 1, .integer 2]) ∧
    (substitutionsOf 1 ((Net.ofPatterns ([sampleSum] ++ [sampleSuccessor])).matches
        (.build .sum [.integer 1, .integer 2]))).Perm
      (((Net.ofPatterns [sampleSuccessor]).matches
        (.build .sum [.integer 1, .integer 2])).map Prod.snd) := by
  have hsums := sharing_is_conservative [sampleSum] sampleSuccessor built_samples pathsAgree_samples
    (.build .sum [.integer 1, .integer 2])
  exact ⟨hsums.1, hsums.2.1⟩

end TermNet
