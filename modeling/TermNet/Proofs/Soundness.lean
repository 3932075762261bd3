import TermNet.Proofs.Net.Patterns
import TermNet.Proofs.Pattern.Positional
import TermNet.Proofs.Pattern.Rebuilt

namespace TermNet

/-!
# Soundness of matching

Whatever a net finds is a match of the pattern to which it belongs: its bindings are for the
variables of the pattern, turn the pattern back into the subject, and satisfy the constraints.

* `Pattern.sound_of_mem_solutions` — the matches of one pattern;
* `matching_is_sound` — the matches of the net of a list of patterns.
-/

open CommutativePattern (mem_fits_iff)

/-- **The matches of one pattern** bind its variables, rebuild the subject and satisfy the
    constraints. -/
theorem Pattern.sound_of_mem_solutions {pattern : Pattern} (hpattern : pattern.Built)
    (hdefinite : pattern.tree.Definite) {subject : Term} (hsubject : subject.Canonical)
    {σ : Substitution} (h : σ ∈ pattern.solutions subject) :
    σ.names = pattern.variableKinds.names ∧ pattern.tree.substitute σ = some subject ∧
      pattern.accepts σ = true := by
  obtain ⟨after, hafter, hexhausted, hholds, rfl⟩ := mem_accepted.mp h
  have hfind : ∀ x ∈ pattern.tree.variableNames, after.subst.find? (pattern.position x) =
      (after.subst.renamed pattern.tree.positionalNames.entries).find? x := fun x hx =>
    (pattern.find?_renamed_position after.subst hx).symm
  have hbinds := pattern.positionalTree.binds_of_mem_places hafter
  refine ⟨NameMap.names_eq_of_mem fun x => ?_, ?_, (hpattern.accepts_iff hfind).mpr hholds⟩
  · rw [NameMap.mem_names, NameMap.mem_names, ← NameMap.contains_iff (m := pattern.variableKinds),
      hpattern.contains_iff]
    by_cases hx : x ∈ pattern.tree.variableNames
    · rw [← hfind x hx]
      exact iff_of_true (hbinds _ (mem_variableNames_positionalTree hx)) hx
    · rw [pattern.find?_renamed_of_not_mem after.subst hx]
      exact iff_of_false (by simp) hx
  -- The positional tree becomes the subject, and so does the tree with its own names.
  · have hrebuilds : pattern.positionalTree.RebuildsAlone := fun _ _ _ hfits h =>
      PatternTerm.rebuilt_of_mem_places _ (hdefinite.mapVariables _) hfits h
    have hrun := hrebuilds.becomes hsubject hafter hexhausted
    have hrename := pattern.tree.substituteRun_mapVariables hfind
    rw [PatternTerm.substitute_eq_some_iff, ← hrename]
    exact hrun

/-- **Soundness of matching.**  Where all wildcards are named and have no defaults, every
    match belongs to a pattern of the list; its bindings are for exactly the variables of that
    pattern, turn its tree into the subject, and satisfy all its constraints. -/
theorem matching_is_sound (patterns : List Pattern) (hbuilt : ∀ p ∈ patterns, p.Built)
    (hpaths : PathsAgree patterns) (hdefinite : ∀ p ∈ patterns, p.tree.Definite)
    (subject : Term) (hsubject : subject.Canonical) :
    ∀ found ∈ (Net.ofPatterns patterns).matches subject,
      ∃ hindex : found.1 < patterns.length,
        found.2.names = patterns[found.1].variableKinds.names ∧
        patterns[found.1].tree.substitute found.2 = some subject ∧
        patterns[found.1].accepts found.2 = true := by
  rintro ⟨index, σ⟩ hfound
  obtain ⟨meaning, hfollows⟩ := hpaths.exists_meaning
  have hindex : index < patterns.length := Net.lt_of_mem_ofPatterns hbuilt hfollows hfound
  have hmem : patterns[index] ∈ patterns := List.getElem_mem hindex
  -- In the net a pattern finds what it finds by itself.
  have hsolution : σ ∈ patterns[index].solutions subject := by
    have hperm := Net.fits_ofPatterns hbuilt hfollows (List.getElem?_eq_getElem hindex) subject
    exact hperm.mem_iff.mp (mem_fits_iff.mpr hfound)
  exact ⟨hindex, Pattern.sound_of_mem_solutions (hbuilt _ hmem) (hdefinite _ hmem) hsubject
    hsolution⟩

/-- The matches of two sums, which share their first state. -/
theorem matching_is_sound_for_sums :
    ((Net.ofPatterns [sampleSum, sampleSuccessor]).matches
      (.build .sum [.integer 1, .integer 2])).length = 3 ∧
    ∀ found ∈ (Net.ofPatterns [sampleSum, sampleSuccessor]).matches
        (.build .sum [.integer 1, .integer 2]),
      ∃ hindex : found.1 < [sampleSum, sampleSuccessor].length,
        found.2.names = [sampleSum, sampleSuccessor][found.1].variableKinds.names ∧
        [sampleSum, sampleSuccessor][found.1].tree.substitute found.2 =
          some (.build .sum [.integer 1, .integer 2]) ∧
        [sampleSum, sampleSuccessor][found.1].accepts found.2 = true := by
  have hdefinite : ∀ p ∈ [sampleSum, sampleSuccessor], p.tree.Definite := by
    unfold PatternTerm.Definite
    decide +kernel
  refine ⟨by decide +kernel, matching_is_sound _ built_samples pathsAgree_samples hdefinite _
    (.build .sum fun t ht => ?_)⟩
  rcases List.mem_cons.mp ht with rfl | ht
  · exact .integer 1
  · exact List.mem_singleton.mp ht ▸ .integer 2

end TermNet
