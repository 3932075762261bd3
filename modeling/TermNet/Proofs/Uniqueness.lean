import TermNet.Proofs.Net.Trusting
import TermNet.Proofs.Pattern.Distinct

namespace TermNet

/-!
# No match is found twice

The bindings of a match tell how the search has found it, so that no two runs of the
search end in the same match.  Custom constraints may do what they like: they only take
matches away.

* `nodup_of_fits` — matches of every pattern apart;
* `matches_nodup` — all matches of a net are different.
-/

open CommutativePattern (fits)

/-- Matches are different if those of every pattern are. -/
theorem nodup_of_fits {found : List Match} (h : ∀ index, (fits index found).Nodup) :
    found.Nodup := by
  induction found with
  | nil => exact List.nodup_nil
  | cons first rest ih =>
    obtain ⟨index, σ⟩ := first
    have hfirst : fits index ((index, σ) :: rest) = σ :: fits index rest := by
      simp [fits]
    refine List.nodup_cons.mpr ⟨fun hmem => ?_, ih fun other => ?_⟩
    · have hnodup := h index
      rw [hfirst] at hnodup
      refine (List.nodup_cons.mp hnodup).1 (List.mem_filterMap.mpr ⟨(index, σ), hmem, ?_⟩)
      exact if_pos rfl
    · exact (fits_sublist (List.sublist_cons_self _ _) other).nodup (h other)

/-- **No match is found twice** where all wildcards are named and have no defaults, whatever
    the constraints compute. -/
theorem matches_nodup (patterns : List Pattern) (hbuilt : ∀ p ∈ patterns, p.Built)
    (hdefinite : ∀ p ∈ patterns, p.tree.Definite) (subject : Term)
    (hsubject : subject.Canonical) : ((Net.ofPatterns patterns).matches subject).Nodup := by
  -- Without custom constraints, which may compute anything, there are only more matches.
  have hbuilt' := built_trusting hbuilt
  have hfollows := follows_trusting patterns
  refine (matches_sublist_map_trusting hbuilt subject).nodup (nodup_of_fits fun index => ?_)
  cases hpattern : (patterns.map Pattern.trusting)[index]? with
  | none =>
    have hnone : fits index ((Net.ofPatterns (patterns.map Pattern.trusting)).matches subject) =
        [] := by
      refine List.filterMap_eq_nil_iff.mpr fun found hfound => ?_
      have hlt := Net.lt_of_mem_ofPatterns hbuilt' hfollows hfound
      have hge := List.getElem?_eq_none_iff.mp hpattern
      exact if_neg (by omega)
    rw [hnone]
    exact List.nodup_nil
  | some pattern =>
    rw [(Net.fits_ofPatterns hbuilt' hfollows hpattern subject).nodup_iff]
    rw [List.getElem?_map] at hpattern
    obtain ⟨p, hp, rfl⟩ := Option.map_eq_some_iff.mp hpattern
    exact p.trusting.nodup_solutions (hdefinite p (List.mem_of_getElem? hp)) hsubject

/-- A sum of two equal terms is split in one way only, and is a successor in one way only. -/
theorem matches_nodup_for_sums :
    ((Net.ofPatterns [sampleSum, sampleSuccessor]).matches
      (.build .sum [.integer 1, .integer 1])).length = 2 ∧
    ((Net.ofPatterns [sampleSum, sampleSuccessor]).matches
      (.build .sum [.integer 1, .integer 1])).Nodup := by
  have hdefinite : ∀ p ∈ [sampleSum, sampleSuccessor], p.tree.Definite := by
    unfold PatternTerm.Definite
    decide +kernel
  refine ⟨by decide +kernel, matches_nodup _ built_samples hdefinite _
    (.build .sum fun t ht => ?_)⟩
  rw [List.mem_pair, or_self] at ht
  exact ht ▸ .integer 1

end TermNet
