import TermNet.Proofs.Pattern.Settled

namespace TermNet

/-!
# Properties of all leaves and heads

* `Term.Over`, `PatternTerm.Over` — trees all of whose leaves and heads have a property;
* `Term.Over.build`, `PatternTerm.Over.build` — operations on such trees are such trees;
* `PatternTerm.Over.toTerm?` — so are the terms that trees are.
-/

variable {I : Int64 → Prop} {S : Symbol → Prop} {H : Head → Prop} {W : Wildcard → Prop}

/-- A term all of whose integers, symbols and heads have a property. -/
inductive Term.Over (I : Int64 → Prop) (S : Symbol → Prop) (H : Head → Prop) : Term → Prop
  | integer {value : Int64} (h : I value) : Over I S H (.integer value)
  | symbol {s : Symbol} (h : S s) : Over I S H (.symbol s)
  | node {head : Head} {args : List Term} (h : H head) (hargs : ∀ t ∈ args, Over I S H t) :
    Over I S H (.node head args)

/-- A tree all of whose integers, symbols, heads and wildcards have a property. -/
inductive PatternTerm.Over (I : Int64 → Prop) (S : Symbol → Prop) (H : Head → Prop)
    (W : Wildcard → Prop) : PatternTerm → Prop
  | integer {value : Int64} (h : I value) : Over I S H W (.atom (.integer value))
  | symbol {s : Symbol} (h : S s) : Over I S H W (.atom (.symbol s))
  | wildcard {w : Wildcard} (h : W w) : Over I S H W (.wildcard w)
  | node {head : Head} {args : List PatternTerm} (h : H head) (hargs : ∀ p ∈ args, Over I S H W p) :
    Over I S H W (.node head args)

/-- What holds of the leaves of a term holds of what it contributes to an operation. -/
theorem Term.Over.of_mem_spliced {head : Head} {s t : Term} (h : t.Over I S H)
    (hs : s ∈ spliced head t) : s.Over I S H := by
  cases h with
  | integer h => exact List.mem_singleton.mp hs ▸ .integer h
  | symbol h => exact List.mem_singleton.mp hs ▸ .symbol h
  | node h hargs =>
    rw [spliced_node] at hs
    split at hs
    · exact hargs s hs
    · exact List.mem_singleton.mp hs ▸ .node h hargs

/-- What holds of the leaves of all arguments and of the head holds of what is built. -/
theorem Term.Over.build {head : Head} (h : H head) {args : List Term}
    (hargs : ∀ t ∈ args, t.Over I S H) : (build head args).Over I S H := by
  refine .node h fun s hs => ?_
  obtain ⟨t, ht, hs⟩ := List.mem_flatMap.mp ((arrange_perm head _).mem_iff.mp hs)
  exact (hargs t ht).of_mem_spliced hs

namespace PatternTerm

/-- What holds of the leaves of a tree holds of what it contributes to an operation. -/
theorem Over.of_mem_spliced {head : Head} {p q : PatternTerm} (h : p.Over I S H W)
    (hq : q ∈ p.spliced head) : q.Over I S H W := by
  cases h with
  | integer h => exact List.mem_singleton.mp hq ▸ .integer h
  | symbol h => exact List.mem_singleton.mp hq ▸ .symbol h
  | wildcard h => exact List.mem_singleton.mp hq ▸ .wildcard h
  | node h hargs =>
    rw [spliced] at hq
    split at hq
    · exact hargs q hq
    · exact List.mem_singleton.mp hq ▸ .node h hargs

/-- What holds of the leaves of all argument trees and of the head holds of what is built. -/
theorem Over.build {head : Head} (h : H head) {args : List PatternTerm}
    (hargs : ∀ p ∈ args, p.Over I S H W) : (build head args).Over I S H W := by
  have hspliced : ∀ q ∈ args.flatMap (spliced head), q.Over I S H W := by
    intro q hq
    obtain ⟨p, hp, hq⟩ := List.mem_flatMap.mp hq
    exact (hargs p hp).of_mem_spliced hq
  rw [PatternTerm.build]
  refine .node h fun q hq => hspliced q ?_
  split at hq
  · exact (sortBy_perm _ _).mem_iff.mp hq
  · exact hq

/-- Each term of a list of trees is one of the trees. -/
theorem exists_of_mem_toTerms? {ps : List PatternTerm} {ts : List Term} (h : toTerms? ps = some ts)
    {t : Term} (ht : t ∈ ts) : ∃ p ∈ ps, p.toTerm? = some t := by
  induction ps generalizing ts with
  | nil =>
    cases h
    cases ht
  | cons p ps ih =>
    rw [toTerms?] at h
    split at h
    · rename_i first rest hfirst hrest
      cases h
      rcases List.mem_cons.mp ht with rfl | ht
      · exact ⟨p, List.mem_cons_self, hfirst⟩
      · obtain ⟨q, hq, hqt⟩ := ih hrest ht
        exact ⟨q, List.mem_cons_of_mem p hq, hqt⟩
    · cases h

/-- A tree that is a term passes on what holds of its leaves and heads. -/
theorem Over.toTerm? {p : PatternTerm} (h : p.Over I S H W) {t : Term} (ht : p.toTerm? = some t) :
    t.Over I S H ∧ t.Canonical := by
  induction h generalizing t with
  | integer h =>
    cases ht
    exact ⟨.integer h, .integer _⟩
  | symbol h =>
    cases ht
    exact ⟨.symbol h, .symbol _⟩
  | wildcard h => cases ht
  | node h hargs ih =>
    obtain ⟨ts, hts, rfl⟩ := Option.map_eq_some_iff.mp ht
    have hall : ∀ s ∈ ts, s.Over I S H ∧ s.Canonical := by
      intro s hs
      obtain ⟨q, hq, hqs⟩ := exists_of_mem_toTerms? hts hs
      exact ih q hq hqs
    exact ⟨.build h fun s hs => (hall s hs).1, .build _ fun s hs => (hall s hs).2⟩

end PatternTerm

end TermNet
