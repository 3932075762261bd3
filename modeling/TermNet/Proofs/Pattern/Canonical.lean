import TermNet.Proofs.Pattern.Leaves
import TermNet.Proofs.Pattern.Settled
import TermNet.Proofs.Pattern.Substitute
import TermNet.Proofs.Rearrangement

namespace TermNet

/-!
# Canonical trees

Reading a sum takes its summands one after the other, and each step builds a tree.  What comes out
is the tree that is built from all of them at once.

* `PatternTerm.foldl_build` — building step by step;
* `PatternTerm.canonical_eq_self` — trees that are flat and in order are canonical;
* `PatternTerm.ofTerm` — a term as a tree, and `PatternTerm.toTerm?_canonical_ofTerm` back again.
-/

namespace PatternTerm

variable {head : Head}

/-! ### Building step by step -/

/-- An operation that is built contributes its arguments to one with the same associative head. -/
theorem spliced_build_self (hassoc : head.isAssociative = true) (args : List PatternTerm) :
    (build head args).spliced head =
      if head.isCommutative then sortBy le (args.flatMap (spliced head))
      else args.flatMap (spliced head) := by
  simp [build, spliced, hassoc]

/-- An operation below one of the same associative head adds its arguments. -/
theorem build_build_append (hassoc : head.isAssociative = true) (args more : List PatternTerm) :
    build head (build head args :: more) = build head (args ++ more) := by
  conv_lhs => rw [build, List.flatMap_cons, spliced_build_self hassoc]
  rw [build, List.flatMap_append]
  cases hcomm : head.isCommutative with
  | false => rfl
  | true =>
    simp only [if_true]
    rw [sortBy_sortBy_append le_trans le_total]

/-- **Building step by step** gives what is built at once. -/
theorem foldl_build (hassoc : head.isAssociative = true) (args more : List PatternTerm) :
    more.foldl (fun p q => build head [p, q]) (build head args) = build head (args ++ more) := by
  induction more generalizing args with
  | nil => rw [List.append_nil, List.foldl_nil]
  | cons q more ih =>
    rw [List.foldl_cons, build_build_append hassoc, ih, List.append_assoc]
    rfl

/-! ### Trees that are canonical -/

/-- Arguments that are apart from the head stay as they are. -/
theorem flatMap_spliced_of_apart {args : List PatternTerm} (h : ∀ p ∈ args, Apart head p) :
    args.flatMap (spliced head) = args := by
  have hspliced : ∀ p ∈ args, spliced head p = [p] := by
    intro p hp
    cases p with
    | atom t => rfl
    | wildcard w => rfl
    | node inner below =>
      have hne : ¬ (head.isAssociative && inner = head) = true := by
        simpa [Apart] using h _ hp
      rw [spliced, if_neg hne]
  rw [List.flatMap_congr hspliced, List.flatMap_singleton']

/-- **Trees that are flat and in order** are canonical. -/
theorem canonical_eq_self {p : PatternTerm} (hflat : Flattened p) (hordered : Arranged p) :
    p.canonical = p := by
  induction p using inductionOn with
  | atom t => rfl
  | wildcard w => exact canonical_wildcard w
  | node head args ih =>
    cases hflat with
    | node _ hargs hapart =>
      cases hordered with
      | node hargs' hsorted =>
        have hcanonical : args.map canonical = args :=
          (List.map_congr_left fun p hp => ih p hp (hargs p hp) (hargs' p hp)).trans (List.map_id _)
        rw [canonical_node, hcanonical, build, flatMap_spliced_of_apart hapart]
        split
        · rename_i hcomm
          rw [sortBy_of_pairwise (hsorted hcomm)]
        · rfl

/-! ### Terms as trees -/

mutual

/-- The tree that a term is. -/
def ofTerm : Term → PatternTerm
  | .integer value => .atom (.integer value)
  | .symbol s => .atom (.symbol s)
  | .node head args => .node head (ofTerms args)
termination_by structural t => t

/-- The trees that terms are. -/
def ofTerms : List Term → List PatternTerm
  | [] => []
  | t :: ts => ofTerm t :: ofTerms ts
termination_by structural ts => ts

end

/-- Each term of a list as a tree. -/
theorem ofTerms_eq (ts : List Term) : ofTerms ts = ts.map ofTerm := by
  induction ts with
  | nil => rfl
  | cons t ts ih => rw [ofTerms, ih, List.map_cons]

/-- The tree of a term has no wildcards. -/
theorem wildcards_ofTerm (t : Term) : (ofTerm t).wildcards = [] := by
  induction t using Term.inductionOn with
  | integer value => rfl
  | symbol s => rfl
  | node head args ih =>
    rw [ofTerm, wildcards, ofTerms_eq, List.eq_nil_iff_forall_not_mem]
    intro w hw
    obtain ⟨p, hp, hw⟩ := mem_wildcardsAll.mp hw
    obtain ⟨t, ht, rfl⟩ := List.mem_map.mp hp
    rw [ih t ht] at hw
    cases hw

/-- A list of trees is a list of terms if each tree is a term. -/
theorem toTerms?_map {f : Term → PatternTerm} {g : Term → Term} {ts : List Term}
    (h : ∀ t ∈ ts, (f t).toTerm? = some (g t)) : toTerms? (ts.map f) = some (ts.map g) := by
  induction ts with
  | nil => rfl
  | cons t ts ih =>
    rw [List.map_cons, toTerms?, h t List.mem_cons_self,
      ih fun s hs => h s (List.mem_cons_of_mem t hs), List.map_cons]

/-- The tree of a term stands for its canonical form. -/
theorem toTerm?_ofTerm (t : Term) : (ofTerm t).toTerm? = some t.canonical := by
  induction t using Term.inductionOn with
  | integer value => rfl
  | symbol s => rfl
  | node head args ih =>
    rw [ofTerm, toTerm?, ofTerms_eq, toTerms?_map ih, Term.canonical_node]
    rfl

/-- A tree without wildcards is a term. -/
theorem exists_toTerm?_of_ground {p : PatternTerm} (h : p.wildcards = []) :
    ∃ t, p.toTerm? = some t := by
  induction p using inductionOn with
  | atom t => exact ⟨t, rfl⟩
  | wildcard w => simp [wildcards] at h
  | node head args ih =>
    rw [wildcards] at h
    have hargs : ∃ ts, toTerms? args = some ts := by
      induction args with
      | nil => exact ⟨[], rfl⟩
      | cons p ps ihargs =>
        rw [wildcardsAll, List.append_eq_nil_iff] at h
        obtain ⟨t, ht⟩ := ih p List.mem_cons_self h.1
        obtain ⟨ts, hts⟩ := ihargs (fun q hq => ih q (List.mem_cons_of_mem p hq)) h.2
        exact ⟨t :: ts, by rw [toTerms?, ht, hts]⟩
    obtain ⟨ts, hts⟩ := hargs
    exact ⟨.build head ts, by rw [toTerm?, hts]; rfl⟩

/-- The term that a tree is, is what it becomes under any substitution. -/
theorem substituteRun_of_toTerm? {p : PatternTerm} {t : Term} (h : p.toTerm? = some t)
    (σ : Substitution) : p.substituteRun σ = some [t] := by
  induction p using inductionOn generalizing t with
  | atom s =>
    rw [toTerm?, Option.some.injEq] at h
    rw [substituteRun, h]
  | wildcard w => cases h
  | node head args ih =>
    have hargs : ∀ ts, toTerms? args = some ts → substituteAll σ args = some ts := by
      clear h
      induction args with
      | nil => exact fun ts hts => hts
      | cons p ps ihargs =>
        intro ts hts
        rw [toTerms?] at hts
        split at hts
        · rename_i first rest hfirst hrest
          rw [substituteAll_cons, ih p List.mem_cons_self hfirst,
            ihargs (fun q hq => ih q (List.mem_cons_of_mem p hq)) rest hrest]
          exact hts
        · cases hts
    obtain ⟨ts, hts, rfl⟩ := Option.map_eq_some_iff.mp h
    rw [substituteRun, hargs ts hts]
    rfl

/-- **A term as a tree,** built and taken back, is its canonical form. -/
theorem toTerm?_canonical_ofTerm (t : Term) :
    (ofTerm t).canonical.toTerm? = some t.canonical := by
  have hground : (ofTerm t).canonical.wildcards = [] := by
    have hperm := wildcards_mapVariables id (ofTerm t)
    rw [wildcards_ofTerm] at hperm
    exact hperm.eq_nil
  obtain ⟨u, hu⟩ := exists_toTerm?_of_ground hground
  have hrun := substituteRun_of_toTerm? hu .empty
  rw [substituteRun_canonical, substituteRun_of_toTerm? (toTerm?_ofTerm t) .empty] at hrun
  rw [hu]
  simpa using hrun.symm

end PatternTerm

end TermNet
